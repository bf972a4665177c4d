import Lineage.Proofs.Filing
import Lineage.Proofs.Distinct
import Lineage.Proofs.Reloading

/-!
# Upstream and downstream are mirror images

Let every edge of a graph be turned round (`Graph.reverse`). What lay on one side of a vertex then
lies on the other, its frontier included, so a query that looks to one side of the vertex is
answered as its mirror image was before (`Scope.mirror`): by the same vertices, with the edges
between them turned round, and with the sentinel of the other side in place of the one
(`answer_reverse`). For that, response ids have to tell the vertices apart and keep off the
sentinels.
-/

namespace Lineage

open Std Query
open Relation (ReflTransGen)

/-! ## Mirror images -/

def Side.opposite : Side → Side
  | source => destination
  | destination => source

@[simp]
theorem Side.opposite_opposite (side : Side) : side.opposite.opposite = side := by
  cases side <;> rfl

theorem Side.opposite_injective : Function.Injective opposite :=
  Function.LeftInverse.injective opposite_opposite

/-- The other spelling of a sentinel; every other id stays. -/
def Side.renamed (side : Side) (id : String) : String :=
  if id = side.sentinel then side.opposite.sentinel else id

/-- Each sentinel for the other; every other id stays. -/
def exchangeSentinels (id : String) : String :=
  if id = Side.source.sentinel then Side.destination.sentinel else Side.destination.renamed id

def Scope.mirror : Scope → Scope
  | ultimateSource => ultimateDestination
  | ultimateDestination => ultimateSource
  | scope => scope

theorem Scope.mem_sides_mirror {scope : Scope} {side : Side} :
    side ∈ scope.mirror.sides ↔ side.opposite ∈ scope.sides := by
  cases scope <;> cases side <;> decide

theorem Scope.sides_mirror_ne_nil {scope : Scope} (h : scope.sides ≠ []) :
    scope.mirror.sides ≠ [] := by
  cases scope with
  | endToEnd | glossary => exact absurd rfl h
  | _ => exact List.cons_ne_nil _ _

theorem Scope.iUnion_sides_mirror {α : Type} (scope : Scope) (S : Side → Set α) :
    ⋃ side ∈ scope.mirror.sides, S side = ⋃ side ∈ scope.sides, S side.opposite := by
  ext a
  simp only [Set.mem_iUnion, mem_sides_mirror, exists_prop]
  constructor
  · rintro ⟨side, hside, ha⟩
    exact ⟨side.opposite, hside, by rwa [side.opposite_opposite]⟩
  · rintro ⟨side, hside, ha⟩
    exact ⟨side.opposite, by rwa [side.opposite_opposite], ha⟩

/-- A vertex under another id. One that is displayed by its id is displayed by the new one. -/
def ResponseVertex.rename (f : String → String) (v : ResponseVertex) : ResponseVertex :=
  { v with
    id := f v.id
    displayName := v.displayName.map fun name => if name = v.id then f name else name }

def ResponseEdge.turn (f : String → String) (e : ResponseEdge) : ResponseEdge :=
  ⟨e.label, f e.destination, f e.source⟩

/-- A response with its edges turned round, under other ids and listed anew. -/
def Response.turn (f : String → String) (r : Response) : Response :=
  rebuild ⟨r.vertices.map (·.rename f), r.edges.map (·.turn f)⟩

/-- The edge of a graph turned round. -/
def Edge.reverse (e : Edge) : Edge := { e with source := e.target, target := e.source }

/-- A graph with every edge turned round: its vertices and the turned edges, put in by id. -/
def Graph.reverse (g : Graph) : Graph :=
  ((allEdges g).map Edge.reverse).foldl attach ((allVertices g).foldl insertVertex (.empty g.name))

theorem ResponseEdge.turn_edge (f : String → String) (side : Side) (label a b : String) :
    (side.edge label a b).turn f = side.opposite.edge label (f a) (f b) := by
  cases side <;> rfl

/-! ## The two graphs -/

namespace Graph

/-- Two graphs have the same vertices, and the edges of one run the other way in the other. -/
structure Turned (g r : Graph) : Prop where
  wellFormed : g.WellFormed
  wellFormed' : r.WellFormed
  vertices : allVertices r = allVertices g
  joined : ∀ label x y, r.Joined label x y ↔ g.Joined label y x

theorem WellFormed.turned_reverse {g : Graph} (h : g.WellFormed) : g.Turned g.reverse := by
  have hascending : ((allEdges g).map Edge.reverse).Pairwise fun d e => d.id < e.id :=
    List.pairwise_map.2 h.edges_ascending
  have hbound : ∀ e ∈ (allEdges g).map Edge.reverse, e.id < g.nextEdge :=
    List.forall_mem_map.2 fun e he => (h.edge_id_lt he : e.id < g.nextEdge)
  obtain ⟨hr, -, -, hvs, hes⟩ := records_spec g.name h.vertices_ascending hascending hbound
  change allVertices g.reverse = _ at hvs
  change allEdges g.reverse = _ at hes
  refine ⟨h, ⟨hr, ?_⟩, hvs, fun label x y => ?_⟩
  · unfold Closed
    rw [hvs, hes]
    exact List.forall_mem_map.2 fun e he => (h.closed e he).symm
  · show (∃ e ∈ allEdges _, _) ↔ _
    rw [hes]
    constructor
    · rintro ⟨_, hturned, hsource, hlabel, htarget⟩
      obtain ⟨e, he, rfl⟩ := List.mem_map.1 hturned
      exact ⟨e, he, htarget, hlabel, hsource⟩
    · rintro ⟨e, he, hsource, hlabel, htarget⟩
      exact ⟨e.reverse, List.mem_map_of_mem he, htarget, hlabel, hsource⟩

/-- A renaming that leaves stored vertices alone and exchanges sentinels as far as some sides ask
for it. -/
structure Renames (g : Graph) (f : String → String) (sides : List Side) : Prop where
  stored : ∀ v ∈ allVertices g, f v.responseId = v.responseId
  sentinel : ∀ side ∈ sides, f side.sentinel = side.opposite.sentinel

theorem Renames.image_responseId {g : Graph} {f : String → String} {sides : List Side}
    (hf : g.Renames f sides) {S : Set Vertex} (hS : ∀ v ∈ S, v ∈ allVertices g) :
    f '' (Vertex.responseId '' S) = Vertex.responseId '' S := by
  rw [Set.image_image]
  exact Set.image_congr fun v hv => hf.stored v (hS v hv)

namespace Turned

variable {g r : Graph} {f : String → String} {sides : List Side} {side : Side} {label : EdgeLabel}
  {q : Vertex} {scope : Scope}

theorem findNode?_eq (h : g.Turned r) (text : String) : findNode? r text = findNode? g text := by
  simp only [findNode?, h.wellFormed.vertexWith?_eq, h.wellFormed'.vertexWith?_eq, h.vertices]

theorem farther_eq (h : g.Turned r) : r.Farther side label = g.Farther side.opposite label := by
  funext x y
  cases side
  · exact propext (h.joined label y x)
  · exact propext (h.joined label x y)

theorem lineage_eq (h : g.Turned r) :
    r.lineage side label q = g.lineage side.opposite label q := by
  rw [lineage, lineage, h.farther_eq, h.vertices]

theorem frontier_eq (h : g.Turned r) :
    r.frontier side label q = g.frontier side.opposite label q := by
  rw [frontier, frontier, h.farther_eq, h.lineage_eq]

theorem lineageEdges_eq (h : g.Turned r) (hf : g.Renames f sides) :
    g.lineageEdges side.opposite label q = ResponseEdge.turn f '' r.lineageEdges side label q := by
  rw [lineageEdges, lineageEdges, h.farther_eq, h.lineage_eq, h.vertices]
  ext e
  constructor
  · rintro ⟨u, hu, v, hv, hfarther, rfl⟩
    refine ⟨_, ⟨u, hu, v, hv, hfarther, rfl⟩, ?_⟩
    rw [ResponseEdge.turn_edge, hf.stored u hu.1, hf.stored v hv]
  · rintro ⟨_, ⟨u, hu, v, hv, hfarther, rfl⟩, rfl⟩
    refine ⟨u, hu, v, hv, hfarther, ?_⟩
    rw [ResponseEdge.turn_edge, hf.stored u hu.1, hf.stored v hv]

theorem condensedEdges_eq (h : g.Turned r) (hf : g.Renames f sides) (hside : side ∈ sides)
    (hq : q ∈ allVertices g) :
    g.condensedEdges side.opposite label q
      = ResponseEdge.turn f '' r.condensedEdges side label q := by
  rw [condensedEdges, condensedEdges, h.frontier_eq, Set.image_union, Set.image_singleton,
    Set.image_image, ResponseEdge.turn_edge, hf.stored q hq, hf.sentinel side hside]
  refine congrArg _ (Set.image_congr fun t ht => ?_)
  rw [ResponseEdge.turn_edge, hf.sentinel side hside, hf.stored t ht.1.1]

theorem sideIds_eq (h : g.Turned r) (hf : g.Renames f sides) (hside : side ∈ sides)
    (hq : q ∈ allVertices g) :
    g.sideIds side.opposite label q = f '' r.sideIds side label q := by
  by_cases hT : (r.frontier side label q).Nontrivial
  · have hT' : (g.frontier side.opposite label q).Nontrivial := h.frontier_eq ▸ hT
    rw [sideIds_of_nontrivial hT, sideIds_of_nontrivial hT', h.frontier_eq, Set.image_union,
      Set.image_pair, hf.stored q hq, hf.sentinel side hside,
      hf.image_responseId fun t ht => ht.1.1]
  · have hT' : ¬ (g.frontier side.opposite label q).Nontrivial := h.frontier_eq ▸ hT
    rw [sideIds_of_not_nontrivial hT, sideIds_of_not_nontrivial hT', h.lineage_eq,
      hf.image_responseId fun v hv => hv.1]

theorem sideEdges_eq (h : g.Turned r) (hf : g.Renames f sides) (hside : side ∈ sides)
    (hq : q ∈ allVertices g) :
    g.sideEdges side.opposite label q = ResponseEdge.turn f '' r.sideEdges side label q := by
  by_cases hT : (r.frontier side label q).Nontrivial
  · have hT' : (g.frontier side.opposite label q).Nontrivial := h.frontier_eq ▸ hT
    rw [sideEdges_of_nontrivial hT, sideEdges_of_nontrivial hT', h.condensedEdges_eq hf hside hq]
  · have hT' : ¬ (g.frontier side.opposite label q).Nontrivial := h.frontier_eq ▸ hT
    rw [sideEdges_of_not_nontrivial hT, sideEdges_of_not_nontrivial hT', h.lineageEdges_eq hf]

/-- The glossary looks to neither side, and the edges of terms to their assets would be turned. -/
theorem answerIds_eq (h : g.Turned r) (hf : g.Renames f scope.sides) (hscope : scope ≠ .glossary)
    (hq : q ∈ allVertices g) :
    g.answerIds label q scope.mirror = f '' r.answerIds label q scope := by
  cases scope using Scope.casesOnSides with
  | sides scope hsides =>
    rw [answerIds_of_sides hsides, answerIds_of_sides (Scope.sides_mirror_ne_nil hsides),
      Scope.iUnion_sides_mirror, Set.image_iUnion₂]
    exact Set.iUnion₂_congr fun side hside => h.sideIds_eq hf hside hq
  | endToEnd =>
    show g.answerIds label q .endToEnd = _
    rw [answerIds, answerIds, h.lineage_eq, h.lineage_eq, Set.image_union,
      hf.image_responseId fun v hv => hv.1, hf.image_responseId fun v hv => hv.1, Set.union_comm]
    rfl
  | glossary => exact absurd rfl hscope

theorem answerEdges_eq (h : g.Turned r) (hf : g.Renames f scope.sides) (hscope : scope ≠ .glossary)
    (hq : q ∈ allVertices g) :
    g.answerEdges label q scope.mirror = ResponseEdge.turn f '' r.answerEdges label q scope := by
  cases scope using Scope.casesOnSides with
  | sides scope hsides =>
    rw [answerEdges_of_sides hsides, answerEdges_of_sides (Scope.sides_mirror_ne_nil hsides),
      Scope.iUnion_sides_mirror, Set.image_iUnion₂]
    exact Set.iUnion₂_congr fun side hside => h.sideEdges_eq hf hside hq
  | endToEnd =>
    show g.answerEdges label q .endToEnd = _
    rw [answerEdges, answerEdges, Set.image_union, ← h.lineageEdges_eq hf, ← h.lineageEdges_eq hf,
      Set.union_comm]
    rfl
  | glossary => exact absurd rfl hscope

end Turned

end Graph

/-! ## The response turned round -/

theorem rename_condensedVertex {f : String → String} {side : Side}
    (hf : f side.sentinel = side.opposite.sentinel) :
    (Builder.condensedVertex side).rename f = Builder.condensedVertex side.opposite := by
  simp only [ResponseVertex.rename, Builder.condensedVertex, Option.map_some, ↓reduceIte, hf]

theorem rename_abstract {f : String → String} {v : Vertex} (w : Whitelist)
    (hf : f v.responseId = v.responseId) : (v.abstract w).rename f = v.abstract w := by
  have hname : v.displayName?.map (fun name => if name = v.responseId then f name else name)
      = v.displayName? := by
    cases v.displayName? with
    | none => rfl
    | some name =>
      rw [Option.map_some]
      split_ifs with heq
      · rw [heq, hf]
      · rfl
  have hrename : (v.abstract w).rename f = { v.abstract w with
      id := f v.responseId
      displayName := v.displayName?.map fun name =>
        if name = v.responseId then f name else name } := rfl
  rw [hrename, hf, hname]
  rfl

/-- No stored vertex goes under a sentinel. -/
def Graph.Unreserved (g : Graph) : Prop :=
  ∀ v ∈ allVertices g, ∀ side : Side, v.responseId ≠ side.sentinel

namespace Builder

variable {g r : Graph} {w : Whitelist} {b b' : Builder} {f : String → String} {asked : List Side}
  {sides sides' : Set Side} {ids ids' : Set String} {edges edges' : Set ResponseEdge}

/-- What is filed in one builder is filed under its new id in the other. -/
theorem Holds.getElem?_rename (h : b.Holds g w sides) (h' : b'.Holds r w sides')
    (hb : b.Shows g ids edges) (hb' : b'.Shows r ids' edges') (hturned : g.Turned r)
    (hdistinct : g.Distinct) (hfree : g.Unreserved) (hf : g.Renames f asked)
    (hasked : ∀ side ∈ sides', side ∈ asked ∧ side.opposite ∈ sides) (hids : ids = f '' ids')
    {id : String} {x : ResponseVertex} (hx : b'.vertices[id]? = some x) :
    b.vertices[f id]? = some (x.rename f) := by
  have hid := hb'.own id x hx
  rcases h'.stored id x hx with ⟨v, hv, rfl⟩ | ⟨side, hside, rfl⟩
  · rw [hturned.vertices] at hv
    have hself : f v.responseId = v.responseId := hf.stored v hv
    have hmem : f id ∈ ids := hids ▸ ⟨id, (hb'.filed id).1
      (ExtTreeMap.isSome_getElem?_iff_mem.1 (by rw [hx]; rfl)), rfl⟩
    obtain ⟨y, hy⟩ := Option.isSome_iff_exists.1
      (ExtTreeMap.isSome_getElem?_iff_mem.2 ((hb.filed _).2 hmem))
    have hyid : y.id = v.responseId := by
      rw [hb.own _ y hy, ← hid]
      exact hself
    rw [hy, rename_abstract w hself]
    rcases h.stored _ y hy with ⟨u, hu, rfl⟩ | ⟨side, -, rfl⟩
    · rw [hdistinct hu hv hyid]
    · exact absurd hyid.symm (hfree v hv side)
  · obtain ⟨hside, hopposite⟩ := hasked side hside
    have hsentinel := hf.sentinel side hside
    rw [rename_condensedVertex hsentinel, ← hid]
    exact hsentinel ▸ h.condensed _ hopposite

/-- No two ids become one. -/
theorem Holds.injOn_rename (h' : b'.Holds r w sides') (hb' : b'.Shows r ids' edges')
    (hturned : g.Turned r) (hfree : g.Unreserved) (hf : g.Renames f asked)
    (hasked : ∀ side ∈ sides', side ∈ asked) : Set.InjOn f {id | id ∈ b'.vertices} := by
  have hcases : ∀ id ∈ b'.vertices, (∃ v ∈ allVertices g, id = v.responseId ∧ f id = id)
      ∨ ∃ side : Side, id = side.sentinel ∧ f id = side.opposite.sentinel := by
    intro id hid
    obtain ⟨x, hx⟩ := Option.isSome_iff_exists.1 (ExtTreeMap.isSome_getElem?_iff_mem.2 hid)
    rw [← hb'.own id x hx]
    rcases h'.stored id x hx with ⟨v, hv, rfl⟩ | ⟨side, hside, rfl⟩
    · rw [hturned.vertices] at hv
      exact .inl ⟨v, hv, rfl, hf.stored v hv⟩
    · exact .inr ⟨side, rfl, hf.sentinel side (hasked side hside)⟩
  intro i hi j hj heq
  rcases hcases i hi with ⟨u, hu, hiu, hfi⟩ | ⟨s, his, hfi⟩ <;>
    rcases hcases j hj with ⟨v, hv, hjv, hfj⟩ | ⟨t, hjt, hfj⟩ <;> rw [hfi, hfj] at heq
  · exact heq
  · exact absurd (hiu ▸ heq) (hfree u hu t.opposite)
  · exact absurd (hjv ▸ heq.symm) (hfree v hv s.opposite)
  · rw [his, hjt, Side.opposite_injective (Side.sentinel_injective heq)]

theorem finish_eq_turn (hb : b.Shows g ids edges) (hb' : b'.Shows r ids' edges')
    (h : b.Holds g w sides) (h' : b'.Holds r w sides') (hturned : g.Turned r)
    (hdistinct : g.Distinct) (hfree : g.Unreserved) (hf : g.Renames f asked)
    (hasked : ∀ side ∈ sides', side ∈ asked ∧ side.opposite ∈ sides) (hids : ids = f '' ids')
    (hedges : edges = ResponseEdge.turn f '' edges') : b.finish = b'.finish.turn f := by
  have hrenamed : ∀ {id : String} {x : ResponseVertex}, b'.vertices[id]? = some x →
      b.vertices[f id]? = some (x.rename f) := fun hx =>
    h.getElem?_rename h' hb hb' hturned hdistinct hfree hf hasked hids hx
  have hinj := h'.injOn_rename hb' hturned hfree hf fun side hside => (hasked side hside).1
  have hlisted : ∀ {x : ResponseVertex}, x ∈ b'.vertices.values ↔ b'.vertices[x.id]? = some x := by
    intro x
    rw [mem_values]
    exact ⟨fun ⟨id, hx⟩ => by rwa [hb'.own id x hx], fun hx => ⟨x.id, hx⟩⟩
  have hnodup : (b'.vertices.values.map (·.rename f)).Pairwise fun x y => x.id ≠ y.id := by
    refine List.pairwise_map.2 ((List.pairwise_map.1 hb'.finish.vertices_nodup).imp_of_mem ?_)
    intro x y hx hy hne heq
    refine hne (hinj ?_ ?_ heq)
    · exact ExtTreeMap.isSome_getElem?_iff_mem.1 (by rw [hlisted.1 hx]; rfl)
    · exact ExtTreeMap.isSome_getElem?_iff_mem.1 (by rw [hlisted.1 hy]; rfl)
  have hvertices : b.vertices = ExtTreeMap.ofList
      ((b'.vertices.values.map (·.rename f)).map fun v => (v.id, v)) := by
    refine ExtTreeMap.ext_getElem? fun id => Option.ext fun x => ?_
    rw [getElem?_ofList_eq_some_iff hnodup, List.mem_map]
    constructor
    · intro hx
      obtain ⟨i, hi, rfl⟩ : id ∈ f '' ids' := hids ▸ (hb.filed id).1
        (ExtTreeMap.isSome_getElem?_iff_mem.1 (by rw [hx]; rfl))
      obtain ⟨y, hy⟩ := Option.isSome_iff_exists.1
        (ExtTreeMap.isSome_getElem?_iff_mem.2 ((hb'.filed i).2 hi))
      obtain rfl := Option.some.inj (hx.symm.trans (hrenamed hy))
      exact ⟨⟨y, mem_values.2 ⟨i, hy⟩, rfl⟩, congrArg f (hb'.own i y hy)⟩
    · rintro ⟨⟨y, hy, rfl⟩, rfl⟩
      exact hrenamed (hlisted.1 hy)
  have hset : b.edges = ExtTreeSet.ofList (b'.edges.toList.map (·.turn f)) := by
    refine ExtTreeSet.ext_mem fun e => ?_
    rw [hb.edges, hedges, ExtTreeSet.mem_ofList, List.contains_iff_mem, List.mem_map]
    simp only [ExtTreeSet.mem_toList, hb'.edges]
    rfl
  rw [finish, hvertices, hset]
  rfl

end Builder

/-! ## Answers -/

section Answers

variable {g r : Graph} {f : String → String}

/-- The other graph answers the mirror image of a query with the mirror image of the response, and
fails where it fails. -/
theorem Graph.Turned.toOption_answer (h : g.Turned r) (hdistinct : g.Distinct)
    (hfree : g.Unreserved) (w : Whitelist) (graph : GraphName) (view : View) (text : String)
    (scope : Scope) (hf : g.Renames f scope.sides) (hscope : scope ≠ .glossary) :
    (answer g w graph scope.mirror view text).toOption
      = (answer r w graph scope view text).toOption.map (Response.turn f) := by
  cases hq : findNode? g text with
  | none =>
    have hq' : findNode? r text = none := by rw [h.findNode?_eq, hq]
    simp only [answer, hq, hq']
    rfl
  | some q =>
    have hq' : findNode? r text = some q := by rw [h.findNode?_eq, hq]
    have hmem : q ∈ allVertices g := h.wellFormed.mem_of_findNode? hq
    by_cases hT : ∃ side ∈ scope.sides, r.frontier side view.edgeLabel q = ∅
    · rw [answer_of_frontier_eq_empty_of_mem h.wellFormed' hq' hT]
      obtain ⟨side, hside, hempty⟩ := hT
      rw [h.frontier_eq] at hempty
      have hopposite : side.opposite ∈ scope.mirror.sides :=
        Scope.mem_sides_mirror.2 (by rwa [side.opposite_opposite])
      rw [answer_of_frontier_eq_empty_of_mem h.wellFormed hq ⟨_, hopposite, hempty⟩]
      rfl
    · simp only [not_exists, not_and, ← ne_eq, ← Set.nonempty_iff_ne_empty] at hT
      have hT' : ∀ side ∈ scope.mirror.sides, (g.frontier side view.edgeLabel q).Nonempty := by
        intro side hside
        have hnonempty := hT side.opposite (Scope.mem_sides_mirror.1 hside)
        rwa [h.frontier_eq, side.opposite_opposite] at hnonempty
      have hmem' : q ∈ allVertices r := h.vertices.symm ▸ hmem
      obtain ⟨b, hb, hshows⟩ := exists_assemble w text h.wellFormed hmem hT'
      obtain ⟨b', hb', hshows'⟩ := exists_assemble w text h.wellFormed' hmem' hT
      have hholds := (Builder.holds_empty g w).assemble h.wellFormed hmem hb
      have hholds' := (Builder.holds_empty r w).assemble h.wellFormed' hmem' hb'
      rw [answer_of_findNode? hq, answer_of_findNode? hq', hb, hb']
      refine congrArg some (Builder.finish_eq_turn hshows hshows' hholds hholds' h hdistinct hfree
        hf ?_ (h.answerIds_eq hf hscope hmem) (h.answerEdges_eq hf hscope hmem))
      rintro side (⟨hside, hseveral⟩ | hside)
      · refine ⟨hside, .inl ⟨Scope.mem_sides_mirror.2 (by rwa [side.opposite_opposite]), ?_⟩⟩
        rwa [h.frontier_eq] at hseveral
      · cases hside

end Answers

/-- How a graph with every edge turned round answers: the one side as the other was answered before,
with its own sentinel, and end to end and on both sides the mirror images of themselves. -/
structure Query.Mirrored (g r : Graph) (w : Whitelist) (graph : GraphName) (view : View)
    (text : String) : Prop where
  side : ∀ side : Side, (answer g w graph side.opposite.scope view text).toOption
    = (answer r w graph side.scope view text).toOption.map (Response.turn side.renamed)
  endToEnd : (answer g w graph .endToEnd view text).toOption
    = (answer r w graph .endToEnd view text).toOption.map (Response.turn id)
  both : (answer g w graph .sourceAndDestination view text).toOption
    = (answer r w graph .sourceAndDestination view text).toOption.map
      (Response.turn exchangeSentinels)

theorem answer_reverse (name : String) (history : List Episode) (w : Whitelist)
    (graph : GraphName) (view : View) (text : String)
    (hdistinct : ((Graph.empty name).after history).Distinct)
    (hfree : ((Graph.empty name).after history).Unreserved) :
    Mirrored ((Graph.empty name).after history) ((Graph.empty name).after history).reverse w graph
      view text := by
  have h := (wellFormed_after_empty name history).turned_reverse
  refine ⟨fun side => ?_, ?_, ?_⟩
  · have hf : ((Graph.empty name).after history).Renames side.renamed side.scope.sides := by
      refine ⟨fun v hv => if_neg (hfree v hv side), ?_⟩
      cases side <;> exact List.forall_mem_singleton.2 (if_pos rfl)
    have hside := h.toOption_answer hdistinct hfree w graph view text side.scope hf
      (by cases side <;> decide)
    cases side <;> exact hside
  · exact h.toOption_answer hdistinct hfree w graph view text .endToEnd
      ⟨fun v _ => rfl, List.forall_mem_nil _⟩ (by decide)
  · refine h.toOption_answer hdistinct hfree w graph view text .sourceAndDestination
      ⟨fun v hv => ?_, ?_⟩ (by decide)
    · exact (if_neg (hfree v hv .source)).trans (if_neg (hfree v hv .destination))
    · decide

theorem answer_reverse_sampleFork :
    let g := (Graph.empty "main").after sampleFork
    g.Distinct ∧ g.Unreserved
      ∧ ∀ view, Mirrored g g.reverse .standard .main view "c" := by
  intro g
  have hinj : ∀ u ∈ allVertices g, ∀ v ∈ allVertices g, u.responseId = v.responseId → u = v := by
    decide +kernel
  have hdistinct : g.Distinct := fun u hu v hv => hinj u hu v hv
  have hlisted : ∀ v ∈ allVertices g, ∀ side ∈ [Side.source, .destination],
      v.responseId ≠ side.sentinel := by
    decide +kernel
  have hfree : g.Unreserved := fun v hv side => hlisted v hv side (by cases side <;> decide)
  exact ⟨hdistinct, hfree, fun view => answer_reverse "main" sampleFork .standard .main view "c"
    hdistinct hfree⟩

/-- Turned round, the fork has its two columns below `c`. -/
example : ((answer ((Graph.empty "main").after sampleFork).reverse .standard .main
    .ultimateDestination .column "c").toOption.map fun r => (r.vertexIds, r.edges.length))
      = some (["a", "b", "c", "condensedDestination"], 3) := by
  decide +kernel

end Lineage
