import Lineage.Query
import Lineage.Proofs.Histories
import Lineage.Proofs.Reaching
import Lineage.Proofs.Showing

/-!
# Lineage in one direction

What lies on one side of a vertex is all that the edges of the view lead to in that direction
(`Graph.lineage`), and its frontier are those of it from which no edge goes on. The answer in that
direction depends on the frontier alone: without any the lineage is a cycle, the queried vertex by
itself is the whole answer, with one other vertex for frontier all of the lineage is shown, and
several are condensed (`answer_direction`).
-/

namespace Lineage

open Std Query
open Relation (ReflTransGen)

def Side.scope : Side → Scope
  | source => .ultimateSource
  | destination => .ultimateDestination

namespace Graph

variable (g : Graph) (side : Side) (label : EdgeLabel) (q : Vertex)

/-- An edge leads from a vertex to one that is farther from the queried vertex. -/
def Farther (x y : VertexId) : Prop :=
  match side with
  | .source => g.Joined label y x
  | .destination => g.Joined label x y

/-- What lies on one side of a vertex, itself included. -/
def lineage : Set Vertex :=
  {v | v ∈ allVertices g ∧ ReflTransGen (g.Farther side label) q.id v.id}

def frontier : Set Vertex :=
  {t | t ∈ g.lineage side label q ∧ ∀ y, ¬ g.Farther side label t.id y}

/-- The edges on one side of a vertex, as responses show them. -/
def lineageEdges : Set ResponseEdge :=
  {f | ∃ u ∈ g.lineage side label q, ∃ v ∈ allVertices g, g.Farther side label u.id v.id
    ∧ f = side.edge label.name u.responseId v.responseId}

/-- The edges that stand for what lies between a vertex and its frontier. -/
def condensedEdges : Set ResponseEdge :=
  {side.edge EdgeLabel.condensed.name q.responseId side.sentinel}
    ∪ (fun t => side.edge EdgeLabel.condensed.name side.sentinel t.responseId)
      '' g.frontier side label q

variable {g side label q}

theorem mem_lineage_self (hq : q ∈ allVertices g) : q ∈ g.lineage side label q := ⟨hq, .refl⟩

theorem Coherent.onward_eq_farther (h : g.Coherent) :
    g.Onward side.direction label.name = g.Farther side label := by
  funext x y
  cases side
  · exact propext h.onward_inward
  · exact propext h.onward_outward

theorem Coherent.mem_of_findNode? (h : g.Coherent) {text : String}
    (hq : findNode? g text = some q) : q ∈ allVertices g := by
  rcases Option.or_eq_some_iff.1 hq with hq | ⟨-, hq⟩
  · exact (h.mem_of_vertexWith? hq).1
  · exact (h.mem_of_vertexWith? hq).1

theorem Filed.findNode?_eq_none_iff (h : g.Filed) {text : String} : findNode? g text = none
    ↔ ∀ v ∈ allVertices g, v.nodeId? ≠ some text ∧ v.guid? ≠ some text := by
  rw [findNode?, Option.or_eq_none_iff, h.vertexWith?_eq_none_iff, h.vertexWith?_eq_none_iff]
  exact forall₂_and.symm

/-- An edge met at a vertex is shown between it and its other end. -/
theorem WellFormed.depictions_of_mem_edgesAt (h : g.WellFormed) {u : Vertex}
    (hu : u ∈ allVertices g) {e : Edge} (he : e ∈ edgesAt g u.id side.direction (some label.name)) :
    ∃ v ∈ allVertices g, v.id = e.other u.id ∧ g.endIds e = {u.responseId, v.responseId}
      ∧ g.depictions e = {side.edge label.name u.responseId v.responseId} := by
  obtain ⟨hinc, hlabel⟩ := mem_edgesAt.1 he
  obtain ⟨v, hv, hid, -⟩ := h.requireVertex_other hinc
  refine ⟨v, hv, hid, ?_⟩
  cases side with
  | source =>
    have htarget : u.id = e.target := (h.mem_incident_inward.1 hinc).2.symm
    have hsource : v.id = e.source := by rw [hid, htarget, e.other_target]
    rw [h.endIds_eq hv hu hsource htarget, h.depictions_eq hv hu hsource htarget, hlabel,
      Set.pair_comm]
    exact ⟨rfl, rfl⟩
  | destination =>
    have hsource : u.id = e.source := (h.mem_incident_outward.1 hinc).2.symm
    have htarget : v.id = e.target := by rw [hid, hsource, e.other_source]
    rw [h.endIds_eq hu hv hsource htarget, h.depictions_eq hu hv hsource htarget, hlabel]
    exact ⟨rfl, rfl⟩

end Graph

/-! ## What the search finds -/

namespace Reach.Exact

section Added

variable {g : Graph} {d : Direction} {label : String} {q : Vertex} {r : Reach}

theorem mem_edges_allEdges (h : r.Exact g d label q) (hg : g.Coherent) {e : Edge}
    (he : e ∈ r.edges) : e ∈ allEdges g := by
  obtain ⟨v, -, he⟩ := (h.mem_edges e).1 he
  exact hg.mem_incident (Graph.mem_edgesAt.1 he).1

/-- No edge that is found leads out of the vertices found. -/
theorem mem_vertices_of_end (h : r.Exact g d label q) (hg : g.WellFormed) {e : Edge}
    (he : e ∈ r.edges) {v : Vertex} (hv : v ∈ allVertices g)
    (hend : v.id = e.source ∨ v.id = e.target) : v ∈ r.vertices := by
  obtain ⟨u, hu, he⟩ := (h.mem_edges e).1 he
  rcases hg.end_eq (Graph.mem_edgesAt.1 he).1 hend with hid | hid
  · rwa [hg.eq_of_vertex_id hv ((h.mem_vertices u).1 hu).1 hid]
  · exact (h.mem_vertices v).2 ⟨hv, ((h.mem_vertices u).1 hu).2.tail ⟨e, he, hid.symm⟩⟩

theorem endIds_subset (h : r.Exact g d label q) (hg : g.WellFormed) :
    ⋃ e ∈ r.edges, g.endIds e ⊆ responseIds r.vertices := by
  refine Set.iUnion₂_subset fun e he => ?_
  rintro id ⟨v, hv, hend, rfl⟩
  exact Set.mem_biUnion (show v ∈ r.vertices from h.mem_vertices_of_end hg he hv hend) rfl

/-- To add all that is found is to show the vertices with the edges between them. -/
theorem exists_added (h : r.Exact g d label q) (hg : g.WellFormed) {b : Builder}
    {ids : Set String} {edges : Set ResponseEdge} (hb : b.Shows g ids edges) :
    ∃ b', (b.addVertices r.vertices).addEdges g r.edges = .ok b'
      ∧ b'.Shows g (ids ∪ responseIds r.vertices) (edges ∪ ⋃ e ∈ r.edges, g.depictions e) := by
  have hvertices := hb.addVertices hg.toCoherent fun v hv => ((h.mem_vertices v).1 hv).1
  obtain ⟨b', hadd, hshows⟩ :=
    hvertices.exists_addEdges hg fun e he => h.mem_edges_allEdges hg.toCoherent he
  rw [Set.union_assoc, Set.union_eq_self_of_subset_right (h.endIds_subset hg)] at hshows
  exact ⟨b', hadd, hshows⟩

end Added

variable {g : Graph} {side : Side} {label : EdgeLabel} {q : Vertex} {r : Reach}

theorem mem_lineage (h : r.Exact g side.direction label.name q) (hg : g.Coherent) {v : Vertex} :
    v ∈ r.vertices ↔ v ∈ g.lineage side label q := by
  rw [h.mem_vertices, hg.onward_eq_farther]
  rfl

theorem mem_frontier (h : r.Exact g side.direction label.name q) (hg : g.Coherent) {v : Vertex} :
    v ∈ r.terminals ↔ v ∈ g.frontier side label q := by
  rw [h.mem_terminals, h.mem_lineage hg, hg.onward_eq_farther]
  rfl

theorem terminals_eq_singleton (h : r.Exact g side.direction label.name q) (hg : g.Coherent)
    {t : Vertex} (ht : g.frontier side label q = {t}) : r.terminals = [t] := by
  have hnodup : r.terminals.Nodup := .of_map _ h.terminals_nodup
  refine List.perm_singleton.1
    ((List.perm_ext_iff_of_nodup hnodup (List.nodup_singleton t)).2 fun v => ?_)
  rw [h.mem_frontier hg, ht, List.mem_singleton, Set.mem_singleton_iff]

theorem nontrivial_frontier (h : r.Exact g side.direction label.name q) (hg : g.Coherent)
    {t u : Vertex} {ts : List Vertex} (hterminals : r.terminals = t :: u :: ts) :
    (g.frontier side label q).Nontrivial := by
  have hnodup : r.terminals.Nodup := .of_map _ h.terminals_nodup
  have ht : t ∈ r.terminals := by simp [hterminals]
  have hu : u ∈ r.terminals := by simp [hterminals]
  refine ⟨t, (h.mem_frontier hg).1 ht, u, (h.mem_frontier hg).1 hu, ?_⟩
  rintro rfl
  simp [hterminals] at hnodup

theorem two_le_terminals (h : r.Exact g side.direction label.name q) (hg : g.Coherent)
    (hT : (g.frontier side label q).Nontrivial) : ∃ t u ts, r.terminals = t :: u :: ts := by
  obtain ⟨t, ht, u, hu, hne⟩ := hT
  rw [← h.mem_frontier hg] at ht hu
  rcases hterminals : r.terminals with _ | ⟨x, _ | ⟨y, ts⟩⟩ <;> rw [hterminals] at ht hu
  · cases ht
  · exact absurd ((List.mem_singleton.1 ht).trans (List.mem_singleton.1 hu).symm) hne
  · exact ⟨x, y, ts, rfl⟩

theorem depictions_eq (h : r.Exact g side.direction label.name q) (hg : g.WellFormed) :
    ⋃ e ∈ r.edges, g.depictions e = g.lineageEdges side label q := by
  ext f
  simp only [Set.mem_iUnion₂, exists_prop, h.mem_edges]
  constructor
  · rintro ⟨e, ⟨u, hu, he⟩, hf⟩
    obtain ⟨v, hv, hid, -, hdepict⟩ := hg.depictions_of_mem_edgesAt ((h.mem_vertices u).1 hu).1 he
    rw [hdepict] at hf
    refine ⟨u, (h.mem_lineage hg.toCoherent).1 hu, v, hv, ?_, hf⟩
    rw [← hg.onward_eq_farther]
    exact ⟨e, he, hid.symm⟩
  · rintro ⟨u, hu, v, hv, hfarther, hf⟩
    rw [← hg.onward_eq_farther] at hfarther
    obtain ⟨e, he, hid⟩ := hfarther
    obtain ⟨v', hv', hid', -, hdepict⟩ := hg.depictions_of_mem_edgesAt hu.1 he
    obtain rfl := hg.eq_of_vertex_id hv hv' (hid.symm.trans hid'.symm)
    exact ⟨e, ⟨u, (h.mem_lineage hg.toCoherent).2 hu, he⟩, hdepict ▸ hf⟩

theorem exists_shown (h : r.Exact g side.direction label.name q) (hg : g.WellFormed) {b : Builder}
    {ids : Set String} {edges : Set ResponseEdge} (hb : b.Shows g ids edges) :
    ∃ b', (b.addVertices r.vertices).addEdges g r.edges = .ok b'
      ∧ b'.Shows g (ids ∪ Vertex.responseId '' g.lineage side label q)
        (edges ∪ g.lineageEdges side label q) := by
  rw [← responseIds_eq_image fun v => h.mem_lineage hg.toCoherent, ← h.depictions_eq hg]
  exact h.exists_added hg hb

end Reach.Exact

/-! ## One side of an answer -/

/-- What is added for one side, by the terminals found. -/
theorem addSide_of_reach {γ : Type} [Readable γ] {g : γ} {side : Side} {label : EdgeLabel}
    {q : Vertex} {scope : Scope} {text : String} {b : Builder} {r : Reach}
    (hr : reach g q side.direction label.name = .ok r) :
    addSide g scope text label q side b = match r.terminals with
      | [] => .error (.cycle scope text)
      | [t] => if t.id = q.id then .ok b
        else ((b.addVertices r.vertices).addEdges g r.edges).mapError .store
      | _ => .ok (b.condense side q r.terminals) := by
  rw [addSide, bind_of_ok (lift_of_ok hr)]
  unfold Reach.isTrivial
  rcases r.terminals with _ | ⟨t, _ | ⟨t', ts⟩⟩
  · rfl
  · by_cases ht : t.id = q.id
    · simp only [List.isEmpty_cons, Bool.false_eq_true, ↓reduceIte, ht, BEq.rfl]
      rfl
    · simp only [List.isEmpty_cons, Bool.false_eq_true, ↓reduceIte, beq_iff_eq, ht,
        List.length_cons, List.length_nil, Nat.zero_add]
      rfl
  · rfl

section Answers

variable {g : Graph} {side : Side} {label : EdgeLabel} {q : Vertex}

section Added

variable {scope : Scope} {text : String} {b : Builder} {ids : Set String} {edges : Set ResponseEdge}

theorem addSide_of_frontier_eq_empty (hg : g.WellFormed) (hq : q ∈ allVertices g)
    (hT : g.frontier side label q = ∅) :
    addSide g scope text label q side b = .error (.cycle scope text) := by
  obtain ⟨r, hr, h⟩ := Reach.exists_reach hg hq side.direction label.name
  have hterminals : r.terminals = [] := by
    refine List.eq_nil_iff_forall_not_mem.2 fun t ht => ?_
    rw [h.mem_frontier hg.toCoherent, hT] at ht
    exact ht
  rw [addSide_of_reach hr, hterminals]

theorem addSide_of_frontier_eq_self (hg : g.WellFormed) (hq : q ∈ allVertices g)
    (hT : g.frontier side label q = {q}) : addSide g scope text label q side b = .ok b := by
  obtain ⟨r, hr, h⟩ := Reach.exists_reach hg hq side.direction label.name
  rw [addSide_of_reach hr, h.terminals_eq_singleton hg.toCoherent hT]
  exact if_pos rfl

theorem exists_addSide_of_frontier_eq_singleton (hg : g.WellFormed) (hq : q ∈ allVertices g)
    {t : Vertex} (hne : t ≠ q) (hT : g.frontier side label q = {t}) (hb : b.Shows g ids edges) :
    ∃ b', addSide g scope text label q side b = .ok b'
      ∧ b'.Shows g (ids ∪ Vertex.responseId '' g.lineage side label q)
        (edges ∪ g.lineageEdges side label q) := by
  obtain ⟨r, hr, h⟩ := Reach.exists_reach hg hq side.direction label.name
  have hid : ¬ t.id = q.id := by
    have ht : t ∈ g.frontier side label q := hT ▸ Set.mem_singleton t
    exact fun heq => hne (hg.eq_of_vertex_id ht.1.1 hq heq)
  obtain ⟨b', hadd, hshows⟩ := h.exists_shown hg hb
  refine ⟨b', ?_, hshows⟩
  rw [addSide_of_reach hr, h.terminals_eq_singleton hg.toCoherent hT]
  simp only [if_neg hid, hadd]
  rfl

theorem exists_addSide_of_frontier_nontrivial (hg : g.WellFormed) (hq : q ∈ allVertices g)
    (hT : (g.frontier side label q).Nontrivial) (hb : b.Shows g ids edges) :
    ∃ b', addSide g scope text label q side b = .ok b'
      ∧ b'.Shows g
        (ids ∪ ({q.responseId, side.sentinel} ∪ Vertex.responseId '' g.frontier side label q))
        (edges ∪ g.condensedEdges side label q) := by
  obtain ⟨r, hr, h⟩ := Reach.exists_reach hg hq side.direction label.name
  have hfrontier : ∀ t, t ∈ r.terminals ↔ t ∈ g.frontier side label q :=
    fun t => h.mem_frontier hg.toCoherent
  have hshows := hb.condense hg.toCoherent side hq fun t ht => ((hfrontier t).1 ht).1.1
  rw [responseIds_eq_image hfrontier] at hshows
  simp only [hfrontier, ← Set.image_eq_iUnion, Set.union_assoc] at hshows
  obtain ⟨t, u, ts, hterminals⟩ := h.two_le_terminals hg.toCoherent hT
  refine ⟨_, by rw [addSide_of_reach hr, hterminals], ?_⟩
  rw [← hterminals, Set.insert_eq q.responseId, Set.union_assoc {q.responseId}]
  exact hshows

end Added

variable (w : Whitelist) (graph : GraphName) {view : View} {text : String}

theorem answer_eq_addSide (hq : findNode? g text = some q) :
    answer g w graph side.scope view text
      = (addSide g side.scope text view.edgeLabel q side ((Builder.empty w).addVertex q).2).map
        Builder.finish := by
  rw [answer, hq]
  cases side
  · rfl
  · rfl

theorem answer_of_frontier_eq_empty (hg : g.WellFormed) (hq : findNode? g text = some q)
    (hT : g.frontier side view.edgeLabel q = ∅) :
    answer g w graph side.scope view text = .error (.cycle side.scope text) := by
  rw [answer_eq_addSide w graph hq, addSide_of_frontier_eq_empty hg (hg.mem_of_findNode? hq) hT]
  rfl

theorem answer_of_frontier_eq_self (hg : g.WellFormed) (hq : findNode? g text = some q)
    (hT : g.frontier side view.edgeLabel q = {q}) :
    answer g w graph side.scope view text = .ok ⟨[q.abstract w], []⟩ := by
  rw [answer_eq_addSide w graph hq, addSide_of_frontier_eq_self hg (hg.mem_of_findNode? hq) hT,
    ← Builder.finish_addVertex_empty]
  rfl

theorem exists_answer_of_frontier_eq_singleton (hg : g.WellFormed)
    (hq : findNode? g text = some q) {t : Vertex} (hne : t ≠ q)
    (hT : g.frontier side view.edgeLabel q = {t}) :
    ∃ r, answer g w graph side.scope view text = .ok r
      ∧ r.Shows (Vertex.responseId '' g.lineage side view.edgeLabel q)
        (g.lineageEdges side view.edgeLabel q) := by
  have hmem := hg.mem_of_findNode? hq
  obtain ⟨b, hb, hshows⟩ := exists_addSide_of_frontier_eq_singleton hg hmem hne hT
    (Builder.shows_addVertex_empty w hg.toCoherent hmem)
  rw [Set.singleton_union, Set.empty_union,
    Set.insert_eq_of_mem (Set.mem_image_of_mem _ (Graph.mem_lineage_self hmem))] at hshows
  exact ⟨b.finish, by rw [answer_eq_addSide w graph hq, hb]; rfl, hshows.finish⟩

theorem exists_answer_of_frontier_nontrivial (hg : g.WellFormed)
    (hq : findNode? g text = some q) (hT : (g.frontier side view.edgeLabel q).Nontrivial) :
    ∃ r, answer g w graph side.scope view text = .ok r
      ∧ r.Shows ({q.responseId, side.sentinel}
          ∪ Vertex.responseId '' g.frontier side view.edgeLabel q)
        (g.condensedEdges side view.edgeLabel q) := by
  have hmem := hg.mem_of_findNode? hq
  obtain ⟨b, hb, hshows⟩ := exists_addSide_of_frontier_nontrivial hg hmem hT
    (Builder.shows_addVertex_empty w hg.toCoherent hmem)
  rw [Set.singleton_union, Set.empty_union,
    Set.insert_eq_of_mem (Set.mem_union_left _ (Set.mem_insert _ _))] at hshows
  exact ⟨b.finish, by rw [answer_eq_addSide w graph hq, hb]; rfl, hshows.finish⟩

theorem exists_answer_of_frontier_nonempty (hg : g.WellFormed) (hq : findNode? g text = some q)
    (hT : (g.frontier side view.edgeLabel q).Nonempty) :
    ∃ r, answer g w graph side.scope view text = .ok r := by
  obtain ⟨t, ht⟩ := hT
  rcases Set.eq_singleton_or_nontrivial ht with hT | hT
  · by_cases htq : t = q
    · exact ⟨_, answer_of_frontier_eq_self w graph hg hq (htq ▸ hT)⟩
    · obtain ⟨r, hr, -⟩ := exists_answer_of_frontier_eq_singleton w graph hg hq htq hT
      exact ⟨r, hr⟩
  · obtain ⟨r, hr, -⟩ := exists_answer_of_frontier_nontrivial w graph hg hq hT
    exact ⟨r, hr⟩

end Answers

/-- The answer about a vertex in one direction, by the frontier on that side. -/
structure Query.AnswersDirection (g : Graph) (w : Whitelist) (graph : GraphName) (side : Side)
    (view : View) (text : String) (q : Vertex) : Prop where
  cycle : answer g w graph side.scope view text = .error (.cycle side.scope text)
    ↔ g.frontier side view.edgeLabel q = ∅
  alone : g.frontier side view.edgeLabel q = {q} →
    answer g w graph side.scope view text = .ok ⟨[q.abstract w], []⟩
  single : ∀ t ≠ q, g.frontier side view.edgeLabel q = {t} →
    ∃ r, answer g w graph side.scope view text = .ok r
      ∧ r.Shows (Vertex.responseId '' g.lineage side view.edgeLabel q)
        (g.lineageEdges side view.edgeLabel q)
  several : (g.frontier side view.edgeLabel q).Nontrivial →
    ∃ r, answer g w graph side.scope view text = .ok r
      ∧ r.Shows ({q.responseId, side.sentinel}
          ∪ Vertex.responseId '' g.frontier side view.edgeLabel q)
        (g.condensedEdges side view.edgeLabel q)

/-- Whatever the history of a graph, cycles, diamonds and repeated edges included, a query in one
direction answers with just what the frontier asks for. -/
theorem answer_direction (name : String) (history : List Episode) (w : Whitelist)
    (graph : GraphName) (side : Side) (view : View) (text : String) (q : Vertex)
    (hq : findNode? ((Graph.empty name).after history) text = some q) :
    AnswersDirection ((Graph.empty name).after history) w graph side view text q := by
  have hg := wellFormed_after_empty name history
  refine ⟨⟨fun hcycle => ?_, answer_of_frontier_eq_empty w graph hg hq⟩,
    answer_of_frontier_eq_self w graph hg hq,
    fun t => exists_answer_of_frontier_eq_singleton w graph hg hq,
    exists_answer_of_frontier_nontrivial w graph hg hq⟩
  by_contra hT
  obtain ⟨r, hr⟩ :=
    exists_answer_of_frontier_nonempty w graph hg hq (Set.nonempty_iff_ne_empty.2 hT)
  rw [hr] at hcycle
  cases hcycle

/-- A diamond with a repeated edge and a cycle in it: two ways from `a` to `d`, which feed each
other. -/
def sampleDiamond : List Episode :=
  [⟨(["a", "b", "c", "d"].map fun n => .addVertex "Column" (ExtTreeMap.ofList [(Key.nodeId, n)]))
    ++ ([(0, 1), (0, 1), (0, 2), (1, 2), (2, 1), (1, 3), (2, 3)].map fun (s, t) =>
      .addEdge "ColumnAndProcess" s t ∅), .commit⟩]

theorem answer_direction_sampleDiamond :
    let g := (Graph.empty "main").after sampleDiamond
    let d : Vertex := ⟨3, "Column", ExtTreeMap.ofList [(Key.nodeId, "d")]⟩
    findNode? g "d" = some d
    ∧ AnswersDirection g .standard .main .source .column "d" d := by
  intro g d
  have hd : findNode? g "d" = some d := by decide +kernel
  exact ⟨hd, answer_direction "main" sampleDiamond .standard .main .source .column "d" d hd⟩

/-- Both ways back to `a` are shown, and the repeated edge once. -/
example : (answer ((Graph.empty "main").after sampleDiamond) .standard .main .ultimateSource .column
    "d").toOption.map (fun r => (r.vertexIds, r.edges.map fun e => (e.source, e.destination)))
      = some (["a", "b", "c", "d"],
        [("a", "b"), ("a", "c"), ("b", "c"), ("b", "d"), ("c", "b"), ("c", "d")]) := by
  decide +kernel

end Lineage
