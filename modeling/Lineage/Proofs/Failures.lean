import Lineage.Proofs.Cycles
import Lineage.Proofs.Hiding

/-!
# How a query fails

A query in a caller's spelling is refused for the first part of it that cannot be read, or because
no vertex answers to the text. After that it only follows edges. Both ends of every edge met in a
stored graph are there, whatever document the graph was loaded from and whether or not its adjacency
says what its edges say (`Graph.Sound`); so no look-up fails any more, and what is left is a side
without terminals (`Sound.exists_answer_or_cycle`). In a graph with a history of its own that is a
cycle of edges (`failsHonestly`).
-/

namespace Lineage

open Std Query
open Relation (TransGen)

/-! ## Look-ups in a stored graph -/

/-- A run whose steps all succeed succeeds. -/
theorem exists_foldlM_ok {α β ε : Type} {f : β → α → Except ε β} : ∀ (as : List α) (b : β),
    (∀ a ∈ as, ∀ b, ∃ b', f b a = .ok b') → ∃ b', as.foldlM f b = .ok b'
  | [], b, _ => ⟨b, rfl⟩
  | a :: as, b, h => by
    obtain ⟨b₁, hfirst⟩ := h a List.mem_cons_self b
    obtain ⟨b', hrest⟩ := exists_foldlM_ok as b₁ fun a' ha' => h a' (List.mem_cons_of_mem _ ha')
    exact ⟨b', (bind_of_ok hfirst _).trans hrest⟩

/-- Both ends of an edge are in a graph. -/
def Graph.Inside (g : Graph) (e : Edge) : Prop := e.source ∈ g.vertices ∧ e.target ∈ g.vertices

/-- What is reached on one side of a vertex has no terminals. -/
def Graph.Endless (g : Graph) (side : Side) (label : EdgeLabel) (q : Vertex) : Prop :=
  ∃ r, reach g q side.direction label.name = .ok r ∧ r.terminals = []

theorem Graph.endless_iff_of_reach {g : Graph} {side : Side} {label : EdgeLabel} {q : Vertex}
    {r : Reach} (hr : reach g q side.direction label.name = .ok r) :
    g.Endless side label q ↔ r.terminals = [] := by
  refine ⟨fun ⟨r', hr', hnone⟩ => ?_, fun hnone => ⟨r, hr, hnone⟩⟩
  rw [hr] at hr'
  cases hr'
  exact hnone

namespace Graph.Sound

variable {g : Graph} {x : VertexId} {d : Direction} {label : String}

theorem exists_requireVertex (hx : x ∈ g.vertices) : ∃ v, requireVertex g x = .ok v := by
  exact ⟨_, requireVertex_of_some (ExtTreeMap.getElem?_eq_some_getElem hx)⟩

theorem inside_of_mem_edgesAt (h : g.Sound) {e : Edge} (he : e ∈ edgesAt g x d (some label)) :
    g.Inside e :=
  h.ends_of_incident (mem_edgesAt.1 he).1

theorem exists_other (h : g.Sound) {e : Edge} (he : e ∈ edgesAt g x d (some label)) :
    ∃ v, requireVertex g (e.other x) = .ok v := by
  obtain ⟨hsource, htarget⟩ := h.inside_of_mem_edgesAt he
  unfold Edge.other
  split_ifs
  · exact exists_requireVertex htarget
  · exact exists_requireVertex hsource

theorem exists_neighbors (h : g.Sound) (x : VertexId) (d : Direction) (label : String) :
    ∃ found, neighbors g x d (some label) = .ok found ∧ ∀ p ∈ found, g.Inside p.1 := by
  obtain ⟨found, hfound, hmem⟩ := exists_mapM_ok
    (f := fun e => (requireVertex g (e.other x)).map (e, ·)) (edgesAt g x d (some label))
    fun e he => by
      obtain ⟨v, hv⟩ := h.exists_other he
      exact ⟨(e, v), by rw [hv]; rfl⟩
  refine ⟨found, hfound, fun p hp => ?_⟩
  obtain ⟨e, he, hp⟩ := (hmem p).1 hp
  obtain ⟨v, hv⟩ := h.exists_other he
  rw [hv] at hp
  cases hp
  exact h.inside_of_mem_edgesAt he

/-! ## What is reached -/

theorem exists_discover (h : g.Sound) {v : Vertex} : ∀ (es : List Edge) (found : List Vertex),
    (∀ e ∈ es, e ∈ Reach.onward g d label v) → ∃ found', Reach.discover g v es found = .ok found'
  | [], found, _ => ⟨found, rfl⟩
  | e :: es, found, hes => by
    have hrest := fun f hf => hes f (List.mem_cons_of_mem _ hf)
    unfold Reach.discover
    split_ifs
    · exact exists_discover h es found hrest
    · obtain ⟨u, hu⟩ := h.exists_other (hes e List.mem_cons_self)
      obtain ⟨found', hfound'⟩ := exists_discover h es (found ++ [u]) hrest
      exact ⟨found', (bind_of_ok hu _).trans hfound'⟩

theorem exists_closureFrom (h : g.Sound) (d : Direction) (label : String) :
    ∀ (rounds position : Nat) (found : List Vertex),
      ∃ all, Reach.closureFrom g d label rounds position found = .ok all
  | 0, _, found => ⟨found, rfl⟩
  | rounds + 1, position, found => by
    unfold Reach.closureFrom
    cases found[position]? with
    | none => exact ⟨found, rfl⟩
    | some v =>
      obtain ⟨found', hfound'⟩ := h.exists_discover (Reach.onward g d label v) found fun _ => id
      obtain ⟨all, hall⟩ := exists_closureFrom h d label rounds (position + 1) found'
      exact ⟨all, (bind_of_ok hfound' _).trans hall⟩

theorem exists_reach (h : g.Sound) (start : Vertex) (d : Direction) (label : String) :
    ∃ r, reach g start d label = .ok r ∧ ∀ e ∈ r.edges, g.Inside e := by
  obtain ⟨all, hall⟩ : ∃ all, Reach.closure g d label start = .ok all :=
    h.exists_closureFrom d label ((allVertices g).length + 1) 0 [start]
  refine ⟨_, bind_of_ok hall _, fun e he => ?_⟩
  obtain ⟨v, -, he⟩ := List.mem_flatMap.1 ((Reach.distinctEdges_spec _).2.1 e he)
  exact h.inside_of_mem_edgesAt he

/-! ## What is added -/

theorem exists_addEnd (hx : x ∈ g.vertices) (b : Builder) : ∃ p, b.addEnd g x = .ok p := by
  unfold Builder.addEnd
  cases b.ids[x]? with
  | some shown => exact ⟨(shown, b), rfl⟩
  | none =>
    obtain ⟨v, hv⟩ := exists_requireVertex hx
    exact ⟨b.addVertex v, by rw [hv]; rfl⟩

theorem exists_addEdge {e : Edge} (he : g.Inside e) (b : Builder) :
    ∃ b', b.addEdge g e = .ok b' := by
  obtain ⟨⟨source, b₁⟩, hsource⟩ := exists_addEnd he.1 b
  obtain ⟨⟨target, b₂⟩, htarget⟩ := exists_addEnd he.2 b₁
  exact ⟨_, (bind_of_ok hsource _).trans (bind_of_ok htarget _)⟩

theorem exists_addEdges {es : List Edge} (hes : ∀ e ∈ es, g.Inside e) (b : Builder) :
    ∃ b', b.addEdges g es = .ok b' :=
  exists_foldlM_ok es b fun e he => exists_addEdge (hes e he)

section Queries

variable {scope : Scope} {text : String} {view : View} {q : Vertex}

theorem exists_addSide_or_cycle (h : g.Sound) (side : Side) (label : EdgeLabel) (b : Builder) :
    ¬ g.Endless side label q ∧ (∃ b', addSide g scope text label q side b = .ok b')
      ∨ g.Endless side label q
        ∧ addSide g scope text label q side b = .error (.cycle scope text) := by
  obtain ⟨r, hr, hinside⟩ := h.exists_reach q side.direction label.name
  rw [endless_iff_of_reach hr, addSide_of_reach hr]
  rcases r.terminals with _ | ⟨t, _ | ⟨u, ts⟩⟩
  · exact .inr ⟨rfl, rfl⟩
  · obtain ⟨b', hb'⟩ := exists_addEdges hinside (b.addVertices r.vertices)
    refine .inl ⟨List.cons_ne_nil _ _, ?_⟩
    dsimp only
    split_ifs
    · exact ⟨b, rfl⟩
    · exact ⟨b', by rw [hb']; rfl⟩
  · exact .inl ⟨List.cons_ne_nil _ _, _, rfl⟩

/-- The first side without an end is the last that is looked at. -/
theorem exists_addSides_or_cycle (h : g.Sound) (label : EdgeLabel) : ∀ (on : List Side)
    (b : Builder), (∀ side ∈ on, ¬ g.Endless side label q)
        ∧ (∃ b', on.foldlM (fun b side => addSide g scope text label q side b) b = .ok b')
      ∨ (∃ side ∈ on, g.Endless side label q)
        ∧ on.foldlM (fun b side => addSide g scope text label q side b) b
          = .error (.cycle scope text)
  | [], b => .inl ⟨List.forall_mem_nil _, b, rfl⟩
  | side :: on, b => by
    rw [List.foldlM_cons, List.forall_mem_cons, List.exists_mem_cons_iff]
    rcases h.exists_addSide_or_cycle side label b with ⟨hend, b₁, hfirst⟩ | ⟨hend, hcycle⟩
    · rw [bind_of_ok hfirst]
      exact (exists_addSides_or_cycle h label on b₁).imp (.imp_left fun hon => ⟨hend, hon⟩)
        (.imp_left .inr)
    · rw [hcycle]
      exact .inr ⟨.inl hend, rfl⟩

theorem exists_addReach (h : g.Sound) (d : Direction) (label : EdgeLabel) (b : Builder) :
    ∃ b', addReach g q d label b = .ok b' := by
  obtain ⟨r, hr, hinside⟩ := h.exists_reach q d label.name
  obtain ⟨b', hb'⟩ := exists_addEdges hinside (b.addVertices r.vertices)
  exact ⟨b', (bind_of_ok hr _).trans hb'⟩

theorem exists_addAssets (h : g.Sound) (term : Vertex) (b : Builder) :
    ∃ b', addAssets g term b = .ok b' := by
  obtain ⟨assets, hassets, hinside⟩ := h.exists_neighbors term.id .inward EdgeLabel.semantic.name
  obtain ⟨b', hb'⟩ := exists_foldlM_ok (f := fun b p => (b.addVertex p.2).2.addEdge g p.1) assets b
    fun p hp b => exists_addEdge (hinside p hp) (b.addVertex p.2).2
  exact ⟨b', (bind_of_ok hassets _).trans hb'⟩

theorem exists_addGlossary (h : g.Sound) (q : Vertex) (b : Builder) :
    ∃ b', addGlossary g q b = .ok b' := by
  obtain ⟨r, hr, hinside⟩ := h.exists_reach q .both EdgeLabel.synonym.name
  obtain ⟨b₁, hb₁⟩ := exists_addEdges hinside (b.addVertices r.vertices)
  obtain ⟨b', hb'⟩ := exists_foldlM_ok (f := fun b term => addAssets g term b) r.vertices b₁
    fun term _ => h.exists_addAssets term
  exact ⟨b', (bind_of_ok hr _).trans ((bind_of_ok hb₁ _).trans hb')⟩

theorem exists_assemble_or_cycle (h : g.Sound) (scope : Scope) (view : View) (text : String)
    (q : Vertex) (b : Builder) :
    (∀ side ∈ scope.sides, ¬ g.Endless side view.edgeLabel q)
        ∧ (∃ b', assemble g scope view text q b = .ok b')
      ∨ (∃ side ∈ scope.sides, g.Endless side view.edgeLabel q)
        ∧ assemble g scope view text q b = .error (.cycle scope text) := by
  cases scope using Scope.casesOnSides with
  | sides scope hscope =>
    rw [assemble_eq_foldlM hscope]
    exact h.exists_addSides_or_cycle view.edgeLabel scope.sides _
  | endToEnd =>
    obtain ⟨b₁, hsource⟩ := h.exists_addReach (q := q) .inward view.edgeLabel (b.addVertex q).2
    obtain ⟨b₂, hdestination⟩ := h.exists_addReach (q := q) .outward view.edgeLabel b₁
    exact .inl ⟨List.forall_mem_nil _, b₂,
      (bind_of_ok (lift_of_ok hsource) _).trans (lift_of_ok hdestination)⟩
  | glossary =>
    obtain ⟨b', hb'⟩ := h.exists_addGlossary q (b.addVertex q).2
    exact .inl ⟨List.forall_mem_nil _, b', lift_of_ok hb'⟩

/-- About a vertex that is found there is an answer, unless a side asked for has no end. -/
theorem exists_answer_or_cycle (h : g.Sound) (w : Whitelist) (graph : GraphName)
    (hq : findNode? g text = some q) :
    (∀ side ∈ scope.sides, ¬ g.Endless side view.edgeLabel q)
        ∧ (∃ r, answer g w graph scope view text = .ok r)
      ∨ (∃ side ∈ scope.sides, g.Endless side view.edgeLabel q)
        ∧ answer g w graph scope view text = .error (.cycle scope text) := by
  rw [answer_of_findNode? hq]
  rcases h.exists_assemble_or_cycle scope view text q (.empty w) with ⟨hends, b, hb⟩ | hcycle
  · exact .inl ⟨hends, b.finish, by rw [hb]; rfl⟩
  · exact .inr ⟨hcycle.1, by rw [hcycle.2]; rfl⟩

end Queries

end Graph.Sound

theorem Graph.WellFormed.endless_iff {g : Graph} (hg : g.WellFormed) {q : Vertex}
    (hq : q ∈ allVertices g) {side : Side} {label : EdgeLabel} :
    g.Endless side label q ↔ g.frontier side label q = ∅ := by
  obtain ⟨r, hr, h⟩ := Reach.exists_reach hg hq side.direction label.name
  rw [endless_iff_of_reach hr, List.eq_nil_iff_forall_not_mem, Set.eq_empty_iff_forall_notMem]
  exact forall_congr' fun t => not_congr (h.mem_frontier hg.toCoherent)

section Cycles

variable {g : Graph} {w : Whitelist} {graph : GraphName} {scope : Scope} {view : View}
  {text : String}

/-- Some side has no end, and on each that has none there is a cycle. -/
theorem exists_cycle_of_answer (hg : g.WellFormed)
    (hcycle : answer g w graph scope view text = .error (.cycle scope text)) :
    ∃ q, findNode? g text = some q
      ∧ (∃ side ∈ scope.sides, g.Endless side view.edgeLabel q)
      ∧ ∀ side, g.Endless side view.edgeLabel q → ∃ v ∈ g.lineage side view.edgeLabel q,
        TransGen (g.Joined view.edgeLabel) v.id v.id := by
  cases hq : findNode? g text with
  | none =>
    rw [answer, hq] at hcycle
    cases hcycle
  | some q =>
    have hmem := hg.mem_of_findNode? hq
    refine ⟨q, rfl, ?_, fun side hend =>
      hg.exists_cycle_of_frontier_eq_empty hmem ((hg.endless_iff hmem).1 hend)⟩
    by_contra hno
    have hT : ∀ side ∈ scope.sides, (g.frontier side view.edgeLabel q).Nonempty :=
      fun side hside => Set.nonempty_iff_ne_empty.2 fun hT =>
        hno ⟨side, hside, (hg.endless_iff hmem).2 hT⟩
    obtain ⟨r, hr, -⟩ := exists_answer w graph hg hq hT
    rw [hr] at hcycle
    cases hcycle

theorem exists_answer_of_acyclic {q : Vertex} (hg : g.WellFormed)
    (hacyclic : ∀ x, ¬ TransGen (g.Joined view.edgeLabel) x x) (hq : findNode? g text = some q) :
    ∃ r, answer g w graph scope view text = .ok r := by
  have hT (side : Side) : (g.frontier side view.edgeLabel q).Nonempty :=
    hg.frontier_nonempty (hg.mem_of_findNode? hq) fun v _ => hacyclic v.id
  obtain ⟨r, hr, -⟩ := exists_answer w graph hg hq fun side _ => hT side
  exact ⟨r, hr⟩

end Cycles

/-! ## Refusals -/

theorem GraphName.parse_of_not_exists {text : String} (h : ¬ ∃ n, GraphName.parse text = .ok n) :
    GraphName.parse text = .error (.invalidSource text) := by
  unfold GraphName.parse at h ⊢
  split
  · next n hn => exact absurd ⟨n, by rw [hn]⟩ h
  · rfl

theorem Scope.parse_of_not_exists {text : String} (h : ¬ ∃ sc, Scope.parse text = .ok sc) :
    Scope.parse text = .error (.invalidScope text) := by
  unfold Scope.parse at h ⊢
  split
  · next sc hsc => exact absurd ⟨sc, by rw [hsc]⟩ h
  · rfl

theorem View.parse_of_not_exists {text : String} (h : ¬ ∃ v, View.parse text = .ok v) :
    View.parse text = .error (.invalidView text) := by
  unfold View.parse at h ⊢
  split
  · next v hv => exact absurd ⟨v, by rw [hv]⟩ h
  · rfl

/-- A caller's spelling of a graph, a scope and a view. -/
structure Spells (graph scope view : String) (n : GraphName) (sc : Scope) (v : View) : Prop where
  graph_ok : GraphName.parse graph = .ok n
  scope_ok : Scope.parse scope = .ok sc
  view_ok : View.parse view = .ok v

namespace GraphSet

variable (s : GraphSet) (w : Whitelist) (graph scope view text : String)

/-- Why a query in a caller's spelling is refused, and with which error. -/
inductive Refuses : LineageError → Prop
  | source (hgraph : ¬ ∃ n, GraphName.parse graph = .ok n) :
    Refuses (.request (.invalidSource graph))
  | scope (hgraph : ∃ n, GraphName.parse graph = .ok n)
    (hscope : ¬ ∃ sc, Scope.parse scope = .ok sc) : Refuses (.request (.invalidScope scope))
  | view (hgraph : ∃ n, GraphName.parse graph = .ok n) (hscope : ∃ sc, Scope.parse scope = .ok sc)
    (hview : ¬ ∃ v, View.parse view = .ok v) : Refuses (.request (.invalidView view))
  | node {n : GraphName} {sc : Scope} {v : View} (hspells : Spells graph scope view n sc v)
    (hnone : ∀ x ∈ allVertices (s.get n), x.nodeId? ≠ some text ∧ x.guid? ≠ some text) :
    Refuses (.nodeNotFound sc n text)
  | cycle {n : GraphName} {sc : Scope} {v : View} {q : Vertex} {side : Side}
    (hspells : Spells graph scope view n sc v) (hq : findNode? (s.get n) text = some q)
    (hside : side ∈ sc.sides) (hend : (s.get n).Endless side v.edgeLabel q) :
    Refuses (.cycle sc text)

variable {s w graph scope view text}

theorem queryText_of_spells {n : GraphName} {sc : Scope} {v : View}
    (h : Spells graph scope view n sc v) :
    s.queryText w graph scope view text = answer (s.get n) w n sc v text := by
  rw [queryText, h.graph_ok, h.scope_ok, h.view_ok]
  rfl

theorem queryText_of_refuses (hs : ∀ n, (s.get n).Sound) {e : LineageError}
    (h : s.Refuses graph scope view text e) :
    s.queryText w graph scope view text = .error e := by
  cases h with
  | source hgraph =>
    rw [queryText, GraphName.parse_of_not_exists hgraph]
    rfl
  | scope hgraph hscope =>
    obtain ⟨n, hn⟩ := hgraph
    rw [queryText, hn, Scope.parse_of_not_exists hscope]
    rfl
  | view hgraph hscope hview =>
    obtain ⟨n, hn⟩ := hgraph
    obtain ⟨sc, hsc⟩ := hscope
    rw [queryText, hn, hsc, View.parse_of_not_exists hview]
    rfl
  | @node n sc v hspells hnone =>
    rw [queryText_of_spells hspells, answer, (hs n).findNode?_eq_none_iff.2 hnone]
    rfl
  | @cycle n sc v q side hspells hq hside hend =>
    rw [queryText_of_spells hspells]
    rcases (hs n).exists_answer_or_cycle w n hq with ⟨hends, -⟩ | ⟨-, hcycle⟩
    · exact absurd hend (hends side hside)
    · exact hcycle

/-- A query is answered, or it is refused for a reason. -/
theorem exists_answer_or_refuses (hs : ∀ n, (s.get n).Sound) :
    (∃ r, s.queryText w graph scope view text = .ok r)
      ∨ ∃ e, s.Refuses graph scope view text e := by
  by_cases hgraph : ∃ n, GraphName.parse graph = .ok n
  swap
  · exact .inr ⟨_, .source hgraph⟩
  by_cases hscope : ∃ sc, Scope.parse scope = .ok sc
  swap
  · exact .inr ⟨_, .scope hgraph hscope⟩
  by_cases hview : ∃ v, View.parse view = .ok v
  swap
  · exact .inr ⟨_, .view hgraph hscope hview⟩
  obtain ⟨n, hn⟩ := hgraph
  obtain ⟨sc, hsc⟩ := hscope
  obtain ⟨v, hv⟩ := hview
  have hspells : Spells graph scope view n sc v := ⟨hn, hsc, hv⟩
  cases hq : findNode? (s.get n) text with
  | none => exact .inr ⟨_, .node hspells ((hs n).findNode?_eq_none_iff.1 hq)⟩
  | some q =>
    rw [queryText_of_spells hspells]
    rcases (hs n).exists_answer_or_cycle w n hq with ⟨-, hr⟩ | ⟨⟨side, hside, hend⟩, -⟩
    · exact .inl hr
    · exact .inr ⟨_, .cycle hspells hq hside hend⟩

theorem queryText_eq_error_iff (hs : ∀ n, (s.get n).Sound) {e : LineageError} :
    s.queryText w graph scope view text = .error e ↔ s.Refuses graph scope view text e := by
  refine ⟨fun herror => ?_, queryText_of_refuses hs⟩
  rcases exists_answer_or_refuses (w := w) hs with ⟨r, hr⟩ | ⟨e', he'⟩
  · rw [hr] at herror
    cases herror
  · have herror' := queryText_of_refuses (w := w) hs he'
    rw [herror] at herror'
    cases herror'
    exact he'

/-- What a refusal tells the caller. -/
structure FailsHonestly (s : GraphSet) (w : Whitelist) (graph scope view text : String) :
    Prop where
  refused : ∀ e, s.queryText w graph scope view text = .error e
    ↔ s.Refuses graph scope view text e
  directional : ∀ sc other, s.queryText w graph scope view text = .error (.cycle sc other) →
    sc ∈ [Scope.ultimateSource, .ultimateDestination, .sourceAndDestination]
  no_store : ∀ cause, s.queryText w graph scope view text ≠ .error (.store cause)
  cyclic : ∀ n sc v name history, Spells graph scope view n sc v →
    s.get n = (Graph.empty name).after history →
    s.queryText w graph scope view text = .error (.cycle sc text) →
    ∃ q, findNode? (s.get n) text = some q
      ∧ (∃ side ∈ sc.sides, (s.get n).Endless side v.edgeLabel q)
      ∧ ∀ side, (s.get n).Endless side v.edgeLabel q →
        ∃ x ∈ (s.get n).lineage side v.edgeLabel q,
          TransGen ((s.get n).Joined v.edgeLabel) x.id x.id
  answered : ∀ n sc v name history q, Spells graph scope view n sc v →
    s.get n = (Graph.empty name).after history →
    (∀ x, ¬ TransGen ((s.get n).Joined v.edgeLabel) x x) →
    findNode? (s.get n) text = some q →
    ∃ r, s.queryText w graph scope view text = .ok r

end GraphSet

theorem Scope.mem_of_mem_sides {sc : Scope} {side : Side} (h : side ∈ sc.sides) :
    sc ∈ [Scope.ultimateSource, .ultimateDestination, .sourceAndDestination] := by
  cases sc with
  | endToEnd | glossary => cases h
  | _ => decide

/-- Whatever the graphs of a set were loaded from and whatever was done to them since, a query fails
for one of the reasons there are, and with a cycle only where there is one. -/
theorem failsHonestly (s : GraphSet) (hs : ∀ n, (s.get n).Storable) (w : Whitelist)
    (graph scope view text : String) : s.FailsHonestly w graph scope view text := by
  have hsound : ∀ n, (s.get n).Sound := fun n => (hs n).sound
  have hrefused : ∀ e, s.queryText w graph scope view text = .error e
      ↔ s.Refuses graph scope view text e := fun e => GraphSet.queryText_eq_error_iff hsound
  refine ⟨hrefused, fun sc other hcycle => ?_, fun cause hstore => ?_,
    fun n sc v name history hspells hgrown hcycle => ?_,
    fun n sc v name history q hspells hgrown hacyclic hq => ?_⟩
  · cases (hrefused _).1 hcycle with
    | cycle _ _ hside _ => exact Scope.mem_of_mem_sides hside
  · nomatch (hrefused _).1 hstore
  · have hg : (s.get n).WellFormed := hgrown ▸ wellFormed_after_empty name history
    rw [GraphSet.queryText_of_spells hspells] at hcycle
    exact exists_cycle_of_answer hg hcycle
  · have hg : (s.get n).WellFormed := hgrown ▸ wellFormed_after_empty name history
    rw [GraphSet.queryText_of_spells hspells]
    exact exists_answer_of_acyclic hg hacyclic hq

/-- A document that repeats an edge id in the main graph, and two columns that feed each other in
the mock graph. -/
def sampleSet : GraphSet where
  main := reversedDocument.edges.foldl Graph.attach
    (reversedDocument.vertices.foldl Graph.insertVertex (.empty "main"))
  buffer := .empty "buffer"
  mock := (Graph.empty "mock").after
    [⟨(["a", "b"].map fun n => .addVertex "Column" (ExtTreeMap.ofList [(Key.nodeId, n)]))
      ++ ([(0, 1), (1, 0)].map fun (s, t) => .addEdge "ColumnAndProcess" s t ∅), .commit⟩]
  history := .empty "history"

theorem failsHonestly_sampleSet : (∀ n, (sampleSet.get n).Storable)
    ∧ sampleSet.FailsHonestly .standard "Mock" "ultimate-source" "column" "a" := by
  have hs : ∀ n, (sampleSet.get n).Storable := by
    intro n
    cases n with
    | main => exact ⟨reversedDocument, "main", _, [], rfl, rfl⟩
    | buffer => exact Graph.storable_after_empty "buffer" []
    | mock => exact Graph.storable_after_empty "mock" _
    | history => exact Graph.storable_after_empty "history" []
  exact ⟨hs, failsHonestly sampleSet hs .standard "Mock" "ultimate-source" "column" "a"⟩

example : sampleSet.queryText .standard "Mock" "ultimate-source" "column" "a"
    = .error (.cycle .ultimateSource "a") := by
  decide +kernel

end Lineage
