import Lineage.Proofs.Directions
import Lineage.Proofs.Glossary

/-!
# How the scopes fit together

A query asks for the frontier on some sides of the vertex (`Scope.sides`), and it is answered unless
one of them has none (`exists_answer_iff`). In every scope the answer shows one set of response ids
and one of edges (`Graph.answerIds`, `Graph.answerEdges`). Those of a query for frontiers are put
together from what each side adds: the lineage on that side, or the vertices that condense it. So
the answer for both sides is the union of those for either, and all that is not condensed is shown
end to end as well (`scopes_compose`).
-/

namespace Lineage

open Std Query

/-- The sides whose frontier a scope asks for. -/
def Scope.sides : Scope → List Side
  | ultimateSource => [.source]
  | ultimateDestination => [.destination]
  | sourceAndDestination => [.source, .destination]
  | endToEnd | glossary => []

/-- A scope asks for frontiers, or it is one of the two that do not. -/
@[elab_as_elim]
theorem Scope.casesOnSides {P : Scope → Prop} (scope : Scope)
    (sides : ∀ scope, scope.sides ≠ [] → P scope) (endToEnd : P .endToEnd)
    (glossary : P .glossary) : P scope := by
  cases scope with
  | endToEnd => exact endToEnd
  | glossary => exact glossary
  | _ => exact sides _ (List.cons_ne_nil _ _)

namespace Graph

variable (g : Graph) (side : Side) (label : EdgeLabel) (q : Vertex)

/-- The response ids that one side of a vertex adds to an answer. -/
def sideIds : Set String :=
  {id | (g.frontier side label q).Nontrivial
      ∧ id ∈ {q.responseId, side.sentinel} ∪ Vertex.responseId '' g.frontier side label q
    ∨ ¬ (g.frontier side label q).Nontrivial
      ∧ id ∈ Vertex.responseId '' g.lineage side label q}

/-- The edges that one side of a vertex adds to an answer. -/
def sideEdges : Set ResponseEdge :=
  {e | (g.frontier side label q).Nontrivial ∧ e ∈ g.condensedEdges side label q
    ∨ ¬ (g.frontier side label q).Nontrivial ∧ e ∈ g.lineageEdges side label q}

/-- The response ids in the answer to a query. -/
def answerIds : Scope → Set String
  | .endToEnd => Vertex.responseId '' g.lineage .source label q
      ∪ Vertex.responseId '' g.lineage .destination label q
  | .glossary => g.glossaryIds q
  | scope => ⋃ side ∈ scope.sides, g.sideIds side label q

/-- The edges in the answer to a query. -/
def answerEdges : Scope → Set ResponseEdge
  | .endToEnd => g.lineageEdges .source label q ∪ g.lineageEdges .destination label q
  | .glossary => g.glossaryEdges q
  | scope => ⋃ side ∈ scope.sides, g.sideEdges side label q

variable {g side label q}

theorem answerIds_of_sides {scope : Scope} (hscope : scope.sides ≠ []) :
    g.answerIds label q scope = ⋃ side ∈ scope.sides, g.sideIds side label q := by
  cases scope <;> first | rfl | exact absurd rfl hscope

theorem answerEdges_of_sides {scope : Scope} (hscope : scope.sides ≠ []) :
    g.answerEdges label q scope = ⋃ side ∈ scope.sides, g.sideEdges side label q := by
  cases scope <;> first | rfl | exact absurd rfl hscope

theorem sideIds_of_nontrivial (hT : (g.frontier side label q).Nontrivial) :
    g.sideIds side label q
      = {q.responseId, side.sentinel} ∪ Vertex.responseId '' g.frontier side label q := by
  ext id
  simp only [sideIds, Set.mem_ofPred_eq, hT, not_true_eq_false, false_and, true_and, or_false]

theorem sideEdges_of_nontrivial (hT : (g.frontier side label q).Nontrivial) :
    g.sideEdges side label q = g.condensedEdges side label q := by
  ext e
  simp only [sideEdges, Set.mem_ofPred_eq, hT, not_true_eq_false, false_and, true_and, or_false]

theorem sideIds_of_not_nontrivial (hT : ¬ (g.frontier side label q).Nontrivial) :
    g.sideIds side label q = Vertex.responseId '' g.lineage side label q := by
  ext id
  simp only [sideIds, Set.mem_ofPred_eq, hT, not_false_eq_true, false_and, true_and, false_or]

theorem sideEdges_of_not_nontrivial (hT : ¬ (g.frontier side label q).Nontrivial) :
    g.sideEdges side label q = g.lineageEdges side label q := by
  ext e
  simp only [sideEdges, Set.mem_ofPred_eq, hT, not_false_eq_true, false_and, true_and, false_or]

theorem responseId_mem_sideIds (hq : q ∈ allVertices g) :
    q.responseId ∈ g.sideIds side label q := by
  by_cases hT : (g.frontier side label q).Nontrivial
  · exact .inl ⟨hT, .inl (.inl rfl)⟩
  · exact .inr ⟨hT, q, mem_lineage_self hq, rfl⟩

theorem responseId_mem_answerIds (hq : q ∈ allVertices g) (scope : Scope) :
    q.responseId ∈ g.answerIds label q scope := by
  cases scope using Scope.casesOnSides with
  | sides scope hscope =>
    obtain ⟨side, hside⟩ := List.exists_mem_of_ne_nil _ hscope
    rw [answerIds_of_sides hscope]
    exact Set.mem_biUnion hside (responseId_mem_sideIds hq)
  | endToEnd => exact .inl ⟨q, mem_lineage_self hq, rfl⟩
  | glossary => exact .inl ⟨q, mem_terms_self hq, rfl⟩

/-- From a vertex of the frontier nothing leads on. -/
theorem lineage_eq_singleton (hq : q ∈ g.frontier side label q) (hg : g.Coherent) :
    g.lineage side label q = {q} := by
  refine Set.Subset.antisymm (fun v ⟨hv, hpath⟩ => ?_) (Set.singleton_subset_iff.2 hq.1)
  rcases hpath.cases_head with hid | ⟨y, hstep, -⟩
  · exact hg.eq_of_vertex_id hv hq.1.1 hid.symm
  · exact absurd hstep (hq.2 y)

theorem lineageEdges_eq_empty (hq : q ∈ g.frontier side label q) (hg : g.Coherent) :
    g.lineageEdges side label q = ∅ := by
  refine Set.eq_empty_of_forall_notMem fun f ⟨u, hu, v, _, hstep, _⟩ => ?_
  rw [lineage_eq_singleton hq hg, Set.mem_singleton_iff] at hu
  exact hq.2 _ (hu ▸ hstep)

/-- On each side an answer shows no stored vertex but those of the lineage. -/
theorem mem_lineage_of_mem_sideIds (hq : q ∈ allVertices g) {id : String}
    (hid : id ∈ g.sideIds side label q) (hne : id ≠ side.sentinel) :
    id ∈ Vertex.responseId '' g.lineage side label q := by
  rcases hid with ⟨-, (rfl | rfl) | hfrontier⟩ | ⟨-, hlineage⟩
  · exact ⟨q, mem_lineage_self hq, rfl⟩
  · exact absurd rfl hne
  · exact Set.image_mono (fun t ht => ht.1) hfrontier
  · exact hlineage

end Graph

/-! ## Side by side -/

section Sides

variable {g : Graph} {scope : Scope} {text : String} {label : EdgeLabel} {q : Vertex}

theorem exists_addSide {side : Side} {b : Builder} {ids : Set String} {edges : Set ResponseEdge}
    (hg : g.WellFormed) (hq : q ∈ allVertices g) (hT : (g.frontier side label q).Nonempty)
    (hb : b.Shows g ids edges) (hid : q.responseId ∈ ids) :
    ∃ b', addSide g scope text label q side b = .ok b'
      ∧ b'.Shows g (ids ∪ g.sideIds side label q) (edges ∪ g.sideEdges side label q) := by
  obtain ⟨t, ht⟩ := hT
  rcases Set.eq_singleton_or_nontrivial ht with hT | hT
  · have hone : ¬ (g.frontier side label q).Nontrivial := hT ▸ Set.not_nontrivial_singleton
    rw [Graph.sideIds_of_not_nontrivial hone, Graph.sideEdges_of_not_nontrivial hone]
    by_cases htq : t = q
    · -- the queried vertex is its own frontier: nothing is added, and nothing lies beyond it
      subst htq
      refine ⟨b, addSide_of_frontier_eq_self hg hq hT, ?_⟩
      rw [Graph.lineage_eq_singleton ht hg.toCoherent, Graph.lineageEdges_eq_empty ht hg.toCoherent,
        Set.image_singleton, Set.union_empty, Set.union_singleton, Set.insert_eq_of_mem hid]
      exact hb
    · exact exists_addSide_of_frontier_eq_singleton hg hq htq hT hb
  · rw [Graph.sideIds_of_nontrivial hT, Graph.sideEdges_of_nontrivial hT]
    exact exists_addSide_of_frontier_nontrivial hg hq hT hb

theorem exists_addSides (hg : g.WellFormed) (hq : q ∈ allVertices g) {sides : List Side}
    {b : Builder} {ids : Set String} {edges : Set ResponseEdge} (hb : b.Shows g ids edges)
    (hid : q.responseId ∈ ids) (hT : ∀ side ∈ sides, (g.frontier side label q).Nonempty) :
    ∃ b', sides.foldlM (fun b side => addSide g scope text label q side b) b = .ok b'
      ∧ b'.Shows g (ids ∪ ⋃ side ∈ sides, g.sideIds side label q)
        (edges ∪ ⋃ side ∈ sides, g.sideEdges side label q) :=
  hb.exists_foldlM sides fun side hside _ _ _ hids hb =>
    exists_addSide hg hq (hT side hside) hb (hids hid)

/-- The first side without a frontier ends the query. -/
theorem addSides_of_frontier_eq_empty (hg : g.WellFormed) (hq : q ∈ allVertices g) :
    ∀ (sides : List Side) {b : Builder} {ids : Set String} {edges : Set ResponseEdge},
      b.Shows g ids edges → q.responseId ∈ ids →
      (∃ side ∈ sides, g.frontier side label q = ∅) →
      sides.foldlM (fun b side => addSide g scope text label q side b) b
        = .error (.cycle scope text)
  | [], _, _, _, _, _, ⟨_, hside, _⟩ => nomatch hside
  | side :: sides, b, ids, edges, hb, hid, hT => by
    rcases Set.eq_empty_or_nonempty (g.frontier side label q) with hempty | hsome
    · rw [List.foldlM_cons, addSide_of_frontier_eq_empty hg hq hempty]
      rfl
    · obtain ⟨b₁, hadd, h₁⟩ := exists_addSide hg hq hsome hb hid
      refine (bind_of_ok hadd _).trans
        (addSides_of_frontier_eq_empty hg hq sides h₁ (.inl hid) ?_)
      obtain ⟨side', hside, hT⟩ := hT
      rcases List.mem_cons.1 hside with rfl | hside
      · exact absurd hT hsome.ne_empty
      · exact ⟨side', hside, hT⟩

/-! ## Answers -/

variable {w : Whitelist} {graph : GraphName} {view : View}

theorem answer_of_findNode? (hq : findNode? g text = some q) :
    answer g w graph scope view text
      = (assemble g scope view text q (.empty w)).map Builder.finish := by
  rw [answer, hq]
  rfl

theorem assemble_eq_foldlM (hscope : scope.sides ≠ []) (b : Builder) :
    assemble g scope view text q b
      = scope.sides.foldlM (fun b side => addSide g scope text view.edgeLabel q side b)
        (b.addVertex q).2 := by
  cases scope with
  | ultimateSource => exact (bind_pure _).symm
  | ultimateDestination => exact (bind_pure _).symm
  | sourceAndDestination => exact bind_congr fun b' => (bind_pure _).symm
  | endToEnd => exact absurd rfl hscope
  | glossary => exact absurd rfl hscope

theorem exists_addReach (side : Side) (label : EdgeLabel) {b : Builder} {ids : Set String}
    {edges : Set ResponseEdge} (hg : g.WellFormed) (hq : q ∈ allVertices g)
    (hb : b.Shows g ids edges) :
    ∃ b', addReach g q side.direction label b = .ok b'
      ∧ b'.Shows g (ids ∪ Vertex.responseId '' g.lineage side label q)
        (edges ∪ g.lineageEdges side label q) := by
  obtain ⟨r, hr, h⟩ := Reach.exists_reach hg hq side.direction label.name
  obtain ⟨b', hadd, hshows⟩ := h.exists_shown hg hb
  exact ⟨b', (bind_of_ok hr _).trans hadd, hshows⟩

theorem exists_assemble (w : Whitelist) (text : String) (hg : g.WellFormed)
    (hq : q ∈ allVertices g)
    (hT : ∀ side ∈ scope.sides, (g.frontier side view.edgeLabel q).Nonempty) :
    ∃ b, assemble g scope view text q (.empty w) = .ok b
      ∧ b.Shows g (g.answerIds view.edgeLabel q scope) (g.answerEdges view.edgeLabel q scope) := by
  have hqueried := Builder.shows_addVertex_empty w hg.toCoherent hq
  suffices h : ∃ b, assemble g scope view text q (.empty w) = .ok b
      ∧ b.Shows g ({q.responseId} ∪ g.answerIds view.edgeLabel q scope)
        (∅ ∪ g.answerEdges view.edgeLabel q scope) by
    rwa [Set.singleton_union, Set.insert_eq_of_mem (Graph.responseId_mem_answerIds hq scope),
      Set.empty_union] at h
  cases scope using Scope.casesOnSides with
  | sides scope hscope =>
    rw [assemble_eq_foldlM hscope, Graph.answerIds_of_sides hscope,
      Graph.answerEdges_of_sides hscope]
    exact exists_addSides hg hq hqueried rfl hT
  | endToEnd =>
    obtain ⟨b₁, hsource, h₁⟩ := exists_addReach .source view.edgeLabel hg hq hqueried
    obtain ⟨b₂, hdestination, h₂⟩ := exists_addReach .destination view.edgeLabel hg hq h₁
    rw [Set.union_assoc, Set.union_assoc] at h₂
    exact ⟨b₂, (bind_of_ok (lift_of_ok hsource) _).trans (lift_of_ok hdestination), h₂⟩
  | glossary =>
    obtain ⟨b, hadd, h⟩ := exists_addGlossary hg hq hqueried
    exact ⟨b, lift_of_ok hadd, h⟩

theorem exists_answer (w : Whitelist) (graph : GraphName) (hg : g.WellFormed)
    (hq : findNode? g text = some q)
    (hT : ∀ side ∈ scope.sides, (g.frontier side view.edgeLabel q).Nonempty) :
    ∃ r, answer g w graph scope view text = .ok r
      ∧ r.Shows (g.answerIds view.edgeLabel q scope) (g.answerEdges view.edgeLabel q scope) := by
  obtain ⟨b, hb, hshows⟩ := exists_assemble w text hg (hg.mem_of_findNode? hq) hT
  exact ⟨b.finish, by rw [answer_of_findNode? hq, hb]; rfl, hshows.finish⟩

theorem answer_of_frontier_eq_empty_of_mem (hg : g.WellFormed) (hq : findNode? g text = some q)
    (hT : ∃ side ∈ scope.sides, g.frontier side view.edgeLabel q = ∅) :
    answer g w graph scope view text = .error (.cycle scope text) := by
  have hmem := hg.mem_of_findNode? hq
  have hscope : scope.sides ≠ [] := List.ne_nil_of_mem hT.choose_spec.1
  rw [answer_of_findNode? hq, assemble_eq_foldlM hscope,
    addSides_of_frontier_eq_empty hg hmem scope.sides
      (Builder.shows_addVertex_empty w hg.toCoherent hmem) rfl hT]
  rfl

/-- A query is answered unless the vertex is not found or a side asked for is without a frontier. -/
theorem exists_answer_iff (hg : g.WellFormed) :
    (∃ r, answer g w graph scope view text = .ok r) ↔ ∃ q, findNode? g text = some q
      ∧ ∀ side ∈ scope.sides, (g.frontier side view.edgeLabel q).Nonempty := by
  constructor
  · rintro ⟨r, hr⟩
    cases hq : findNode? g text with
    | none =>
      rw [answer, hq] at hr
      cases hr
    | some q =>
      refine ⟨q, rfl, fun side hside => Set.nonempty_iff_ne_empty.2 fun hT => ?_⟩
      rw [answer_of_frontier_eq_empty_of_mem hg hq ⟨side, hside, hT⟩] at hr
      cases hr
  · rintro ⟨q, hq, hT⟩
    obtain ⟨r, hr, -⟩ := exists_answer w graph hg hq hT
    exact ⟨r, hr⟩

theorem shows_of_answer (hg : g.WellFormed) {r : Response}
    (hr : answer g w graph scope view text = .ok r) : ∃ q, findNode? g text = some q
      ∧ r.Shows (g.answerIds view.edgeLabel q scope) (g.answerEdges view.edgeLabel q scope) := by
  obtain ⟨q, hq, hT⟩ := (exists_answer_iff hg).1 ⟨r, hr⟩
  obtain ⟨r', hr', hshows⟩ := exists_answer w graph hg hq hT
  rw [hr] at hr'
  obtain rfl := Except.ok.inj hr'
  exact ⟨q, hq, hshows⟩

theorem exists_answer_both_iff (hg : g.WellFormed) :
    (∃ r, answer g w graph .sourceAndDestination view text = .ok r)
      ↔ (∃ r, answer g w graph .ultimateSource view text = .ok r)
        ∧ ∃ r, answer g w graph .ultimateDestination view text = .ok r := by
  rw [exists_answer_iff hg, exists_answer_iff hg, exists_answer_iff hg]
  simp only [Scope.sides, List.forall_mem_cons, List.not_mem_nil, false_implies, implies_true,
    and_true]
  constructor
  · rintro ⟨q, hq, hsource, hdestination⟩
    exact ⟨⟨q, hq, hsource⟩, q, hq, hdestination⟩
  · rintro ⟨⟨q, hq, hsource⟩, q', hq', hdestination⟩
    obtain rfl := Option.some.inj (hq.symm.trans hq')
    exact ⟨q, hq, hsource, hdestination⟩

theorem answer_both_union (hg : g.WellFormed) {both up down : Response}
    (hboth : answer g w graph .sourceAndDestination view text = .ok both)
    (hup : answer g w graph .ultimateSource view text = .ok up)
    (hdown : answer g w graph .ultimateDestination view text = .ok down) :
    (∀ id, id ∈ both.vertexIds ↔ id ∈ up.vertexIds ∨ id ∈ down.vertexIds)
      ∧ ∀ e, e ∈ both.edges ↔ e ∈ up.edges ∨ e ∈ down.edges := by
  obtain ⟨q, hq, hboth⟩ := shows_of_answer hg hboth
  obtain ⟨q₁, hq₁, hup⟩ := shows_of_answer hg hup
  obtain ⟨q₂, hq₂, hdown⟩ := shows_of_answer hg hdown
  obtain rfl := Option.some.inj (hq.symm.trans hq₁)
  obtain rfl := Option.some.inj (hq.symm.trans hq₂)
  simp only [hboth.vertexIds, hup.vertexIds, hdown.vertexIds, hboth.edges, hup.edges, hdown.edges,
    Graph.answerIds, Graph.answerEdges, Scope.sides, Set.mem_iUnion, List.mem_cons,
    List.not_mem_nil, or_false, exists_prop, exists_eq_or_imp, exists_eq_left, implies_true,
    and_self]

end Sides

/-- The edges that condensation puts into the answer to a query. -/
def Query.condensation (g : Graph) (scope : Scope) (view : View) (text : String) :
    Set ResponseEdge :=
  {e | ∃ q, findNode? g text = some q ∧ ∃ side ∈ scope.sides,
    (g.frontier side view.edgeLabel q).Nontrivial ∧ e ∈ g.condensedEdges side view.edgeLabel q}

/-- All of an answer that is not condensed is shown end to end as well. -/
theorem exists_answer_endToEnd_of_answer {g : Graph} {w : Whitelist} {graph : GraphName}
    {scope : Scope} {view : View} {text : String} (hg : g.WellFormed) (hscope : scope.sides ≠ [])
    {r : Response} (hr : answer g w graph scope view text = .ok r) :
    ∃ whole, answer g w graph .endToEnd view text = .ok whole
      ∧ (∀ id ∈ r.vertexIds, id ≠ Side.source.sentinel → id ≠ Side.destination.sentinel →
        id ∈ whole.vertexIds)
      ∧ ∀ e ∈ r.edges, e ∉ condensation g scope view text → e ∈ whole.edges := by
  obtain ⟨q, hq, hshows⟩ := shows_of_answer hg hr
  rw [Graph.answerIds_of_sides hscope, Graph.answerEdges_of_sides hscope] at hshows
  have hqueried := hg.mem_of_findNode? hq
  have hwhole : ∀ side ∈ Scope.endToEnd.sides, (g.frontier side view.edgeLabel q).Nonempty :=
    List.forall_mem_nil _
  obtain ⟨whole, hwhole, hall⟩ := exists_answer w graph hg hq hwhole
  refine ⟨whole, hwhole, fun id hid hsource hdestination => ?_, fun e he hadded => ?_⟩
  · obtain ⟨side, -, hside⟩ := Set.mem_iUnion₂.1 ((hshows.vertexIds id).1 hid)
    rw [hall.vertexIds]
    cases side with
    | source => exact .inl (Graph.mem_lineage_of_mem_sideIds hqueried hside hsource)
    | destination => exact .inr (Graph.mem_lineage_of_mem_sideIds hqueried hside hdestination)
  · obtain ⟨side, hside, ⟨hT, hcondensed⟩ | ⟨-, hlineage⟩⟩ :=
      Set.mem_iUnion₂.1 ((hshows.edges e).1 he)
    · exact absurd ⟨q, hq, side, hside, hT, hcondensed⟩ hadded
    · rw [hall.edges]
      cases side with
      | source => exact .inl hlineage
      | destination => exact .inr hlineage

/-- How the answers to one question in several scopes fit together. -/
structure Query.ScopesCompose (g : Graph) (w : Whitelist) (graph : GraphName) (view : View)
    (text : String) : Prop where
  succeeds : (∃ r, answer g w graph .sourceAndDestination view text = .ok r)
    ↔ (∃ r, answer g w graph .ultimateSource view text = .ok r)
      ∧ ∃ r, answer g w graph .ultimateDestination view text = .ok r
  union : ∀ both up down, answer g w graph .sourceAndDestination view text = .ok both →
    answer g w graph .ultimateSource view text = .ok up →
    answer g w graph .ultimateDestination view text = .ok down →
    (∀ id, id ∈ both.vertexIds ↔ id ∈ up.vertexIds ∨ id ∈ down.vertexIds)
    ∧ ∀ e, e ∈ both.edges ↔ e ∈ up.edges ∨ e ∈ down.edges
  within : ∀ scope ∈ [Scope.ultimateSource, .ultimateDestination, .sourceAndDestination], ∀ r,
    answer g w graph scope view text = .ok r →
    ∃ whole, answer g w graph .endToEnd view text = .ok whole
      ∧ (∀ id ∈ r.vertexIds, id ≠ Side.source.sentinel → id ≠ Side.destination.sentinel →
        id ∈ whole.vertexIds)
      ∧ ∀ e ∈ r.edges, e ∉ condensation g scope view text → e ∈ whole.edges

/-- Whatever the history of a graph, the sides of an answer are put together from either, and
neither goes beyond what there is end to end. -/
theorem scopes_compose (name : String) (history : List Episode) (w : Whitelist)
    (graph : GraphName) (view : View) (text : String) :
    ScopesCompose ((Graph.empty name).after history) w graph view text := by
  have hg := wellFormed_after_empty name history
  refine ⟨exists_answer_both_iff hg, fun both up down => answer_both_union hg,
    fun scope hscope r hr => exists_answer_endToEnd_of_answer hg ?_ hr⟩
  rcases hscope with _ | ⟨_, _ | ⟨_, _ | ⟨_, hscope⟩⟩⟩
  · decide
  · decide
  · decide
  · cases hscope

/-- Two columns feed `c`, which feeds `d`: above `c` the two are condensed, below it `d` is shown
as it is. -/
def sampleFork : List Episode :=
  [⟨(["a", "b", "c", "d"].map fun n => .addVertex "Column" (ExtTreeMap.ofList [(Key.nodeId, n)]))
    ++ ([(0, 2), (1, 2), (2, 3)].map fun (s, t) => .addEdge "ColumnAndProcess" s t ∅), .commit⟩]

example : (answer ((Graph.empty "main").after sampleFork) .standard .main .sourceAndDestination
    .column "c").toOption.map Response.vertexIds
      = some ["a", "b", "c", "condensedSource", "d"] := by
  decide +kernel

end Lineage
