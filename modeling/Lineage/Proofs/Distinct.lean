import Lineage.Proofs.Filing

/-!
# Answers told by response ids

Where response ids tell the vertices of a graph apart (`Graph.Distinct`), what a relation between
vertices leads to can be told by them alone (`Distinct.image_reached`). So the answer to a query
depends on nothing but the response id of the queried vertex, how edges of each label run between
response ids (`Graph.Seen`) and how a vertex is shown under its own (`Query.answer_congr`).
-/

namespace Lineage

open Std Query
open Relation (ReflTransGen)

namespace Graph

/-- Response ids tell the vertices apart. -/
def Distinct (g : Graph) : Prop :=
  Set.InjOn Vertex.responseId {v | v ∈ allVertices g}

/-- How a relation between vertices looks by their response ids. -/
def Seen (g : Graph) (R : VertexId → VertexId → Prop) (a b : String) : Prop :=
  ∃ u ∈ allVertices g, ∃ v ∈ allVertices g, R u.id v.id ∧ u.responseId = a ∧ v.responseId = b

/-- What is related are vertices of the graph. -/
def Bounds (g : Graph) (R : VertexId → VertexId → Prop) : Prop :=
  ∀ x y, R x y → (∃ u ∈ allVertices g, u.id = x) ∧ ∃ v ∈ allVertices g, v.id = y

section Relations

variable {g : Graph}

theorem WellFormed.bounds_joined (h : g.WellFormed) (label : EdgeLabel) :
    g.Bounds (g.Joined label) := by
  rintro x y ⟨e, he, rfl, -, rfl⟩
  exact ⟨h.exists_source he, h.exists_target he⟩

theorem WellFormed.bounds_farther (h : g.WellFormed) (side : Side) (label : EdgeLabel) :
    g.Bounds (g.Farther side label) := by
  cases side with
  | source => exact fun x y hxy => (h.bounds_joined label y x hxy).symm
  | destination => exact h.bounds_joined label

theorem WellFormed.bounds_akin (h : g.WellFormed) : g.Bounds g.Akin := by
  rintro x y (hxy | hyx)
  · exact h.bounds_joined .synonym x y hxy
  · exact (h.bounds_joined .synonym y x hyx).symm

theorem seen_farther_source (g : Graph) (label : EdgeLabel) :
    g.Seen (g.Farther .source label) = fun a b => g.Seen (g.Joined label) b a := by
  funext a b
  exact propext ⟨fun ⟨u, hu, v, hv, hR, ha, hb⟩ => ⟨v, hv, u, hu, hR, hb, ha⟩,
    fun ⟨u, hu, v, hv, hR, hb, ha⟩ => ⟨v, hv, u, hu, hR, ha, hb⟩⟩

theorem seen_akin (g : Graph) : g.Seen g.Akin
    = fun a b => g.Seen (g.Joined .synonym) a b ∨ g.Seen (g.Joined .synonym) b a := by
  funext a b
  refine propext ⟨?_, ?_⟩
  · rintro ⟨u, hu, v, hv, hR | hR, ha, hb⟩
    · exact .inl ⟨u, hu, v, hv, hR, ha, hb⟩
    · exact .inr ⟨v, hv, u, hu, hR, hb, ha⟩
  · rintro (⟨u, hu, v, hv, hR, ha, hb⟩ | ⟨v, hv, u, hu, hR, hb, ha⟩)
    · exact ⟨u, hu, v, hv, .inl hR, ha, hb⟩
    · exact ⟨u, hu, v, hv, .inr hR, ha, hb⟩

end Relations

namespace Distinct

variable {g : Graph} {R : VertexId → VertexId → Prop} {q u v : Vertex} {side : Side}
  {label : EdgeLabel}

theorem seen_iff (h : g.Distinct) (hu : u ∈ allVertices g) (hv : v ∈ allVertices g) :
    g.Seen R u.responseId v.responseId ↔ R u.id v.id := by
  refine ⟨?_, fun hR => ⟨u, hu, v, hv, hR, rfl, rfl⟩⟩
  rintro ⟨u', hu', v', hv', hR, ha, hb⟩
  rwa [← h hu' hu ha, ← h hv' hv hb]

/-- A walk can be followed by response ids. -/
theorem image_reached (h : g.Distinct) (hg : g.Coherent) (hR : g.Bounds R)
    (hq : q ∈ allVertices g) :
    Vertex.responseId '' {v | v ∈ allVertices g ∧ ReflTransGen R q.id v.id}
      = {id | ReflTransGen (g.Seen R) q.responseId id} := by
  ext id
  constructor
  · rintro ⟨v, ⟨hv, hpath⟩, rfl⟩
    -- over the walk, for every vertex under the number it has come to
    obtain ⟨y, hy⟩ : ∃ y, y = v.id := ⟨_, rfl⟩
    rw [← hy] at hpath
    induction hpath generalizing v with
    | refl =>
      rw [hg.eq_of_vertex_id hv hq hy.symm]
      exact .refl
    | tail _ hstep ih =>
      obtain ⟨u, hu, rfl⟩ := (hR _ _ hstep).1
      exact (ih u hu rfl).tail ⟨u, hu, v, hv, hy ▸ hstep, rfl, rfl⟩
  · intro hpath
    induction hpath with
    | refl => exact ⟨q, ⟨hq, .refl⟩, rfl⟩
    | tail _ hstep ih =>
      obtain ⟨v, ⟨hv, hpath⟩, rfl⟩ := ih
      obtain ⟨v', hv', u, hu, hR, heq, rfl⟩ := hstep
      obtain rfl := h hv' hv heq
      exact ⟨u, ⟨hu, hpath.tail hR⟩, rfl⟩

theorem image_lineage (h : g.Distinct) (hg : g.WellFormed) (hq : q ∈ allVertices g) :
    Vertex.responseId '' g.lineage side label q
      = {id | ReflTransGen (g.Seen (g.Farther side label)) q.responseId id} :=
  h.image_reached hg.toCoherent (hg.bounds_farther side label) hq

theorem image_terms (h : g.Distinct) (hg : g.WellFormed) (hq : q ∈ allVertices g) :
    Vertex.responseId '' g.terms q = {id | ReflTransGen (g.Seen g.Akin) q.responseId id} :=
  h.image_reached hg.toCoherent hg.bounds_akin hq

theorem image_frontier (h : g.Distinct) (hg : g.WellFormed) (hq : q ∈ allVertices g) :
    Vertex.responseId '' g.frontier side label q
      = {id | ReflTransGen (g.Seen (g.Farther side label)) q.responseId id
        ∧ ∀ b, ¬ g.Seen (g.Farther side label) id b} := by
  ext id
  rw [Set.mem_ofPred_eq, ← Set.mem_ofPred_eq (p := ReflTransGen _ _), ← h.image_lineage hg hq]
  constructor
  · rintro ⟨t, ⟨ht, hlast⟩, rfl⟩
    refine ⟨⟨t, ht, rfl⟩, ?_⟩
    rintro b ⟨u, hu, v, -, hR, heq, -⟩
    obtain rfl := h hu ht.1 heq
    exact hlast _ hR
  · rintro ⟨⟨t, ht, rfl⟩, hlast⟩
    refine ⟨t, ⟨ht, fun y hy => ?_⟩, rfl⟩
    obtain ⟨v, hv, rfl⟩ := (hg.bounds_farther side label _ _ hy).2
    exact hlast _ ((h.seen_iff ht.1 hv).2 hy)

theorem nontrivial_frontier_iff (h : g.Distinct) :
    (g.frontier side label q).Nontrivial
      ↔ (Vertex.responseId '' g.frontier side label q).Nontrivial :=
  (Set.InjOn.image_nontrivial_iff (h.mono fun _ ht => ht.1.1)).symm

theorem lineageEdges_eq (h : g.Distinct) : g.lineageEdges side label q
    = {f | ∃ a ∈ Vertex.responseId '' g.lineage side label q, ∃ b,
      g.Seen (g.Farther side label) a b ∧ f = side.edge label.name a b} := by
  ext f
  constructor
  · rintro ⟨u, hu, v, hv, hR, rfl⟩
    exact ⟨_, ⟨u, hu, rfl⟩, _, ⟨u, hu.1, v, hv, hR, rfl, rfl⟩, rfl⟩
  · rintro ⟨_, ⟨u, hu, rfl⟩, _, ⟨u', hu', v, hv, hR, heq, rfl⟩, rfl⟩
    obtain rfl := h hu' hu.1 heq
    exact ⟨u', hu, v, hv, hR, rfl⟩

theorem termEdges_eq (h : g.Distinct) : g.termEdges q
    = {f | ∃ a ∈ Vertex.responseId '' g.terms q, ∃ b ∈ Vertex.responseId '' g.terms q,
      g.Seen (g.Joined .synonym) a b ∧ f = ⟨EdgeLabel.synonym.name, a, b⟩} := by
  ext f
  constructor
  · rintro ⟨u, hu, v, hv, hR, rfl⟩
    exact ⟨_, ⟨u, hu, rfl⟩, _, ⟨v, hv, rfl⟩, (h.seen_iff hu.1 hv.1).2 hR, rfl⟩
  · rintro ⟨_, ⟨u, hu, rfl⟩, _, ⟨v, hv, rfl⟩, hR, rfl⟩
    exact ⟨u, hu, v, hv, (h.seen_iff hu.1 hv.1).1 hR, rfl⟩

theorem image_assets (h : g.Distinct) (hv : v ∈ allVertices g) :
    Vertex.responseId '' g.assets v = {a | g.Seen (g.Joined .semantic) a v.responseId} := by
  ext a
  constructor
  · rintro ⟨u, ⟨hu, hR⟩, rfl⟩
    exact (h.seen_iff hu hv).2 hR
  · rintro ⟨u, hu, v', hv', hR, rfl, heq⟩
    obtain rfl := h hv' hv heq
    exact ⟨u, ⟨hu, hR⟩, rfl⟩

theorem glossaryIds_eq (h : g.Distinct) : g.glossaryIds q = Vertex.responseId '' g.terms q
    ∪ ⋃ t ∈ Vertex.responseId '' g.terms q, {a | g.Seen (g.Joined .semantic) a t} := by
  rw [glossaryIds, Set.biUnion_image]
  exact congrArg _ (Set.iUnion₂_congr fun term hterm => h.image_assets hterm.1)

theorem glossaryEdges_eq (h : g.Distinct) : g.glossaryEdges q
    = {f | ∃ a ∈ Vertex.responseId '' g.terms q, ∃ b ∈ Vertex.responseId '' g.terms q,
        g.Seen (g.Joined .synonym) a b ∧ f = ⟨EdgeLabel.synonym.name, a, b⟩}
      ∪ ⋃ t ∈ Vertex.responseId '' g.terms q,
        (fun a => ⟨EdgeLabel.semantic.name, a, t⟩) '' {a | g.Seen (g.Joined .semantic) a t} := by
  rw [glossaryEdges, h.termEdges_eq, Set.biUnion_image]
  refine congrArg _ (Set.iUnion₂_congr fun term hterm => ?_)
  rw [assignments, ← h.image_assets hterm.1, Set.image_image]

end Distinct

theorem condensedEdges_eq {g : Graph} {side : Side} {label : EdgeLabel} {q : Vertex} :
    g.condensedEdges side label q
      = {side.edge EdgeLabel.condensed.name q.responseId side.sentinel}
        ∪ (fun id => side.edge EdgeLabel.condensed.name side.sentinel id)
          '' (Vertex.responseId '' g.frontier side label q) := by
  rw [condensedEdges, Set.image_image]

/-! ## Two graphs -/

/-- Two vertices that look the same from without, each in a graph of its own. -/
structure Twins (g g' : Graph) (q q' : Vertex) : Prop where
  wellFormed : g.WellFormed
  wellFormed' : g'.WellFormed
  distinct : g.Distinct
  distinct' : g'.Distinct
  seen : ∀ label, g.Seen (g.Joined label) = g'.Seen (g'.Joined label)
  mem : q ∈ allVertices g
  mem' : q' ∈ allVertices g'
  responseId_eq : q.responseId = q'.responseId

namespace Twins

variable {g g' : Graph} {q q' : Vertex} {side : Side} {label : EdgeLabel}

theorem seen_farther (h : Twins g g' q q') (side : Side) (label : EdgeLabel) :
    g.Seen (g.Farther side label) = g'.Seen (g'.Farther side label) := by
  cases side with
  | source => rw [seen_farther_source, seen_farther_source, h.seen]
  | destination => exact h.seen label

theorem seen_akin (h : Twins g g' q q') : g.Seen g.Akin = g'.Seen g'.Akin := by
  rw [Graph.seen_akin, Graph.seen_akin, h.seen]

theorem lineage (h : Twins g g' q q') : Vertex.responseId '' g.lineage side label q
    = Vertex.responseId '' g'.lineage side label q' := by
  rw [h.distinct.image_lineage h.wellFormed h.mem, h.distinct'.image_lineage h.wellFormed' h.mem',
    h.seen_farther, h.responseId_eq]

theorem frontier (h : Twins g g' q q') : Vertex.responseId '' g.frontier side label q
    = Vertex.responseId '' g'.frontier side label q' := by
  rw [h.distinct.image_frontier h.wellFormed h.mem, h.distinct'.image_frontier h.wellFormed' h.mem',
    h.seen_farther, h.responseId_eq]

theorem terms (h : Twins g g' q q') :
    Vertex.responseId '' g.terms q = Vertex.responseId '' g'.terms q' := by
  rw [h.distinct.image_terms h.wellFormed h.mem, h.distinct'.image_terms h.wellFormed' h.mem',
    h.seen_akin, h.responseId_eq]

theorem nontrivial_frontier_iff (h : Twins g g' q q') :
    (g.frontier side label q).Nontrivial ↔ (g'.frontier side label q').Nontrivial := by
  rw [h.distinct.nontrivial_frontier_iff, h.distinct'.nontrivial_frontier_iff, h.frontier]

theorem frontier_eq_empty_iff (h : Twins g g' q q') :
    g.frontier side label q = ∅ ↔ g'.frontier side label q' = ∅ := by
  rw [← Set.image_eq_empty (f := Vertex.responseId), h.frontier, Set.image_eq_empty]

theorem lineageEdges (h : Twins g g' q q') :
    g.lineageEdges side label q = g'.lineageEdges side label q' := by
  rw [h.distinct.lineageEdges_eq, h.distinct'.lineageEdges_eq, h.lineage, h.seen_farther]

theorem condensedEdges (h : Twins g g' q q') :
    g.condensedEdges side label q = g'.condensedEdges side label q' := by
  rw [condensedEdges_eq, condensedEdges_eq, h.frontier, h.responseId_eq]

theorem glossaryIds (h : Twins g g' q q') : g.glossaryIds q = g'.glossaryIds q' := by
  rw [h.distinct.glossaryIds_eq, h.distinct'.glossaryIds_eq, h.terms, h.seen]

theorem glossaryEdges (h : Twins g g' q q') : g.glossaryEdges q = g'.glossaryEdges q' := by
  rw [h.distinct.glossaryEdges_eq, h.distinct'.glossaryEdges_eq, h.terms, h.seen, h.seen]

theorem sideIds (h : Twins g g' q q') : g.sideIds side label q = g'.sideIds side label q' := by
  simp only [Graph.sideIds, h.nontrivial_frontier_iff, h.frontier, h.lineage, h.responseId_eq]

theorem sideEdges (h : Twins g g' q q') :
    g.sideEdges side label q = g'.sideEdges side label q' := by
  simp only [Graph.sideEdges, h.nontrivial_frontier_iff, h.condensedEdges, h.lineageEdges]

theorem answerIds (h : Twins g g' q q') (scope : Scope) :
    g.answerIds label q scope = g'.answerIds label q' scope := by
  cases scope using Scope.casesOnSides with
  | sides scope hscope => simp only [answerIds_of_sides hscope, h.sideIds]
  | endToEnd => rw [Graph.answerIds, Graph.answerIds, h.lineage, h.lineage]
  | glossary => exact h.glossaryIds

theorem answerEdges (h : Twins g g' q q') (scope : Scope) :
    g.answerEdges label q scope = g'.answerEdges label q' scope := by
  cases scope using Scope.casesOnSides with
  | sides scope hscope => simp only [answerEdges_of_sides hscope, h.sideEdges]
  | endToEnd => rw [Graph.answerEdges, Graph.answerEdges, h.lineageEdges, h.lineageEdges]
  | glossary => exact h.glossaryEdges

end Twins

end Graph

/-- Vertices that look the same get the same answer, where a response id tells how a vertex is
shown. -/
theorem Query.answer_congr {g g' : Graph} {q q' : Vertex} (h : g.Twins g' q q') {w : Whitelist}
    {graph : GraphName} {scope : Scope} {view : View} {text : String}
    (hq : findNode? g text = some q) (hq' : findNode? g' text = some q')
    (hsame : ∀ v ∈ allVertices g, ∀ v' ∈ allVertices g', v.responseId = v'.responseId →
      v.abstract w = v'.abstract w) :
    answer g w graph scope view text = answer g' w graph scope view text := by
  by_cases hT : ∃ side ∈ scope.sides, g.frontier side view.edgeLabel q = ∅
  · rw [answer_of_frontier_eq_empty_of_mem h.wellFormed hq hT]
    simp only [h.frontier_eq_empty_iff] at hT
    rw [answer_of_frontier_eq_empty_of_mem h.wellFormed' hq' hT]
  · simp only [not_exists, not_and, ← ne_eq, ← Set.nonempty_iff_ne_empty] at hT
    obtain ⟨b, hb, hshows⟩ := exists_assemble w text h.wellFormed h.mem hT
    have hT' : ∀ side ∈ scope.sides, (g'.frontier side view.edgeLabel q').Nonempty := by
      simpa only [Set.nonempty_iff_ne_empty, ne_eq, h.frontier_eq_empty_iff] using hT
    obtain ⟨b', hb', hshows'⟩ := exists_assemble w text h.wellFormed' h.mem' hT'
    rw [h.answerIds, h.answerEdges] at hshows
    have hholds := (Builder.holds_empty g w).assemble h.wellFormed h.mem hb
    have hholds' := (Builder.holds_empty g' w).assemble h.wellFormed' h.mem' hb'
    simp only [h.nontrivial_frontier_iff] at hholds
    rw [answer_of_findNode? hq, answer_of_findNode? hq', hb, hb']
    exact congrArg Except.ok (Builder.finish_eq hshows hshows' hholds hholds' hsame)

end Lineage
