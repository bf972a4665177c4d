import Lineage.Proofs.Containers

/-!
# An expansion follows the shortest walks

The two rules for extending a walk leave different walks on a level. The shortest ones, which are as
long as their ends are far, are on it under either rule: what is next in distance is neither on the
walk nor met (`Expansion.Found.shortestOf_extensions`). The others do not count. Their ends have
been met on an earlier level (`Expansion.Found.meetEnd_of_not_isShortest`), and none of their
extensions is a shortest walk again (`Expansion.OnLevel.shortestOf_onward`). So an expansion meets
the ends of the shortest walks, level by level and in the order of the edges (`expandBy_eq_foldlM`),
which says nothing about the rule (`expandBy_simplePaths`).
-/

namespace Lineage

section Shortest

variable (g : Graph) (direction : Direction) (accepts : Edge → Bool) (start : VertexId)

/-- The walks one hop longer, those that lead back among them. -/
def Walk.onward (w : Walk) : List Walk :=
  ((incident g w.last direction).filter accepts).map fun e => w.extend (e.other w.last)

/-- A walk is as long as its end is far. -/
def Walk.IsShortest (w : Walk) : Prop :=
  AtDistance (g.Leads direction accepts) start w.depth w.last

open Classical in
/-- The shortest ones among some walks, in their order. -/
noncomputable def shortestOf (ws : List Walk) : List Walk :=
  ws.filter (Walk.IsShortest g direction accepts start)

/-- The shortest walks of a length, in the order of the edges they follow. -/
noncomputable def shortestWalks : ℕ → List Walk
  | 0 => [⟨start, []⟩]
  | n + 1 => shortestOf g direction accepts start
      ((shortestWalks n).flatMap (Walk.onward g direction accepts))

end Shortest

section

variable {g : Graph} {direction : Direction} {accepts : Edge → Bool} {start : VertexId} {w : Walk}
  {ws : List Walk}

theorem mem_shortestOf : w ∈ shortestOf g direction accepts start ws
    ↔ w ∈ ws ∧ w.IsShortest g direction accepts start := by
  simp [shortestOf]

theorem shortestOf_append (vs ws : List Walk) : shortestOf g direction accepts start (vs ++ ws)
    = shortestOf g direction accepts start vs ++ shortestOf g direction accepts start ws :=
  List.filter_append ..

theorem shortestOf_cons_of_isShortest (h : w.IsShortest g direction accepts start) :
    shortestOf g direction accepts start (w :: ws)
      = w :: shortestOf g direction accepts start ws := by
  simp [shortestOf, h]

theorem shortestOf_cons_of_not (h : ¬ w.IsShortest g direction accepts start) :
    shortestOf g direction accepts start (w :: ws) = shortestOf g direction accepts start ws := by
  simp [shortestOf, h]

end

namespace Expansion

variable {g : Graph} {rule : ExpansionRule} {start : VertexId} {n : ℕ} {met met' : List Reached}
  {w : Walk} {ws rest : List Walk}

theorem OnLevel.isShortest_iff (hw : OnLevel g rule start n met w) :
    w.IsShortest g rule.direction rule.accepts start ↔ AtDistance (rule.Hop g) start n w.last := by
  rw [Walk.IsShortest, hw.depth_eq]
  rfl

/-! ## Shortest walks are extended -/

/-- An extension that is left out leads to what has been met, so it is not a shortest walk. -/
theorem Found.eq_false_of_isShortest (h : Found g rule start n met)
    (hw : OnLevel g rule start n met w) (hlast : isMet met w.last = true) {x : VertexId}
    (hshort : (w.extend x).IsShortest g rule.direction rule.accepts start) :
    (if rule.simplePaths then w.vertices.contains x else isMet met x) = false := by
  have hfar : isMet met x ≠ true := by
    refine h.not_isMet ?_
    rw [← hw.depth_eq]
    exact hshort
  rw [Bool.eq_false_iff]
  intro hclosed
  split_ifs at hclosed
  · exact hfar (hw.isMet_of_mem hlast (List.contains_iff_mem.1 hclosed))
  · exact hfar hclosed

theorem Found.shortestOf_extensions (h : Found g rule start n met)
    (hw : OnLevel g rule start n met w) (hlast : isMet met w.last = true) :
    shortestOf g rule.direction rule.accepts start (extensions g rule met w)
      = shortestOf g rule.direction rule.accepts start
          (w.onward g rule.direction rule.accepts) := by
  rw [shortestOf, shortestOf, extensions, Walk.onward, List.filter_filterMap,
    ← List.filterMap_eq_map, List.filter_filterMap]
  refine List.filterMap_congr fun e _ => ?_
  by_cases hshort : (w.extend (e.other w.last)).IsShortest g rule.direction rule.accepts start
  · simp only [h.eq_false_of_isShortest hw hlast hshort]
    rfl
  · simp only [Function.comp_apply, apply_ite (Option.filter _), Option.filter_none,
      Option.filter_some, hshort, decide_false, Bool.false_eq_true, if_false, ite_self]

/-- What follows a walk that is not a shortest one is nearer than the next level. -/
theorem OnLevel.shortestOf_onward (hw : OnLevel g rule start n met w) (hg : g.Coherent)
    (hlong : ¬ w.IsShortest g rule.direction rule.accepts start) :
    shortestOf g rule.direction rule.accepts start (w.onward g rule.direction rule.accepts)
      = [] := by
  refine List.eq_nil_iff_forall_not_mem.2 fun w' hw' => ?_
  obtain ⟨honward, hshort⟩ := mem_shortestOf.1 hw'
  obtain ⟨e, he, rfl⟩ := List.mem_map.1 honward
  obtain ⟨hinc, haccepts⟩ := List.mem_filter.1 he
  obtain ⟨hmem, hleads⟩ := hg.mem_incident_iff.1 ⟨hinc, rfl⟩
  have hhop : rule.Hop g w.last (e.other w.last) := ⟨e, hmem, haccepts, hleads⟩
  obtain ⟨m, hm, hdist⟩ := hw.inSteps.exists_atDistance
  have hne : m ≠ n := by
    rintro rfl
    exact hlong (hw.isShortest_iff.2 hdist)
  obtain ⟨k, hk, hnext⟩ := hdist.exists_next hhop
  have hdepth : k = n + 1 := by
    rw [← hw.depth_eq]
    exact hnext.unique hshort
  omega

/-- The shortest walks of the next level extend those of this one. -/
theorem Found.shortestOf_visitLevel (hg : g.WellFormed) : ∀ (ws : List Walk)
    {met met' : List Reached} {rest : List Walk}, Found g rule start n met →
      (∀ w ∈ ws, OnLevel g rule start n met w) → visitLevel g rule true met ws = .ok (met', rest) →
        shortestOf g rule.direction rule.accepts start rest
          = shortestOf g rule.direction rule.accepts start
            ((shortestOf g rule.direction rule.accepts start ws).flatMap
              (Walk.onward g rule.direction rule.accepts))
  | [], met, met', rest, _, _, hvisit => by
    obtain ⟨-, rfl⟩ := Prod.mk.inj (Except.ok.inj hvisit)
    rfl
  | w :: ws, met, met', rest, h, hws, hvisit => by
    have hw := hws w List.mem_cons_self
    obtain ⟨met₁, hmeet, hprefix, h₁, hlast⟩ := h.exists_meetEnd hg hw
    have hw₁ := hw.mono hprefix
    rw [visitLevel, bind_of_ok hmeet] at hvisit
    obtain ⟨⟨met₂, rest₂⟩, hvisit₂, hrest⟩ := exists_of_bind_ok hvisit
    obtain ⟨-, rfl⟩ := Prod.mk.inj (Except.ok.inj hrest)
    have ih := shortestOf_visitLevel hg ws h₁
      (fun w' hw' => (hws w' (List.mem_cons_of_mem _ hw')).mono hprefix) hvisit₂
    rw [if_pos rfl, shortestOf_append, h₁.shortestOf_extensions hw₁ hlast, ih]
    by_cases hshort : w.IsShortest g rule.direction rule.accepts start
    · rw [shortestOf_cons_of_isShortest hshort, List.flatMap_cons, shortestOf_append]
    · rw [hw₁.shortestOf_onward hg.toCoherent hshort, shortestOf_cons_of_not hshort,
        List.nil_append]

/-! ## The ends of shortest walks are met -/

theorem Found.meetEnd_of_not_isShortest (h : Found g rule start n met)
    (hw : OnLevel g rule start n met w)
    (hlong : ¬ w.IsShortest g rule.direction rule.accepts start) :
    meetEnd g met w = .ok met := by
  obtain ⟨m, hm, hdist⟩ := hw.inSteps.exists_atDistance
  have hne : m ≠ n := by
    rintro rfl
    exact hlong (hw.isShortest_iff.2 hdist)
  exact if_pos (h.complete m (by omega) _ hdist)

theorem Found.foldlM_shortestOf (hg : g.WellFormed) : ∀ (ws : List Walk) {met : List Reached},
    Found g rule start n met → (∀ w ∈ ws, OnLevel g rule start n met w) →
      (shortestOf g rule.direction rule.accepts start ws).foldlM (meetEnd g) met
        = ws.foldlM (meetEnd g) met
  | [], _, _, _ => rfl
  | w :: ws, met, h, hws => by
    have hw := hws w List.mem_cons_self
    obtain ⟨met₁, hmeet, hprefix, h₁, -⟩ := h.exists_meetEnd hg hw
    have ih := foldlM_shortestOf hg ws h₁
      fun w' hw' => (hws w' (List.mem_cons_of_mem _ hw')).mono hprefix
    rw [List.foldlM_cons, bind_of_ok hmeet, ← ih]
    by_cases hshort : w.IsShortest g rule.direction rule.accepts start
    · rw [shortestOf_cons_of_isShortest hshort, List.foldlM_cons, bind_of_ok hmeet]
    · rw [shortestOf_cons_of_not hshort,
        Except.ok.inj (hmeet.symm.trans (h.meetEnd_of_not_isShortest hw hshort))]

/-- From a level on, an expansion meets the ends of the shortest walks of each length. -/
theorem Level.visitLevels_eq_foldlM (hg : g.WellFormed) : ∀ (hops : ℕ) {n : ℕ}
    {met : List Reached} {ws : List Walk}, Level g rule start n met ws →
      shortestOf g rule.direction rule.accepts start ws
        = shortestWalks g rule.direction rule.accepts start n →
      visitLevels g rule hops met ws
        = ((List.range' n (hops + 1)).flatMap
            (shortestWalks g rule.direction rule.accepts start)).foldlM (meetEnd g) met
  | 0, n, met, ws, h, hshort => by
    rw [visitLevels_zero, ← h.found.foldlM_shortestOf hg ws h.walks, hshort]
    simp
  | hops + 1, n, met, ws, h, hshort => by
    obtain ⟨met', rest, hvisit, hnext⟩ := h.exists_next hg
    have hmet : (shortestWalks g rule.direction rule.accepts start n).foldlM (meetEnd g) met
        = .ok met' := by
      rw [← hshort, h.found.foldlM_shortestOf hg ws h.walks, ← map_fst_visitLevel rule true, hvisit]
      rfl
    have hrest : shortestOf g rule.direction rule.accepts start rest
        = shortestWalks g rule.direction rule.accepts start (n + 1) := by
      rw [h.found.shortestOf_visitLevel hg ws h.walks hvisit, hshort, shortestWalks]
    rw [visitLevels_succ, bind_of_ok hvisit, visitLevels_eq_foldlM hg hops hnext hrest,
      List.range'_succ (n := hops + 1), List.flatMap_cons, List.foldlM_append, bind_of_ok hmet]

end Expansion

open Expansion

variable {g : Graph}

theorem meetEnd_of_vertex?_eq_none {start : VertexId} (h : vertex? g start = none) :
    meetEnd g [] ⟨start, []⟩ = .error (.vertexNotFound (graphName g) start) := by
  simp [meetEnd, isMet, requireVertex_of_none h, Except.map]

/-- From what is not a vertex nothing is met. -/
theorem expandBy_of_vertex?_eq_none (rule : ExpansionRule) {start : VertexId} (maxHops : ℕ)
    (h : vertex? g start = none) :
    expandBy g rule start maxHops = .error (.vertexNotFound (graphName g) start) := by
  cases maxHops with
  | zero =>
    rw [expandBy, visitLevels_zero, List.foldlM_cons, meetEnd_of_vertex?_eq_none h]
    rfl
  | succ hops =>
    rw [expandBy, visitLevels_succ, visitLevel, meetEnd_of_vertex?_eq_none h]
    rfl

/-- An expansion meets the ends of the shortest walks, of one length after the other. -/
theorem expandBy_eq_foldlM (hg : g.WellFormed) (rule : ExpansionRule) (start : VertexId)
    (maxHops : ℕ) : expandBy g rule start maxHops
      = ((List.range (maxHops + 1)).flatMap
          (shortestWalks g rule.direction rule.accepts start)).foldlM (meetEnd g) [] := by
  rw [List.range_eq_range']
  cases hstart : vertex? g start with
  | none =>
    rw [expandBy_of_vertex?_eq_none rule maxHops hstart, List.range'_succ, List.flatMap_cons,
      shortestWalks, List.singleton_append, List.foldlM_cons, meetEnd_of_vertex?_eq_none hstart]
    rfl
  | some v =>
    obtain ⟨hv, rfl⟩ := hg.toCoherent.vertex?_eq_some_iff.1 hstart
    have hshort : (⟨v.id, []⟩ : Walk).IsShortest g rule.direction rule.accepts v.id :=
      atDistance_self
    exact (level_start rule hv).visitLevels_eq_foldlM hg maxHops
      (shortestOf_cons_of_isShortest hshort)

/-- In a graph with any history the two rules for extending a walk come to the same: an expansion
meets the same vertices at the same depths in the same order, from every vertex and from nothing
else. -/
theorem expandBy_simplePaths (name : String) (history : List Episode) (direction : Direction)
    (accepts : Edge → Bool) (start : VertexId) (maxHops : ℕ) :
    let g := (Graph.empty name).after history
    expandBy g ⟨direction, accepts, true⟩ start maxHops
        = expandBy g ⟨direction, accepts, false⟩ start maxHops
      ∧ ((∃ met, expandBy g ⟨direction, accepts, true⟩ start maxHops = .ok met)
        ↔ ∃ v ∈ allVertices g, v.id = start) := by
  intro g
  have hg : g.WellFormed := wellFormed_after_empty name history
  refine ⟨by rw [expandBy_eq_foldlM hg, expandBy_eq_foldlM hg], fun ⟨met, hmet⟩ => ?_, ?_⟩
  · cases hstart : vertex? g start with
    | none =>
      rw [expandBy_of_vertex?_eq_none _ _ hstart] at hmet
      cases hmet
    | some v => exact ⟨v, hg.toCoherent.vertex?_eq_some_iff.1 hstart⟩
  · rintro ⟨v, hv, rfl⟩
    obtain ⟨met, hmet, -⟩ := exists_expandBy ⟨direction, accepts, true⟩ maxHops hg hv
    exact ⟨met, hmet⟩

/-- On the ring a level holds more walks under one rule than under the other. -/
example :
    let walks (simplePaths : Bool) := (advance ((Graph.empty "main").after sampleRing)
      ⟨.both, Edge.matches none, simplePaths⟩ 2 [] [⟨0, []⟩]).toOption.map fun p =>
        p.2.map Walk.vertices
    walks true = some [[2, 1, 0], [2, 1, 0], [3, 2, 0], [1, 2, 0]]
      ∧ walks false = some [[2, 1, 0], [2, 1, 0], [3, 2, 0]] := by
  decide +kernel

end Lineage
