import Lineage.Proofs.Accepted
import Lineage.Proofs.Presence

/-!
# How a fragment ends

What becomes of a fragment is told by five questions about the two graphs, asked in order: whether
the buffer has an instance for either column, whether the fragment is present, and whether a table
lies around either instance (`Consolidation.verdict`). A missing instance is noticed before anything
is written (`fold_of_notFound`), a missing table only when the sub-process has been written already,
in a transaction that is then given up (`exists_open_of_missingTable`). Either way the graph is what
it was, with the ids that it hands out next.
-/

namespace Lineage

open Std Consolidation

variable {depths : SearchDepths} {buffer main : Graph} {f : Fragment}

namespace Graph

/-- A graph has a vertex for the instance with a guid. -/
def HasInstance (g : Graph) (n : String) : Prop := ∃ v ∈ allVertices g, v.guid? = some n

/-- A table lies around the instance with a guid, no farther than tables are looked for. -/
def HasTable (g : Graph) (depths : SearchDepths) (n : String) : Prop :=
  ∃ v ∈ allVertices g, v.guid? = some n ∧ g.HasContainer v TypeName.isTableLike depths.table

/-- The look-up by a guid finds an instance. -/
def Finds (g : Graph) (n : String) : Prop := ∃ inst, vertexWith? g Key.guid n = some inst

/-- A table that carries a guid is the nearest one around the instance with a guid. -/
def Houses (g : Graph) (depths : SearchDepths) (n : String) : Prop :=
  ∃ inst table m, vertexWith? g Key.guid n = some inst ∧ Enclosed depths g inst table m

theorem Coherent.finds_iff (h : buffer.Coherent) {n : String} :
    buffer.Finds n ↔ buffer.HasInstance n :=
  ⟨fun ⟨v, hv⟩ => ⟨v, h.mem_of_vertexWith? hv⟩,
    fun ⟨_, hv, hguid⟩ => h.exists_vertexWith? hv hguid⟩

/-- Every instance has a guid, so the table that lies around one is not turned away. -/
theorem Identified.hasTable_iff (h : buffer.Identified) {n : String} {inst : Vertex}
    (hinst : vertexWith? buffer Key.guid n = some inst) :
    buffer.HasTable depths n ↔ ∃ table m, Enclosed depths buffer inst table m := by
  obtain ⟨hmem, hguid⟩ := h.mem_of_vertexWith? hinst
  have hnone := h.nearestContainer_eq_none_iff hmem TypeName.isTableLike depths.table
  constructor
  · rintro ⟨v, hv, hvguid, hcontainer⟩
    obtain rfl := h.guid_unique v hv inst hmem (hvguid.trans hguid.symm)
    obtain ⟨found, hfound, htable⟩ :=
      h.exists_nearestContainer hmem TypeName.isTableLike depths.table
    rcases found with _ | table
    · exact absurd hcontainer (hnone.1 hfound)
    · obtain ⟨m, hm⟩ := h.exists_guid table (htable table rfl).1
      exact ⟨table, m, hfound, hm⟩
  · rintro ⟨table, m, hnear, -⟩
    refine ⟨inst, hmem, hguid, ?_⟩
    by_contra hcontainer
    cases (hnone.2 hcontainer).symm.trans hnear

theorem houses_iff {n : String} {inst : Vertex}
    (hinst : vertexWith? buffer Key.guid n = some inst) :
    buffer.Houses depths n ↔ ∃ table m, Enclosed depths buffer inst table m := by
  constructor
  · rintro ⟨inst', table, m, hinst', henc⟩
    obtain rfl := Option.some.inj (hinst.symm.trans hinst')
    exact ⟨table, m, henc⟩
  · rintro ⟨table, m, henc⟩
    exact ⟨inst, table, m, hinst, henc⟩

theorem Identified.houses_iff_hasTable (h : buffer.Identified) {n : String} :
    buffer.Houses depths n ↔ buffer.HasTable depths n := by
  by_cases hfinds : buffer.Finds n
  · obtain ⟨inst, hinst⟩ := hfinds
    rw [houses_iff hinst, h.hasTable_iff hinst]
  · refine iff_of_false (fun ⟨inst, _, _, hinst, _⟩ => hfinds ⟨inst, hinst⟩) ?_
    exact fun ⟨v, hv, hguid, _⟩ => hfinds (h.finds_iff.2 ⟨v, hv, hguid⟩)

end Graph

namespace Consolidation

open Classical in
/-- The answer to a fragment where its columns are `Known` or not, it is `present` or not, and its
columns are `Housed` or not; `s` is the node id of its sub-process. -/
noncomputable def outcomeBy (Known : String → Prop) (present : Prop) (Housed : String → Prop)
    (f : Fragment) (s : String) : Except LineageError Outcome :=
  if ¬ Known f.columnIn then .error (.notFound .consolidate f.columnIn)
  else if ¬ Known f.columnOut then .error (.notFound .consolidate f.columnOut)
  else if present then .ok .alreadyPresent
  else if ¬ Housed f.columnIn then .error (.missingTable f.columnIn)
  else if ¬ Housed f.columnOut then .error (.missingTable f.columnOut)
  else .ok (.applied s)

section OutcomeBy

variable {Known Known' Housed Housed' : String → Prop} {present : Prop}

/-- Which way it ends does not hang on the node id of the sub-process. -/
theorem outcomeBy_cases (Known : String → Prop) (present : Prop) (Housed : String → Prop)
    (f : Fragment) : (∃ err, (∀ e, err ≠ .store e)
        ∧ ∀ s, outcomeBy Known present Housed f s = .error err)
      ∨ (∀ s, outcomeBy Known present Housed f s = .ok .alreadyPresent)
      ∨ ∀ s, outcomeBy Known present Housed f s = .ok (.applied s) := by
  unfold outcomeBy
  split_ifs
  · exact .inr (.inl fun _ => rfl)
  · exact .inr (.inr fun _ => rfl)
  all_goals exact .inl ⟨_, fun _ => LineageError.noConfusion, fun _ => rfl⟩

theorem outcomeBy_congr (hknown : ∀ n, Known n ↔ Known' n) (hhoused : ∀ n, Housed n ↔ Housed' n)
    (f : Fragment) (s : String) :
    outcomeBy Known present Housed f s = outcomeBy Known' present Housed' f s := by
  obtain rfl : Known = Known' := funext fun n => propext (hknown n)
  obtain rfl : Housed = Housed' := funext fun n => propext (hhoused n)
  rfl

end OutcomeBy

/-- The answer to a fragment as it comes about in any buffer graph. -/
noncomputable def ending (depths : SearchDepths) (buffer main : Graph) (f : Fragment) (s : String) :
    Except LineageError Outcome :=
  outcomeBy buffer.Finds (main.Present f.columnIn f.columnOut f.process.guid)
    (buffer.Houses depths) f s

/-- The answer to a fragment, told by what there is in the two graphs. -/
noncomputable def verdict (depths : SearchDepths) (buffer main : Graph) (f : Fragment)
    (s : String) : Except LineageError Outcome :=
  outcomeBy buffer.HasInstance (main.Present f.columnIn f.columnOut f.process.guid)
    (buffer.HasTable depths) f s

end Consolidation

theorem exists_consolidate_eq_ending [StepIds] (depths : SearchDepths) (hb : buffer.WellFormed)
    (hm : main.WellFormed) (f : Fragment) :
    ∃ s, (consolidate depths buffer main f).map Prod.fst = ending depths buffer main f s := by
  unfold consolidate ending outcomeBy
  rcases hin : vertexWith? buffer Key.guid f.columnIn with _ | instIn
  · refine ⟨"", ?_⟩
    have hunknown : ¬ buffer.Finds f.columnIn := by simp [Graph.Finds, hin]
    rw [if_pos hunknown, fold_missing_in hin]
    rfl
  rcases hout : vertexWith? buffer Key.guid f.columnOut with _ | instOut
  · refine ⟨"", ?_⟩
    have hunknown : ¬ buffer.Finds f.columnOut := by simp [Graph.Finds, hout]
    rw [if_neg (not_not_intro ⟨instIn, hin⟩), if_pos hunknown, fold_missing_out hin hout]
    rfl
  have hknown : buffer.Finds f.columnIn ∧ buffer.Finds f.columnOut :=
    ⟨⟨instIn, hin⟩, ⟨instOut, hout⟩⟩
  simp only [if_neg (not_not_intro hknown.1), if_neg (not_not_intro hknown.2)]
  rcases fold_cases depths hb hm hin hout with ⟨hpresent, t, hfold, -⟩ |
    ⟨habsent, u, v, q, s, t, hadv, hu, hv, -, hfurnished, -, hfold⟩
  · refine ⟨"", ?_⟩
    rw [if_pos hpresent, hfold]
    rfl
  refine ⟨StepIds.nodeId s.id, ?_⟩
  rw [if_neg habsent, hfold, Graph.houses_iff hin, Graph.houses_iff hout]
  by_cases hencIn : ∃ table n, Enclosed depths buffer instIn table n
  swap
  · rw [if_pos hencIn, foldTables_missing_in hb hin (by simpa using hencIn)]
    rfl
  rw [if_neg (not_not_intro hencIn)]
  obtain ⟨tableIn, nIn, hencIn⟩ := hencIn
  by_cases hencOut : ∃ table n, Enclosed depths buffer instOut table n
  swap
  · rw [if_pos hencOut, foldTables_missing_out hb hadv.wellFormed hin hout hencIn
      (by simpa using hencOut)]
    rfl
  rw [if_neg (not_not_intro hencOut)]
  obtain ⟨tableOut, nOut, hencOut⟩ := hencOut
  obtain ⟨x, t', hrest, -⟩ := exists_foldTables hb hadv.wellFormed hin hout hencIn hencOut hu hv
    hfurnished.owner_mem hfurnished.owner_nodeId s.id
  rw [hrest]
  rfl

/-- Where instances are told apart by their guids, what is looked up is what there is. -/
theorem Consolidation.ending_eq_verdict (hb : buffer.Identified) (depths : SearchDepths)
    (main : Graph) (f : Fragment) (s : String) :
    ending depths buffer main f s = verdict depths buffer main f s :=
  outcomeBy_congr (fun _ => hb.finds_iff) (fun _ => hb.houses_iff_hasTable) f s

/-- Whatever the transaction, nothing is written to it before an instance is found missing. -/
theorem fold_of_notFound [StepIds] (hb : buffer.WellFormed) (hm : main.WellFormed) {n : String}
    (h : consolidate depths buffer main f = .error (.notFound .consolidate n)) (t : Transaction) :
    fold depths buffer f t = .error (.notFound .consolidate n) := by
  have hcases := consolidate_cases depths hb hm f
  rw [h] at hcases
  cases hcases with
  | @notFound role hnone =>
    cases role with
    | input => exact fold_missing_in hnone
    | output =>
      rcases hin : vertexWith? buffer Key.guid f.columnIn with _ | instIn
      · -- the input is looked for first, so the two columns go by one guid
        rw [consolidate, fold_missing_in hin] at h
        rw [fold_missing_in hin]
        exact congrArg Except.error (Except.error.inj h)
      · exact fold_missing_out hin hnone

/-- When a table is found missing, the sub-process stands in the open transaction. -/
theorem exists_open_of_missingTable [StepIds] (hb : buffer.WellFormed) (hm : main.WellFormed)
    {column : String} (h : consolidate depths buffer main f = .error (.missingTable column)) :
    ∃ t s instIn instOut q u v, fold depths buffer f main.begin
        = foldTables depths buffer f instIn instOut s.id q u v t
      ∧ s ∈ allVertices t.commit ∧ s ∉ allVertices main ∧ t.rollback = main := by
  unfold consolidate at h
  rcases hin : vertexWith? buffer Key.guid f.columnIn with _ | instIn
  · rw [fold_missing_in hin] at h
    cases h
  rcases hout : vertexWith? buffer Key.guid f.columnOut with _ | instOut
  · rw [fold_missing_out hin hout] at h
    cases h
  rcases fold_cases depths hb hm hin hout with ⟨-, t, hfold, -⟩ |
    ⟨-, u, v, q, s, t, hadv, -, -, hpasses, hfurnished, -, hfold⟩
  · rw [hfold] at h
    cases h
  · exact ⟨t, s, instIn, instOut, q.id, u.id, v.id, hfold, hpasses.mem, hfurnished.step_new,
      hadv.base_eq⟩

theorem Workspace.attempt_of_error [StepIds] {w : Workspace} {err : LineageError}
    (h : Consolidation.consolidate depths w.buffer w.main f = .error err) :
    w.attempt (.consolidate depths f) = w := by
  simp only [attempt, h]

/-- How a fragment ends that is consolidated into a graph, and what a failure leaves behind. -/
structure Consolidation.Classified [StepIds] (depths : SearchDepths) (buffer main : Graph)
    (f : Fragment) : Prop where
  outcome : ∃ s, (consolidate depths buffer main f).map Prod.fst = verdict depths buffer main f s
  not_store : ∀ e, consolidate depths buffer main f ≠ .error (.store e)
  not_begun : ∀ n, consolidate depths buffer main f = .error (.notFound .consolidate n) →
    ∀ t, fold depths buffer f t = .error (.notFound .consolidate n)
  /-- A missing table is noticed late, and all that was written by then is given up. -/
  given_up : ∀ column, consolidate depths buffer main f = .error (.missingTable column) →
    ∃ t s instIn instOut q u v, fold depths buffer f main.begin
        = foldTables depths buffer f instIn instOut s.id q u v t
      ∧ s ∈ allVertices t.commit ∧ s ∉ allVertices main ∧ t.rollback = main
  unchanged : ∀ err, consolidate depths buffer main f = .error err →
    (Workspace.mk buffer main).attempt (.consolidate depths f) = ⟨buffer, main⟩

/-- Whatever events made the buffer graph and whatever transactions the main graph. -/
theorem classified_consolidate [StepIds] (bufferName : String) (es : List Event) (mainName : String)
    (history : List Episode) (depths : SearchDepths) (f : Fragment) :
    Classified depths (Buffer.recordAll (.empty bufferName) es)
      ((Graph.empty mainName).after history) f := by
  obtain ⟨hb, -⟩ := Buffer.records_recordAll es (Graph.identified_empty bufferName)
    (Graph.records_empty bufferName)
  have hm := wellFormed_after_empty mainName history
  generalize Buffer.recordAll (.empty bufferName) es = buffer at hb
  generalize (Graph.empty mainName).after history = main at hm
  obtain ⟨s, hs⟩ := exists_consolidate_eq_ending depths hb.toWellFormed hm f
  rw [ending_eq_verdict hb] at hs
  refine ⟨⟨s, hs⟩, fun e he => ?_, fun n h => fold_of_notFound hb.toWellFormed hm h,
    fun column h => exists_open_of_missingTable hb.toWellFormed hm h,
    fun err h => Workspace.attempt_of_error h⟩
  rw [he, verdict] at hs
  rcases outcomeBy_cases buffer.HasInstance _ (buffer.HasTable depths) f with
    ⟨err, herr, hverdict⟩ | hverdict | hverdict
  · exact herr e (Except.error.inj (hs.trans (hverdict s))).symm
  · cases hs.trans (hverdict s)
  · cases hs.trans (hverdict s)

end Lineage
