import Lineage.Proofs.Tasks

/-!
# Present for good

A fragment that was applied is present from then on, whatever is recorded and folded in after it
(`alreadyPresent_after_applied`): the first vertex with a node id stays the first, and columns once
linked stay linked. To find it present nothing is written, since its columns are looked up before
its sub-process is, and both are there (`fold_of_present`).
-/

namespace Lineage

open Std Consolidation

variable {depths : SearchDepths} {buffer main : Graph} {f : Fragment}

/-- Folding in a fragment that is present leaves the transaction as it was begun. -/
theorem fold_of_present [StepIds] (hm : main.WellFormed)
    (hcolumns : ∀ role, ∃ inst, vertexWith? buffer Key.guid (f.column role) = some inst)
    (hp : main.Present f.columnIn f.columnOut f.process.guid) :
    fold depths buffer f main.begin = .ok (none, main.begin) := by
  obtain ⟨instIn, hin⟩ := hcolumns .input
  obtain ⟨instOut, hout⟩ := hcolumns .output
  obtain ⟨u, v, hu, hv, hl⟩ := hp
  have hbegin := Transaction.wellFormed_begin hm
  rw [← Transaction.commit_begin main] at hu hv hl
  obtain ⟨b, hpresent, hiff⟩ := exists_isPresent hbegin u.id v.id f.process.guid
  rw [fold_of_columns hin hout (ensureAsset_of_vertexWith? hbegin instIn hu)
    (ensureAsset_of_vertexWith? hbegin instOut hv) hpresent, hiff.2 hl]
  rfl

/-- Only what is present is said to be, and nothing was written then. -/
theorem fold_of_alreadyPresent [StepIds] (hb : buffer.WellFormed) (hm : main.WellFormed)
    {main' : Graph} (hc : consolidate depths buffer main f = .ok (.alreadyPresent, main')) :
    fold depths buffer f main.begin = .ok (none, main.begin) ∧ main' = main := by
  have hcases := consolidate_cases depths hb hm f
  rw [hc] at hcases
  cases hcases with
  | alreadyPresent hcolumns hp => exact ⟨fold_of_present hm hcolumns hp, rfl⟩

/-- After any tasks on empty graphs: a fragment that is applied is found present ever after, by its
columns and the guid of its process alone, whatever tasks come between. And when a fragment is found
present, its transaction holds no vertex and no edge of its own, so that it makes no difference
whether it is committed or rolled back. -/
theorem alreadyPresent_after_applied [StepIds] (tasks : List Task) :
    let w := Workspace.empty.attemptAll tasks
    (∀ depths f subProcess main,
      consolidate depths w.buffer w.main f = .ok (.applied subProcess, main) →
        ∀ later depths' f', f'.columnIn = f.columnIn → f'.columnOut = f.columnOut →
          f'.process.guid = f.process.guid →
          let w' := (w.attempt (.consolidate depths f)).attemptAll later
          consolidate depths' w'.buffer w'.main f' = .ok (.alreadyPresent, w'.main))
    ∧ ∀ depths f main, consolidate depths w.buffer w.main f = .ok (.alreadyPresent, main) →
        ∃ t, fold depths w.buffer f w.main.begin = .ok (none, t) ∧ allVertices t.overlay = []
          ∧ allEdges t.overlay = [] ∧ t.commit = w.main ∧ t.rollback = w.main ∧ main = w.main := by
  intro w
  have hw := Workspace.regular_attemptAll_empty tasks
  refine ⟨fun depths f s main hc later depths' f' hin hout hguid => ?_, fun depths f main hc => ?_⟩
  · intro w'
    obtain ⟨hlater, hf⟩ := Workspace.later_consolidate hw.buffer hw.main hc
    rw [← Workspace.attempt_consolidate hc] at hlater hf
    have hlater' := Workspace.later_attemptAll later hlater.buffer hlater.main
    exact Workspace.consolidate_of_holds depths' hlater'.buffer hlater'.main
      ((hf.mono hlater.main hlater').of_eq hin hout hguid)
  · obtain ⟨hfold, heq⟩ := fold_of_alreadyPresent hw.buffer.toWellFormed hw.main hc
    exact ⟨_, hfold, rfl, rfl, Transaction.commit_begin _, rfl, heq⟩

/-- The events of the sample batch, one by one. -/
def sampleTasks : List Task := sampleBatch.map .record

/-- A process that goes by the guid of a column, and a new table. -/
def sampleLater : List Task :=
  [.consolidate {} ⟨"b", "b", ⟨"a", none⟩⟩,
    .record (.newEntity { guid := "x", type := "RelationalTable" })]

/-- The node id of a column comes to stand for a process too, and still the fragment is found. -/
theorem alreadyPresent_after_applied_sampleTasks :
    let w := Workspace.empty.attemptAll sampleTasks
    let f : Fragment := ⟨"a", "b", ⟨"p", none⟩⟩
    let f' : Fragment := ⟨"a", "b", ⟨"p", "other"⟩⟩
    let w' := (w.attempt (.consolidate {} f)).attemptAll sampleLater
    (consolidate {} w.buffer w.main f).map Prod.fst = .ok (.applied "sub#2")
    ∧ (verticesWith w'.main Key.nodeId "a").length = 2
    ∧ consolidate ⟨0, 0⟩ w'.buffer w'.main f' = .ok (.alreadyPresent, w'.main)
    ∧ ∃ t, fold ⟨0, 0⟩ w'.buffer f' w'.main.begin = .ok (none, t) ∧ allVertices t.overlay = [] := by
  intro w f f' w'
  have happlied : (consolidate {} w.buffer w.main f).map Prod.fst = .ok (.applied "sub#2") := by
    decide +kernel
  rcases hc : consolidate {} w.buffer w.main f with err | ⟨outcome, main⟩
  · rw [hc] at happlied
    cases happlied
  obtain rfl : outcome = .applied "sub#2" := by simpa [hc, Except.map] using happlied
  have hpresent := (alreadyPresent_after_applied sampleTasks).1 {} f _ main hc sampleLater ⟨0, 0⟩ f'
    rfl rfl rfl
  have hw' : Workspace.empty.attemptAll (sampleTasks ++ .consolidate {} f :: sampleLater) = w' := by
    rw [Workspace.attemptAll_append, Workspace.attemptAll_cons]
  have hblank :=
    (alreadyPresent_after_applied (sampleTasks ++ .consolidate {} f :: sampleLater)).2 ⟨0, 0⟩ f'
  rw [hw'] at hblank
  obtain ⟨t, hfold, hempty, -⟩ := hblank _ hpresent
  exact ⟨rfl, by decide +kernel, hpresent, t, hfold, hempty⟩

end Lineage
