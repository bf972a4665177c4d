import Lineage.Proofs.Replay

/-!
# Tasks

The two graphs of a workspace as they are left by any order of single tasks: an event is recorded,
or a fragment is folded in, each time with search depths of its own (`Workspace.attemptAll`). What
the service does to its graphs is such a run too, in the order of what it is asked
(`Service.exists_tasks_run`), so what holds after every run of tasks holds in every state that the
service can be in.
-/

namespace Lineage

open Std Consolidation

inductive Task where
  | record (e : Event)
  | consolidate (depths : SearchDepths) (f : Fragment)

def Task.guids : Task → List String
  | record e => e.guids
  | consolidate _ f => f.guids

namespace Workspace

def empty : Workspace := ⟨.empty GraphName.buffer.name, .empty GraphName.main.name⟩

variable [StepIds]

/-- A task that fails changes nothing. -/
def attempt (w : Workspace) : Task → Workspace
  | .record e => match Buffer.apply w.buffer e with
    | .ok (_, buffer) => { w with buffer }
    | .error _ => w
  | .consolidate depths f => match Consolidation.consolidate depths w.buffer w.main f with
    | .ok (_, main) => { w with main }
    | .error _ => w

def attemptAll (w : Workspace) (tasks : List Task) : Workspace := tasks.foldl attempt w

@[simp]
theorem attemptAll_nil (w : Workspace) : w.attemptAll [] = w := rfl

@[simp]
theorem attemptAll_cons (w : Workspace) (task : Task) (tasks : List Task) :
    w.attemptAll (task :: tasks) = (w.attempt task).attemptAll tasks := rfl

theorem attemptAll_append (w : Workspace) (tasks later : List Task) :
    w.attemptAll (tasks ++ later) = (w.attemptAll tasks).attemptAll later :=
  List.foldl_append

variable {depths : SearchDepths} {U : String → Prop} {start : Graph} {w w' : Workspace}

/-! ## One task -/

theorem attempt_record {e : Event} {fs : List Fragment} {buffer : Graph}
    (h : Buffer.apply w.buffer e = .ok (fs, buffer)) :
    w.attempt (.record e) = { w with buffer } := by
  simp only [attempt, h]

theorem attempt_consolidate {f : Fragment} {outcome : Outcome} {main : Graph}
    (h : Consolidation.consolidate depths w.buffer w.main f = .ok (outcome, main)) :
    w.attempt (.consolidate depths f) = { w with main } := by
  simp only [attempt, h]

/-- A task fails, or it is a step. -/
theorem attempt_cases (w : Workspace) {task : Task} (h : ∀ n ∈ task.guids, U n) :
    w.attempt task = w ∨ ∃ depths, Step depths U w (w.attempt task) := by
  cases task with
  | record e =>
    rcases happly : Buffer.apply w.buffer e with err | ⟨fs, buffer⟩
    · exact .inl (by simp only [attempt, happly])
    · exact .inr ⟨{}, attempt_record happly ▸ .record h happly⟩
  | consolidate depths f =>
    rcases hc : Consolidation.consolidate depths w.buffer w.main f with err | ⟨outcome, main⟩
    · exact .inl (by simp only [attempt, hc])
    · exact .inr ⟨depths, attempt_consolidate hc ▸ .consolidate h hc⟩

theorem Regular.attempt (hw : w.Regular U start) {task : Task} (h : ∀ n ∈ task.guids, U n) :
    (w.attempt task).Regular U start := by
  rcases attempt_cases w h with heq | ⟨depths, hs⟩
  · exact heq.symm ▸ hw
  · exact hs.regular hw

theorem later_attempt (hb : w.buffer.Identified) (hm : w.main.WellFormed) (task : Task) :
    Later w (w.attempt task) := by
  cases task with
  | record e =>
    rcases apply_cases hb e with ⟨err, happly⟩ | ⟨name, buffer, happly, hb', hkeeps, -⟩
    · simpa only [attempt, happly] using Later.refl hb hm
    · rw [attempt_record happly]
      exact ⟨hb', hm, hkeeps, .refl _⟩
  | consolidate depths f =>
    rcases hc : Consolidation.consolidate depths w.buffer w.main f with err | ⟨outcome, main⟩
    · simpa only [attempt, hc] using Later.refl hb hm
    · rw [attempt_consolidate hc]
      exact (later_consolidate hb hm hc).1

/-! ## Runs -/

theorem Regular.attemptAll : ∀ (tasks : List Task) {w : Workspace}, w.Regular U start →
    (∀ task ∈ tasks, ∀ n ∈ task.guids, U n) → (w.attemptAll tasks).Regular U start
  | [], _, hw, _ => hw
  | task :: tasks, _, hw, h => Regular.attemptAll tasks (hw.attempt (h task List.mem_cons_self))
    fun task' htask => h task' (List.mem_cons_of_mem _ htask)

theorem later_attemptAll : ∀ (tasks : List Task) {w : Workspace}, w.buffer.Identified →
    w.main.WellFormed → Later w (w.attemptAll tasks)
  | [], _, hb, hm => .refl hb hm
  | task :: tasks, _, hb, hm =>
    have hfirst := later_attempt hb hm task
    hfirst.trans (later_attemptAll tasks hfirst.buffer hfirst.main)

theorem regular_empty : empty.Regular U (.empty GraphName.main.name) where
  buffer := Graph.identified_empty _
  guids v hv := by simp [empty] at hv
  main := Graph.wellFormed_empty _
  writes := .refl _

/-- After any tasks the graphs are regular with the guids that the tasks name. -/
theorem regular_attemptAll_empty (tasks : List Task) :
    (empty.attemptAll tasks).Regular (· ∈ tasks.flatMap Task.guids)
      (.empty GraphName.main.name) :=
  regular_empty.attemptAll tasks fun task htask _ hn => List.mem_flatMap.2 ⟨task, htask, hn⟩

/-! ## Runs of the service -/

theorem consolidateNoting_snd (depths : SearchDepths) (w : Workspace) (s : Summary)
    (f : Fragment) : (consolidateNoting depths w s f).2 = w.attempt (.consolidate depths f) := by
  simp only [consolidateNoting, attempt]
  rcases Consolidation.consolidate depths w.buffer w.main f with _ | ⟨_ | _, main⟩ <;> rfl

theorem consolidateAll_snd (depths : SearchDepths) : ∀ (fs : List Fragment) (s : Summary)
    (w : Workspace),
    (consolidateAll depths fs s w).2 = w.attemptAll (fs.map (.consolidate depths))
  | [], _, _ => rfl
  | f :: fs, s, w => by
    rw [consolidateAll, List.map_cons, attemptAll_cons, ← consolidateNoting_snd depths w s f]
    exact consolidateAll_snd depths fs _ _

end Workspace

/-- A task without the depths it is done with and the name that its process goes by. -/
inductive Errand where
  | record (e : Event)
  | consolidate (columnIn columnOut process : String)
deriving DecidableEq

def Task.errand : Task → Errand
  | record e => .record e
  | consolidate _ f => .consolidate f.columnIn f.columnOut f.process.guid

/-- An event is recorded, and then its mappings are consolidated. -/
def Event.errands : Event → List Errand
  | processContext p ms =>
    .record (.processContext p ms) :: ms.map fun m => .consolidate m.input m.output p.guid
  | e => [.record e]

def Operation.errands : Operation → List Errand
  | ingest e => e.errands
  | ingestAll es => es.flatMap Event.errands
  | consolidate f => [.consolidate f.columnIn f.columnOut f.process.guid]
  | consolidateByGuid columnIn columnOut process => [.consolidate columnIn columnOut process]

def Errand.guids : Errand → List String
  | record e => e.guids
  | consolidate columnIn columnOut process => [columnIn, columnOut, process]

@[simp]
theorem Task.guids_errand (task : Task) : task.errand.guids = task.guids := by
  cases task <;> rfl

theorem Event.errands_eq (depths : SearchDepths) (name : Option String) (e : Event) :
    e.errands
      = (Task.record e :: (e.fragments name).map (.consolidate depths)).map Task.errand := by
  cases e with
  | processContext p ms =>
    simp only [errands, fragments, List.map_cons, List.map_map, Task.errand]
    rfl
  | newEntity | updatedEntity | newRelationship => rfl

theorem Event.guids_errands (e : Event) : ∀ o ∈ e.errands, ∀ n ∈ o.guids, n ∈ e.guids := by
  intro o ho n hn
  rw [e.errands_eq {} none] at ho
  obtain ⟨task, htask, rfl⟩ := List.mem_map.1 ho
  rw [Task.guids_errand] at hn
  rcases List.mem_cons.1 htask with rfl | htask
  · exact hn
  · obtain ⟨f, hf, rfl⟩ := List.mem_map.1 htask
    exact e.guids_fragments none f hf n hn

/-- Errands name no other guids than what is asked. -/
theorem Operation.guids_errands (op : Operation) :
    ∀ o ∈ op.errands, ∀ n ∈ o.guids, n ∈ op.guids := by
  cases op with
  | ingest e => exact e.guids_errands
  | ingestAll es =>
    intro o ho n hn
    obtain ⟨e, he, ho⟩ := List.mem_flatMap.1 ho
    exact List.mem_flatMap.2 ⟨e, he, e.guids_errands o ho n hn⟩
  | consolidate | consolidateByGuid =>
    intro o ho n hn
    obtain rfl := List.mem_singleton.1 ho
    exact hn

variable [StepIds]

namespace Workspace

variable {depths : SearchDepths} {w w' : Workspace}

theorem exists_tasks_ingest (hb : w.buffer.Identified) {e : Event} {s : Summary}
    (h : ingest depths w e = .ok (s, w')) :
    ∃ tasks, w.attemptAll tasks = w' ∧ tasks.map Task.errand = e.errands := by
  rcases apply_cases hb e with ⟨err, happly⟩ | ⟨name, buffer, happly, -⟩
  · rw [ingest, happly] at h
    cases h
  · rw [ingest, bind_of_ok happly] at h
    refine ⟨_, ?_, (e.errands_eq depths name).symm⟩
    rw [attemptAll_cons, attempt_record happly, ← consolidateAll_snd depths (e.fragments name)
      { events := 1, fragments := (e.fragments name).length }]
    exact congrArg Prod.snd (Except.ok.inj h)

theorem exists_tasks_ingestFrom : ∀ (es : List Event) (index : Nat) (s : Summary) {w : Workspace},
    w.buffer.Identified → w.main.WellFormed →
      ∃ tasks, w.attemptAll tasks = (ingestFrom depths index es s w).2
        ∧ (tasks.map Task.errand).Sublist (es.flatMap Event.errands)
  | [], _, _, _, _, _ => ⟨[], rfl, .slnil⟩
  | e :: es, index, s, w, hb, hm => by
    unfold ingestFrom
    split
    · next s' w' heq =>
      obtain ⟨tasks, rfl, herrands⟩ := exists_tasks_ingest hb heq
      have hlater := later_attemptAll tasks hb hm
      obtain ⟨rest, hrest, hsub⟩ := exists_tasks_ingestFrom es _ _ hlater.buffer hlater.main
      refine ⟨tasks ++ rest, (attemptAll_append _ _ _).trans hrest, ?_⟩
      rw [List.map_append, herrands, List.flatMap_cons]
      exact hsub.append_left _
    · obtain ⟨tasks, htasks, hsub⟩ := exists_tasks_ingestFrom es _ _ hb hm
      exact ⟨tasks, htasks, hsub.trans (List.sublist_append_right _ _)⟩

end Workspace

namespace Service

variable {s : Service}

theorem exists_tasks_consolidate (s : Service) (f : Fragment) :
    ∃ tasks, s.workspace.attemptAll tasks = (s.settle (s.consolidate f)).workspace
      ∧ tasks.map Task.errand = [.consolidate f.columnIn f.columnOut f.process.guid] := by
  refine ⟨[.consolidate s.settings.depths f], ?_, rfl⟩
  simp only [Workspace.attemptAll_cons, Workspace.attemptAll_nil, Workspace.attempt, consolidate,
    workspace]
  rcases Consolidation.consolidate s.settings.depths s.graphs.buffer s.graphs.main f with
    _ | ⟨outcome, main⟩ <;> rfl

theorem exists_tasks_perform (hb : s.workspace.buffer.Identified) (hm : s.workspace.main.WellFormed)
    (op : Operation) : ∃ tasks, s.workspace.attemptAll tasks = (s.perform op).workspace
      ∧ (tasks.map Task.errand).Sublist op.errands := by
  cases op with
  | ingest e =>
    simp only [perform, ingest]
    rcases heq : s.workspace.ingest s.settings.depths e with _ | ⟨summary, w⟩
    · exact ⟨[], rfl, List.nil_sublist _⟩
    · obtain ⟨tasks, htasks, herrands⟩ := Workspace.exists_tasks_ingest hb heq
      exact ⟨tasks, htasks, herrands ▸ .refl _⟩
  | ingestAll es => exact Workspace.exists_tasks_ingestFrom es 0 {} hb hm
  | consolidate f =>
    obtain ⟨tasks, htasks, herrands⟩ := exists_tasks_consolidate s f
    exact ⟨tasks, htasks, herrands ▸ .refl _⟩
  | consolidateByGuid a b p =>
    simp only [perform]
    rcases consolidateByGuid_cases (s := s) hb.toCoherent a b p with ⟨err, heq⟩ | ⟨name, heq⟩
    · rw [heq]
      exact ⟨[], rfl, List.nil_sublist _⟩
    · obtain ⟨tasks, htasks, herrands⟩ := exists_tasks_consolidate s ⟨a, b, ⟨p, name⟩⟩
      rw [heq]
      exact ⟨tasks, htasks, herrands ▸ .refl _⟩

/-- What is asked of the service comes down to tasks, in the order of what is asked. -/
theorem exists_tasks_run : ∀ (ops : List Operation) {s : Service},
    s.workspace.buffer.Identified → s.workspace.main.WellFormed →
      ∃ tasks, s.workspace.attemptAll tasks = (s.run ops).workspace
        ∧ (tasks.map Task.errand).Sublist (ops.flatMap Operation.errands)
  | [], _, _, _ => ⟨[], rfl, .slnil⟩
  | op :: ops, s, hb, hm => by
    obtain ⟨tasks, hfirst, hsub⟩ := exists_tasks_perform hb hm op
    have hlater := Workspace.later_attemptAll tasks hb hm
    rw [hfirst] at hlater
    obtain ⟨rest, hrest, hsub'⟩ := exists_tasks_run ops hlater.buffer hlater.main
    refine ⟨tasks ++ rest, ?_, ?_⟩
    · rw [Workspace.attemptAll_append, hfirst, hrest]
      rfl
    · rw [List.map_append, List.flatMap_cons]
      exact hsub.append hsub'

end Service

end Lineage
