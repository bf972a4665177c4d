import Lineage.Proofs.Calls
import Lineage.Proofs.Runs
import Lineage.Proofs.Saving

/-!
# Restarts are invisible

A session is a run of the service with restarts at any points: the graphs are saved into a
directory, and the service goes on with what it finds there. Every graph of a service that started
empty has a history (`Service.Grown`), and so comes back as it was; a restart therefore changes
nothing (`exists_run_restart`), and the replies and graphs of a session are those of the same
actions without its restarts (`session_eq_replies`).
-/

namespace Lineage

open Std

/-! ## Actions and sessions -/

/-- What can be asked of the service. -/
inductive Action where
  | operate (op : Operation)
  | populateMock (c : SyntheticChain)
  | query (name : GraphName) (scope : Scope) (view : View) (text : String)
  /-- A query in a caller's spelling. -/
  | queryText (graph scope view text : String)
  | exportText (name : GraphName)

inductive Reply where
  | summary (r : Except LineageError Summary)
  | outcome (r : Except LineageError Outcome)
  | response (r : Except LineageError Response)
  | text (s : String)

/-- A part of a session. -/
inductive Step where
  | act (a : Action)
  /-- The graphs are saved into a directory and restored from there. -/
  | restart (directory : String)

namespace Service

def reply [StepIds] (s : Service) : Action → Reply
  | .operate (.ingest e) => .summary ((s.ingest e).map Prod.fst)
  | .operate (.ingestAll es) => .summary (.ok (s.ingestAll es).1)
  | .operate (.consolidate f) => .outcome ((s.consolidate f).map Prod.fst)
  | .operate (.consolidateByGuid columnIn columnOut process) =>
    .outcome ((s.consolidateByGuid columnIn columnOut process).map Prod.fst)
  | .populateMock c => .summary (.ok (s.populateMock c).1)
  | .query name scope view text => .response (s.query name scope view text)
  | .queryText graph scope view text => .response (s.queryText graph scope view text)
  | .exportText name => .text (s.exportText name)

/-- The service after an action; queries and exports leave it as it is. -/
def act [StepIds] (s : Service) : Action → Service
  | .operate op => s.perform op
  | .populateMock c => (s.populateMock c).2
  | .query .. | .queryText .. | .exportText _ => s

/-- The replies to actions one after the other, and the service after the last. -/
def replies [StepIds] (s : Service) : List Action → List Reply × Service
  | [] => ([], s)
  | a :: as =>
    let (rs, last) := (s.act a).replies as
    (s.reply a :: rs, last)

section Files

variable {m : Type → Type} [Monad m] [Files m]

def restart (s : Service) (directory : String) : ExceptT StoreError m Service := do
  s.graphs.save directory
  let graphs ← GraphSet.restore directory
  return { s with graphs }

/-- The replies of a session, and the service at its end. -/
def session [StepIds] (s : Service) : List Step → ExceptT StoreError m (List Reply × Service)
  | [] => return ([], s)
  | .act a :: steps => do
    let (rs, last) ← (s.act a).session steps
    return (s.reply a :: rs, last)
  | .restart directory :: steps => do
    let s ← s.restart directory
    s.session steps

end Files

end Service

namespace Step

/-- The actions of a session, without its restarts. -/
def actions (steps : List Step) : List Action :=
  steps.filterMap fun
    | act a => some a
    | restart _ => none

/-- The directories that a session saves to, in turn. -/
def directories (steps : List Step) : List String :=
  steps.filterMap fun
    | act _ => none
    | restart directory => some directory

end Step

/-- Graphs can be saved into each of the directories in turn. -/
def FileTree.Takes (t : FileTree) (directories : List String) : Prop :=
  (t.run (directories.forM GraphSet.empty.save)).1 = .ok ()

instance (t : FileTree) (directories : List String) : Decidable (t.Takes directories) :=
  inferInstanceAs (Decidable (_ = _))

/-! ## Services with a history -/

namespace Service

variable {s s' : Service}

/-- Every graph has a longer history. -/
def Extends (s s' : Service) : Prop :=
  ∀ name : GraphName, (s.graphs.get name).Extends (s'.graphs.get name)

theorem Extends.refl (s : Service) : s.Extends s := fun _ => .refl _

theorem Extends.trans {s'' : Service} (h : s.Extends s') (h' : s'.Extends s'') : s.Extends s'' :=
  fun name => (h name).trans (h' name)

theorem extends_withWorkspace {w : Workspace} (h : s.workspace.Extends w) :
    s.Extends (s.withWorkspace w) := by
  intro name
  cases name with
  | main => exact h.main
  | buffer => exact h.buffer
  | mock => exact .refl _
  | history => exact .refl _

theorem extends_withMain {main : Graph} (h : s.graphs.main.Extends main) :
    s.Extends (s.withMain main) := by
  intro name
  cases name with
  | main => exact h
  | buffer => exact .refl _
  | mock => exact .refl _
  | history => exact .refl _

theorem extends_ingest [StepIds] (s : Service) (e : Event) : s.Extends (s.settle (s.ingest e)) := by
  unfold ingest
  rcases h : s.workspace.ingest s.settings.depths e with _ | ⟨summary, w⟩
  · exact .refl s
  · exact extends_withWorkspace (Workspace.extends_ingest _ h)

theorem extends_consolidate [StepIds] (s : Service) (f : Fragment) :
    s.Extends (s.settle (s.consolidate f)) := by
  unfold consolidate
  rcases h : Consolidation.consolidate s.settings.depths s.graphs.buffer s.graphs.main f with
    _ | ⟨outcome, main⟩
  · exact .refl s
  · exact extends_withMain (Consolidation.extends_consolidate h)

theorem extends_consolidateByGuid [StepIds] (s : Service) (columnIn columnOut process : String) :
    s.Extends (s.settle (s.consolidateByGuid columnIn columnOut process)) := by
  unfold consolidateByGuid
  rcases h : Consolidation.consolidateByGuid s.settings.depths s.graphs.buffer s.graphs.main
    columnIn columnOut process with _ | ⟨outcome, main⟩
  · exact .refl s
  · obtain ⟨p, -, h⟩ := exists_of_bind_ok h
    exact extends_withMain (Consolidation.extends_consolidate h)

theorem extends_populateMock [StepIds] (s : Service) (c : SyntheticChain) :
    s.Extends (s.populateMock c).2 := by
  intro name
  cases name with
  | main => exact .refl _
  | buffer => exact .refl _
  | mock =>
    exact (Workspace.extends_ingestFrom s.settings.depths c.events 0 {}
      ⟨.empty "mock-buffer", s.graphs.mock⟩).main
  | history => exact .refl _

theorem extends_act [StepIds] (s : Service) (a : Action) : s.Extends (s.act a) := by
  cases a with
  | operate op =>
    cases op with
    | ingest e => exact extends_ingest s e
    | ingestAll es =>
      exact extends_withWorkspace (Workspace.extends_ingestFrom s.settings.depths es 0 {} _)
    | consolidate f => exact extends_consolidate s f
    | consolidateByGuid columnIn columnOut process =>
      exact extends_consolidateByGuid s columnIn columnOut process
  | populateMock c => exact extends_populateMock s c
  | query | queryText | exportText => exact .refl s

theorem extends_replies [StepIds] : ∀ (as : List Action) (s : Service), s.Extends (s.replies as).2
  | [], s => .refl s
  | a :: as, s => (extends_act s a).trans (extends_replies as (s.act a))

/-- Every graph has come about by transactions on an empty graph of its name. -/
def Grown (s : Service) : Prop :=
  ∀ name : GraphName, (Graph.empty name.name).Extends (s.graphs.get name)

/-- All ids given so far have room in documents. -/
def Numbered (s : Service) : Prop := ∀ name ∈ GraphName.all, (s.graphs.get name).Numbered

instance (s : Service) : Decidable s.Numbered := inferInstanceAs (Decidable (∀ name ∈ _, _))

theorem grown_initial (settings : Settings) : (initial settings).Grown := by
  intro name
  cases name <;> exact .refl _

namespace Grown

theorem of_extends (h : s.Grown) (h' : s.Extends s') : s'.Grown :=
  fun name => (h name).trans (h' name)

theorem wellFormed (h : s.Grown) (name : GraphName) : (s.graphs.get name).WellFormed := by
  obtain ⟨history, heq⟩ := h name
  rw [heq]
  exact wellFormed_after_empty name.name history

theorem named (h : s.Grown) : s.graphs.Named := by
  intro name
  obtain ⟨history, heq⟩ := h name
  rw [heq]
  exact Graph.name_after history (Graph.wellFormed_empty name.name)

/-- Counters do not go down, so what fits in the end fitted before. -/
theorem numbered_of_extends (h : s.Grown) (h' : s.Extends s') (hs' : s'.Numbered) :
    s.Numbered := by
  intro name hname
  obtain ⟨history, heq⟩ := h' name
  have hnumbered := hs' name hname
  rw [heq] at hnumbered
  exact hnumbered.of_after history (h.wellFormed name)

theorem load_exportText (h : s.Grown) (hs : s.Numbered) (name : GraphName) :
    Graph.load name.name (s.graphs.get name).exportText = .ok (s.graphs.get name) := by
  obtain ⟨history, heq⟩ := h name
  have hnumbered := hs name name.mem_all
  rw [heq] at hnumbered ⊢
  exact load_exportText_after name.name history hnumbered

end Grown

/-! ## Restarts -/

open FileTree

variable {t u u' : FileTree} {directory : String}

/-- A restart succeeds where a save of empty graphs would, and changes nothing. -/
theorem exists_run_restart (h : s.Grown) (hs : s.Numbered) (hsame : t.SamePaths u)
    (hsave : u.run (GraphSet.empty.save directory) = (.ok (), u')) :
    ∃ t', t.run (s.restart directory) = (.ok s, t') ∧ t'.SamePaths u' := by
  have hend := alike_save h.named GraphSet.named_empty directory t u hsame
  rw [hsave] at hend
  rcases ht : t.run (s.graphs.save directory) with ⟨r, t'⟩
  rw [ht] at hend
  cases hend with
  | mk _ hsame' =>
    refine ⟨t', ?_, hsame'⟩
    have hrestore := run_restore_of_save h.named (h.load_exportText hs) ht
    exact (run_bind_of_ok ht).trans ((run_bind_of_ok hrestore).trans rfl)

/-- From trees with the same paths, the one for the session and the other for the empty graphs whose
saves are known to succeed. -/
theorem run_session [StepIds] : ∀ (steps : List Step) {s : Service} {t u : FileTree}, s.Grown →
    (s.replies (Step.actions steps)).2.Numbered → t.SamePaths u →
      u.Takes (Step.directories steps) →
        (t.run (s.session steps)).1 = .ok (s.replies (Step.actions steps))
  | [], _, _, _, _, _, _, _ => rfl
  | .act a :: steps, s, t, u, h, hs, hsame, htakes => by
    have hrest := run_session steps (h.of_extends (extends_act s a)) hs hsame htakes
    rw [session, run_bind]
    rcases hrun : t.run ((s.act a).session steps) with ⟨r, t'⟩
    rw [hrun] at hrest
    obtain rfl : r = .ok ((s.act a).replies (Step.actions steps)) := hrest
    rfl
  | .restart directory :: steps, s, t, u, h, hs, hsame, htakes => by
    have hnow := h.numbered_of_extends (extends_replies _ s) hs
    have htakes : (u.run (GraphSet.empty.save directory >>= fun _ =>
        (Step.directories steps).forM GraphSet.empty.save)).1 = .ok () := htakes
    rw [run_bind] at htakes
    rcases hsave : u.run (GraphSet.empty.save directory) with ⟨_ | ⟨⟩, u'⟩
    · rw [hsave] at htakes
      cases htakes
    · rw [hsave] at htakes
      obtain ⟨t', hrestart, hsame'⟩ := exists_run_restart h hnow hsame hsave
      rw [session, run_bind_of_ok hrestart]
      exact run_session steps h hs hsame' htakes

end Service

/-- On a tree that takes the graphs, a session that starts from empty graphs comes to its end with
the replies and the graphs of its actions alone, wherever the restarts are. Ids are written in 64
bits, so the counters have to stay below that. -/
theorem session_eq_replies [StepIds] (settings : Settings) (steps : List Step) {tree : FileTree}
    (htakes : tree.Takes (Step.directories steps))
    (hnumbered : ((Service.initial settings).replies (Step.actions steps)).2.Numbered) :
    (tree.run ((Service.initial settings).session steps)).1
      = .ok ((Service.initial settings).replies (Step.actions steps)) :=
  Service.run_session steps (Service.grown_initial settings) hnumbered (.refl tree) htakes

/-- A session that saves into a directory that is not there yet, goes on, and saves once more beside
it. -/
def sampleSession : List Step :=
  [.act (.operate (.ingestAll sampleBatch)), .restart "state",
    .act (.operate (.consolidateByGuid "b" "a" "p")), .act (.populateMock ⟨2, 1⟩), .restart "state",
    .act (.query .main .endToEnd .column "a"), .restart "state/../later",
    .act (.exportText .mock)]

theorem session_eq_replies_sampleSession :
    (FileTree.empty ["work"]).Takes (Step.directories sampleSession)
    ∧ ((Service.initial {}).replies (Step.actions sampleSession)).2.Numbered
    ∧ ((FileTree.empty ["work"]).run ((Service.initial {}).session sampleSession)).1
      = .ok ((Service.initial {}).replies (Step.actions sampleSession)) := by
  have htakes : (FileTree.empty ["work"]).Takes (Step.directories sampleSession) := by
    decide +kernel
  have hnumbered : ((Service.initial {}).replies (Step.actions sampleSession)).2.Numbered := by
    decide +kernel
  exact ⟨htakes, hnumbered, session_eq_replies {} sampleSession htakes hnumbered⟩

end Lineage
