import Lineage.Proofs.Effects
import Lineage.Proofs.OrderIndependence

/-!
# The account of a batch

Ingesting a batch comes down to tasks (`Buffer.tasks`): each event that the buffer graph lets in is
recorded, and then its fragments are consolidated. The summary is the sum over these tasks of how
the fragments ended, with the refused events beside it (`Workspace.ingestFrom_eq`), and one fragment
that is applied is one sub-process more (`Workspace.subProcessCount_attempt`). So every event and
every fragment is accounted for, and the refused events make no difference.
-/

namespace Lineage

open Std Consolidation

/-! ## Results -/

/-- What became of a fragment. -/
structure FragmentResult where
  fragment : Fragment
  result : Except LineageError Outcome

namespace FragmentResult

def isApplied : FragmentResult → Bool
  | ⟨_, .ok (.applied _)⟩ => true
  | _ => false

def isPresent : FragmentResult → Bool
  | ⟨_, .ok .alreadyPresent⟩ => true
  | _ => false

def failure? : FragmentResult → Option FragmentFailure
  | ⟨f, .error e⟩ => some ⟨f, e⟩
  | _ => none

theorem length_eq : ∀ rs : List FragmentResult, rs.length
    = rs.countP isApplied + rs.countP isPresent + (rs.filterMap failure?).length
  | [] => rfl
  | ⟨f, r⟩ :: rs => by
    have ih := length_eq rs
    simp only [List.length_cons, List.countP_cons, List.filterMap_cons]
    rcases r with e | _ | _ <;> simp [isApplied, isPresent, failure?] <;> omega

end FragmentResult

def Task.fragment? : Task → Option Fragment
  | record _ => none
  | consolidate _ f => some f

namespace Workspace

/-- What becomes of the fragments of some tasks done one after the other. -/
def results [StepIds] (w : Workspace) : List Task → List FragmentResult
  | [] => []
  | .record e :: tasks => (w.attempt (.record e)).results tasks
  | .consolidate depths f :: tasks =>
    ⟨f, (Consolidation.consolidate depths w.buffer w.main f).map Prod.fst⟩
      :: (w.attempt (.consolidate depths f)).results tasks

theorem results_append [StepIds] : ∀ (tasks later : List Task) (w : Workspace),
    w.results (tasks ++ later) = w.results tasks ++ (w.attemptAll tasks).results later
  | [], _, _ => rfl
  | .record _ :: tasks, later, _ => results_append tasks later _
  | .consolidate _ _ :: tasks, later, _ => congrArg (_ :: ·) (results_append tasks later _)

/-- The results are those of the fragments of the tasks, in order. -/
theorem map_fragment_results [StepIds] : ∀ (tasks : List Task) (w : Workspace),
    (w.results tasks).map FragmentResult.fragment = tasks.filterMap Task.fragment?
  | [], _ => rfl
  | .record _ :: tasks, _ => map_fragment_results tasks _
  | .consolidate _ _ :: tasks, _ => congrArg (_ :: ·) (map_fragment_results tasks _)

end Workspace

/-! ## What a batch comes down to -/

/-- The mappings that an event carries. -/
def Event.mappings : Event → List ColumnMapping
  | processContext _ ms => ms
  | _ => []

theorem Event.length_fragments (e : Event) (name : Option String) :
    (e.fragments name).length = e.mappings.length := by
  cases e <;> simp [fragments, mappings]

/-- An event is recorded, and then the fragments it carries are consolidated. -/
def Event.tasks (depths : SearchDepths) (e : Event) (fs : List Fragment) : List Task :=
  .record e :: fs.map (.consolidate depths)

theorem Event.filterMap_fragment?_tasks (depths : SearchDepths) (e : Event) (fs : List Fragment) :
    (e.tasks depths fs).filterMap Task.fragment? = fs := by
  rw [tasks, List.filterMap_cons_none rfl, List.filterMap_map]
  exact List.filterMap_some

namespace Buffer

/-- The tasks of the events that are let in. -/
def tasks (depths : SearchDepths) (g : Graph) : List Event → List Task
  | [] => []
  | e :: es => match Buffer.apply g e with
    | .ok (fs, g') => e.tasks depths fs ++ tasks depths g' es
    | .error _ => tasks depths g es

/-- The events that are refused, where the first has the given place in the batch. -/
def refusals (g : Graph) : ℕ → List Event → List EventFailure
  | _, [] => []
  | index, e :: es => match Buffer.apply g e with
    | .ok (_, g') => refusals g' (index + 1) es
    | .error error => ⟨index, e.kind, error⟩ :: refusals g (index + 1) es

variable {depths : SearchDepths} {g g' : Graph} {e : Event}

theorem tasks_of_ok {fs : List Fragment} (h : Buffer.apply g e = .ok (fs, g')) (es : List Event) :
    tasks depths g (e :: es) = e.tasks depths fs ++ tasks depths g' es := by
  rw [tasks, h]

theorem tasks_of_error {err : LineageError} (h : Buffer.apply g e = .error err) (es : List Event) :
    tasks depths g (e :: es) = tasks depths g es := by
  rw [tasks, h]

variable (depths) in
theorem tasks_append : ∀ (es later : List Event) (g : Graph),
    tasks depths g (es ++ later) = tasks depths g es ++ tasks depths (recordAll g es) later
  | [], _, _ => rfl
  | e :: es, later, g => by
    rw [List.cons_append]
    rcases happly : Buffer.apply g e with err | ⟨fs, g'⟩
    · rw [tasks_of_error happly, tasks_of_error happly, (cons_of_error happly es).1]
      exact tasks_append es later g
    · rw [tasks_of_ok happly, tasks_of_ok happly, (cons_of_ok happly es).1, tasks_append es,
        List.append_assoc]

theorem refusals_of_ok {fs : List Fragment} (h : Buffer.apply g e = .ok (fs, g')) (index : ℕ)
    (es : List Event) : refusals g index (e :: es) = refusals g' (index + 1) es := by
  rw [refusals, h]

theorem refusals_of_error {err : LineageError} (h : Buffer.apply g e = .error err) (index : ℕ)
    (es : List Event) :
    refusals g index (e :: es) = ⟨index, e.kind, err⟩ :: refusals g (index + 1) es := by
  rw [refusals, h]

/-- An event is refused or let in. -/
theorem length_letIn : ∀ (es : List Event) (g : Graph) (index : ℕ),
    (letIn g es).length + (refusals g index es).length = es.length
  | [], _, _ => rfl
  | e :: es, g, index => by
    rcases happly : Buffer.apply g e with err | ⟨fs, g'⟩
    · have ih := length_letIn es g (index + 1)
      rw [(cons_of_error happly es).2, refusals_of_error happly, List.length_cons, List.length_cons]
      omega
    · have ih := length_letIn es g' (index + 1)
      rw [(cons_of_ok happly es).2, refusals_of_ok happly, List.length_cons, List.length_cons]
      omega

theorem le_index_of_mem_refusals : ∀ (es : List Event) {g : Graph} {index : ℕ} {r : EventFailure},
    r ∈ refusals g index es → index ≤ r.index
  | e :: es, g, index, r, hr => by
    rcases happly : Buffer.apply g e with err | ⟨fs, g'⟩
    · rw [refusals_of_error happly] at hr
      rcases List.mem_cons.1 hr with rfl | hr
      · exact le_rfl
      · exact Nat.le_of_succ_le (le_index_of_mem_refusals es hr)
    · rw [refusals_of_ok happly] at hr
      exact Nat.le_of_succ_le (le_index_of_mem_refusals es hr)

theorem refusals_ascending : ∀ (es : List Event) (g : Graph) (index : ℕ),
    (refusals g index es).Pairwise fun r r' => r.index < r'.index
  | [], _, _ => .nil
  | e :: es, g, index => by
    rcases happly : Buffer.apply g e with err | ⟨fs, g'⟩
    · rw [refusals_of_error happly]
      exact List.pairwise_cons.2
        ⟨fun r hr => le_index_of_mem_refusals es hr, refusals_ascending es g (index + 1)⟩
    · rw [refusals_of_ok happly]
      exact refusals_ascending es g' (index + 1)

/-- An event is among the refused just if the graph that the events before it lead to refuses it. -/
theorem mem_refusals : ∀ (es : List Event) {g : Graph} {index : ℕ} {r : EventFailure},
    r ∈ refusals g index es ↔ ∃ k e, es[k]? = some e ∧ r.index = index + k ∧ r.kind = e.kind
      ∧ Buffer.apply (recordAll g (es.take k)) e = .error r.error
  | [], _, _, _ => by simp [refusals]
  | e :: es, g, index, r => by
    have hsplit : (∃ k e', (e :: es)[k]? = some e' ∧ r.index = index + k ∧ r.kind = e'.kind
        ∧ Buffer.apply (recordAll g ((e :: es).take k)) e' = .error r.error)
        ↔ (r.index = index ∧ r.kind = e.kind ∧ Buffer.apply g e = .error r.error)
          ∨ ∃ k e', es[k]? = some e' ∧ r.index = index + 1 + k ∧ r.kind = e'.kind
            ∧ Buffer.apply (recordAll g (e :: es.take k)) e' = .error r.error := by
      constructor
      · rintro ⟨_ | k, e', he, hindex, hrest⟩
        · obtain rfl : e = e' := Option.some.inj he
          exact .inl ⟨hindex, hrest⟩
        · exact .inr ⟨k, e', he, by omega, hrest⟩
      · rintro (⟨hindex, hrest⟩ | ⟨k, e', he, hindex, hrest⟩)
        · exact ⟨0, e, rfl, hindex, hrest⟩
        · exact ⟨k + 1, e', he, by omega, hrest⟩
    rw [hsplit]
    rcases happly : Buffer.apply g e with err | ⟨fs, g'⟩
    · rw [refusals_of_error happly, List.mem_cons, mem_refusals es]
      simp only [(cons_of_error happly _).1, Except.error.injEq]
      refine or_congr_left ⟨?_, ?_⟩
      · rintro rfl
        exact ⟨rfl, rfl, rfl⟩
      · rintro ⟨hindex, hkind, rfl⟩
        cases r
        simp_all
    · rw [refusals_of_ok happly, mem_refusals es]
      simp [(cons_of_ok happly _).1]

/-- The places of the refused events are those that the events let in leave free. -/
theorem letIn_eq_filter : ∀ (es : List Event) (g : Graph) (index : ℕ),
    letIn g es = ((es.zipIdx index).filter fun p =>
      (refusals g index es).all (·.index != p.2)).map Prod.fst
  | [], _, _ => rfl
  | e :: es, g, index => by
    have hlater : ∀ p ∈ es.zipIdx (index + 1), index ≠ p.2 := fun p hp =>
      Nat.ne_of_lt (List.le_snd_of_mem_zipIdx hp)
    rw [List.zipIdx_cons]
    rcases happly : Buffer.apply g e with err | ⟨fs, g'⟩
    · rw [(cons_of_error happly es).2, refusals_of_error happly,
        List.filter_cons_of_neg (by simp), letIn_eq_filter es g (index + 1)]
      refine congrArg (List.map Prod.fst) (List.filter_congr fun p hp => ?_)
      simp [hlater p hp]
    · have hfirst : (refusals g' (index + 1) es).all (·.index != index) = true :=
        List.all_eq_true.2 fun r hr =>
          bne_iff_ne.2 (Nat.ne_of_gt (le_index_of_mem_refusals es hr))
      rw [(cons_of_ok happly es).2, refusals_of_ok happly, List.filter_cons, if_pos hfirst,
        List.map_cons, letIn_eq_filter es g' (index + 1)]

variable (depths) in
/-- Without the refused events there is nothing to refuse, and the tasks are the same. -/
theorem run_letIn : ∀ (es : List Event) (g : Graph) (index : ℕ),
    letIn g (letIn g es) = letIn g es ∧ refusals g index (letIn g es) = []
      ∧ tasks depths g (letIn g es) = tasks depths g es
  | [], _, _ => ⟨rfl, rfl, rfl⟩
  | e :: es, g, index => by
    rcases happly : Buffer.apply g e with err | ⟨fs, g'⟩
    · rw [(cons_of_error happly es).2, tasks_of_error happly]
      exact run_letIn es g index
    · obtain ⟨hletIn, hrefusals, htasks⟩ := run_letIn es g' (index + 1)
      rw [(cons_of_ok happly es).2, (cons_of_ok happly _).2, refusals_of_ok happly,
        tasks_of_ok happly, tasks_of_ok happly, hletIn, htasks]
      exact ⟨rfl, hrefusals, rfl⟩

/-- The fragments to consolidate are as many as there are mappings. -/
theorem length_fragments_tasks : ∀ (es : List Event) {g : Graph}, g.Identified →
    ((tasks depths g es).filterMap Task.fragment?).length
      = ((letIn g es).flatMap Event.mappings).length
  | [], _, _ => rfl
  | e :: es, g, hg => by
    rcases apply_cases hg e with ⟨err, happly⟩ | ⟨name, g', happly, hg', -⟩
    · rw [tasks_of_error happly, (cons_of_error happly es).2]
      exact length_fragments_tasks es hg
    · rw [tasks_of_ok happly, (cons_of_ok happly es).2, List.filterMap_append, List.length_append,
        length_fragments_tasks es hg', Event.filterMap_fragment?_tasks, List.flatMap_cons,
        List.length_append, Event.length_fragments]

end Buffer

/-! ## The summary -/

/-- The sum of some results. -/
def Summary.ofResults (rs : List FragmentResult) : Summary where
  applied := rs.countP FragmentResult.isApplied
  alreadyPresent := rs.countP FragmentResult.isPresent
  failed := rs.filterMap FragmentResult.failure?

theorem Summary.add_empty (s : Summary) : s.add {} = s := by simp [Summary.add]

theorem Summary.add_assoc (s t u : Summary) : (s.add t).add u = s.add (t.add u) := by
  simp [Summary.add, Nat.add_assoc]

theorem Summary.ofResults_append (rs later : List FragmentResult) :
    ofResults (rs ++ later) = (ofResults rs).add (ofResults later) := by
  simp [ofResults, Summary.add]

namespace Workspace

variable [StepIds] {depths : SearchDepths} {w : Workspace} {e : Event}

theorem consolidateNoting_fst (depths : SearchDepths) (w : Workspace) (s : Summary) (f : Fragment) :
    (consolidateNoting depths w s f).1
      = s.add (.ofResults (w.results [.consolidate depths f])) := by
  simp only [consolidateNoting, results]
  rcases Consolidation.consolidate depths w.buffer w.main f with _ | ⟨_ | _, main⟩ <;>
    simp [Summary.ofResults, Summary.add, Except.map, FragmentResult.isApplied,
      FragmentResult.isPresent, FragmentResult.failure?]

theorem consolidateAll_fst (depths : SearchDepths) : ∀ (fs : List Fragment) (s : Summary)
    (w : Workspace), (consolidateAll depths fs s w).1
      = s.add (.ofResults (w.results (fs.map (.consolidate depths))))
  | [], s, _ => (Summary.add_empty s).symm
  | f :: fs, s, w => by
    rw [consolidateAll, consolidateAll_fst depths fs, consolidateNoting_fst, consolidateNoting_snd,
      Summary.add_assoc, ← Summary.ofResults_append]
    rfl

theorem buffer_attemptAll_consolidate (depths : SearchDepths) : ∀ (fs : List Fragment)
    (w : Workspace), (w.attemptAll (fs.map (.consolidate depths))).buffer = w.buffer
  | [], _ => rfl
  | f :: fs, w => by
    rw [List.map_cons, attemptAll_cons, buffer_attemptAll_consolidate depths fs,
      ← consolidateNoting_snd depths w {} f, buffer_consolidateNoting]

/-- What a batch adds to a summary. -/
def account (depths : SearchDepths) (w : Workspace) (index : ℕ) (es : List Event) : Summary :=
  let results := w.results (Buffer.tasks depths w.buffer es)
  { Summary.ofResults results with
    events := (Buffer.letIn w.buffer es).length
    fragments := results.length
    rejected := Buffer.refusals w.buffer index es }

theorem buffer_attemptAll_tasks {fs : List Fragment} {g : Graph}
    (h : Buffer.apply w.buffer e = .ok (fs, g)) :
    (w.attemptAll (e.tasks depths fs)).buffer = g := by
  rw [Event.tasks, attemptAll_cons, attempt_record h, buffer_attemptAll_consolidate]

theorem ingest_of_ok {fs : List Fragment} {g : Graph}
    (h : Buffer.apply w.buffer e = .ok (fs, g)) :
    let results := w.results (e.tasks depths fs)
    ingest depths w e = .ok
      ({ Summary.ofResults results with events := 1, fragments := results.length },
        w.attemptAll (e.tasks depths fs)) := by
  intro results
  have hattempt : w.attempt (.record e) = { w with buffer := g } := attempt_record h
  have hresults : results
      = ({ w with buffer := g } : Workspace).results (fs.map (.consolidate depths)) := by
    rw [← hattempt]
    rfl
  have hlength : results.length = fs.length := by
    have hmap := congrArg List.length (map_fragment_results (e.tasks depths fs) w)
    rwa [List.length_map, Event.filterMap_fragment?_tasks] at hmap
  rw [ingest, bind_of_ok h]
  refine congrArg Except.ok (Prod.ext ?_ ?_)
  · rw [consolidateAll_fst, ← hresults, hlength]
    simp [Summary.add, Summary.ofResults]
  · rw [Event.tasks, attemptAll_cons, hattempt]
    exact consolidateAll_snd depths fs _ _

theorem ingest_of_error {err : LineageError} (h : Buffer.apply w.buffer e = .error err) :
    ingest depths w e = .error err := by
  rw [ingest, h]
  rfl

/-- Ingesting a batch adds the account of the batch, and does its tasks. -/
theorem ingestFrom_eq (depths : SearchDepths) : ∀ (es : List Event) (index : ℕ) (s : Summary)
    (w : Workspace), ingestFrom depths index es s w
      = (s.add (w.account depths index es), w.attemptAll (Buffer.tasks depths w.buffer es))
  | [], _, s, w => by
    rw [show w.account depths _ [] = {} from rfl, Summary.add_empty]
    rfl
  | e :: es, index, s, w => by
    rcases happly : Buffer.apply w.buffer e with err | ⟨fs, g⟩
    · rw [ingestFrom, ingest_of_error happly, Buffer.tasks_of_error happly]
      refine (ingestFrom_eq depths es (index + 1) _ w).trans (Prod.ext ?_ rfl)
      simp [account, Summary.add, Summary.reject, Buffer.tasks_of_error happly,
        Buffer.refusals_of_error happly, (Buffer.cons_of_error happly es).2]
    · rw [ingestFrom, ingest_of_ok happly, Buffer.tasks_of_ok happly, attemptAll_append]
      refine (ingestFrom_eq depths es (index + 1) _ _).trans ?_
      rw [buffer_attemptAll_tasks happly, Summary.add_assoc]
      simp [account, Buffer.tasks_of_ok happly, results_append, buffer_attemptAll_tasks happly,
        Buffer.refusals_of_ok happly, (Buffer.cons_of_ok happly es).2, Summary.add,
        Summary.ofResults, Nat.add_comm 1]

theorem buffer_attemptAll_batch : ∀ (es : List Event) (w : Workspace),
    (w.attemptAll (Buffer.tasks depths w.buffer es)).buffer = Buffer.recordAll w.buffer es
  | [], _ => rfl
  | e :: es, w => by
    rcases happly : Buffer.apply w.buffer e with err | ⟨fs, g⟩
    · rw [Buffer.tasks_of_error happly, (Buffer.cons_of_error happly es).1]
      exact buffer_attemptAll_batch es w
    · have hrest := buffer_attemptAll_batch es (w.attemptAll (e.tasks depths fs))
      rw [buffer_attemptAll_tasks happly] at hrest
      rw [Buffer.tasks_of_ok happly, (Buffer.cons_of_ok happly es).1, attemptAll_append, hrest]

end Workspace

/-! ## Invariants of a batch -/

/-- Wherever an invariant holds of the main graph, consolidating a fragment keeps it, and what
becomes of the fragment is of a kind. -/
def Fragment.Maintains [StepIds] (f : Fragment) (depths : SearchDepths) (buffer : Graph)
    (Inv : Graph → Prop) (kind : FragmentResult → Prop) : Prop :=
  ∀ main, Inv main → kind ⟨f, (consolidate depths buffer main f).map Prod.fst⟩
    ∧ Inv ((⟨buffer, main⟩ : Workspace).attempt (.consolidate depths f)).main

/-- After some tasks an invariant holds of the main graph, and what becomes of their fragments is of
a kind. -/
def Workspace.Upholds [StepIds] (w : Workspace) (tasks : List Task) (Inv : Graph → Prop)
    (kind : FragmentResult → Prop) : Prop :=
  (∀ r ∈ w.results tasks, kind r) ∧ Inv (w.attemptAll tasks).main

namespace Workspace

variable [StepIds] {depths : SearchDepths} {w : Workspace} {Inv : Graph → Prop}
  {kind : FragmentResult → Prop}

theorem upholds_nil (h : Inv w.main) : w.Upholds [] Inv kind := ⟨by simp [results], h⟩

theorem Upholds.append {tasks later : List Task} (h : w.Upholds tasks Inv kind)
    (hlater : Inv (w.attemptAll tasks).main → (w.attemptAll tasks).Upholds later Inv kind) :
    w.Upholds (tasks ++ later) Inv kind := by
  obtain ⟨hkind, hlast⟩ := hlater h.2
  rw [← attemptAll_append] at hlast
  exact ⟨results_append tasks later w ▸ List.forall_mem_append.2 ⟨h.1, hkind⟩, hlast⟩

/-- What each of some fragments maintains holds after all of them. -/
theorem upholds_of_maintains : ∀ (fs : List Fragment) {w : Workspace},
    (∀ f ∈ fs, f.Maintains depths w.buffer Inv kind) → Inv w.main →
      w.Upholds (fs.map (.consolidate depths)) Inv kind
  | [], _, _, hinv => upholds_nil hinv
  | f :: fs, w, hfs, hinv => by
    obtain ⟨hkind, hnext⟩ := hfs f List.mem_cons_self w.main hinv
    have hbuffer : (w.attempt (.consolidate depths f)).buffer = w.buffer :=
      buffer_attemptAll_consolidate depths [f] w
    obtain ⟨hkinds, hlast⟩ := upholds_of_maintains fs (w := w.attempt (.consolidate depths f))
      (fun f' hf' => hbuffer ▸ hfs f' (List.mem_cons_of_mem _ hf')) hnext
    exact ⟨List.forall_mem_cons.2 ⟨hkind, hkinds⟩, hlast⟩

/-- What the fragments of an event maintain, where the event is recorded, holds after it. -/
theorem upholds_tasks {e : Event} {fs : List Fragment} {g : Graph}
    (happly : Buffer.apply w.buffer e = .ok (fs, g))
    (hfs : ∀ f ∈ fs, f.Maintains depths g Inv kind) (hinv : Inv w.main) :
    w.Upholds (e.tasks depths fs) Inv kind := by
  have hrecord : w.attempt (.record e) = { w with buffer := g } := attempt_record happly
  have hrest := upholds_of_maintains fs (w := { w with buffer := g }) hfs hinv
  rw [← hrecord] at hrest
  exact hrest

/-- Events that carry no mapping do nothing to the main graph. -/
theorem upholds_of_mappings_eq_nil : ∀ (es : List Event) {w : Workspace}, w.buffer.Identified →
    (∀ e ∈ es, e.mappings = []) → Inv w.main →
      w.Upholds (Buffer.tasks depths w.buffer es) Inv kind
  | [], _, _, _, hinv => upholds_nil hinv
  | e :: es, w, hb, hes, hinv => by
    have hrest := fun e he => hes e (List.mem_cons_of_mem _ he)
    rcases apply_cases hb e with ⟨err, happly⟩ | ⟨name, g, happly, hg, -⟩
    · rw [Buffer.tasks_of_error happly]
      exact upholds_of_mappings_eq_nil es hb hrest hinv
    · have hnone : e.fragments name = [] := List.eq_nil_of_length_eq_zero (by
        rw [e.length_fragments, hes e List.mem_cons_self, List.length_nil])
      rw [Buffer.tasks_of_ok happly]
      refine (upholds_tasks happly (by simp [hnone]) hinv).append fun hinv => ?_
      rw [← buffer_attemptAll_tasks happly] at hg ⊢
      exact upholds_of_mappings_eq_nil es hg hrest hinv

end Workspace

/-! ## Sub-processes -/

namespace Graph

def subProcessCount (g : Graph) : ℕ :=
  (allVertices g).countP fun v => v.label == NodeLabel.subProcess.name

/-- An applied fragment adds one sub-process, and no other. -/
theorem subProcessCount_of_applied [StepIds] {depths : SearchDepths} {buffer main main' : Graph}
    {f : Fragment} {subProcess : String} (hb : buffer.WellFormed) (hm : main.WellFormed)
    (h : consolidate depths buffer main f = .ok (.applied subProcess, main')) :
    main'.subProcessCount = main.subProcessCount + 1 := by
  have hcases := consolidate_cases depths hb hm f
  rw [h] at hcases
  cases hcases with
  | @applied x s u v q _ _ _ hwrites hspans _ hfurnished _ =>
    have hpasses := hspans.passes
    obtain ⟨vs, hvs⟩ := hwrites.grows.vertices
    have hnodup : (allVertices main ++ vs).Nodup :=
      hvs ▸ (hwrites.wellFormed hm).vertices_nodup
    obtain ⟨-, hnodup, hdisjoint⟩ := List.nodup_append.1 hnodup
    have hmem : s ∈ vs :=
      (List.mem_append.1 (hvs.symm ▸ hpasses.mem)).resolve_left hfurnished.step_new
    have honly : ∀ a ∈ vs, (a.label == NodeLabel.subProcess.name) = true ↔ (a == s) = true := by
      intro a ha
      rw [beq_iff_eq, beq_iff_eq]
      refine ⟨fun hlabel => ?_, fun heq => heq ▸ hpasses.label_eq⟩
      exact hwrites.eq_of_new_subProcess hm (hvs ▸ List.mem_append_right _ ha) hpasses.mem hlabel
        hpasses.label_eq (fun hold => hdisjoint a hold a ha rfl) hfurnished.step_new
    rw [subProcessCount, ← hvs, List.countP_append, List.countP_congr honly]
    exact congrArg (_ + ·) (List.count_eq_one_of_mem hnodup hmem)

end Graph

namespace Workspace

variable {depths : SearchDepths} {w : Workspace}

theorem subProcessCount_attempt [StepIds] (hb : w.buffer.WellFormed) (hm : w.main.WellFormed)
    (task : Task) : (w.attempt task).main.subProcessCount
      = w.main.subProcessCount + (w.results [task]).countP FragmentResult.isApplied := by
  cases task with
  | record e =>
    simp only [attempt, results]
    rcases Buffer.apply w.buffer e with _ | ⟨_, _⟩ <;> rfl
  | consolidate depths f =>
    simp only [attempt, results]
    rcases hc : Consolidation.consolidate depths w.buffer w.main f with
      err | ⟨subProcess | _, main⟩
    · rfl
    · exact Graph.subProcessCount_of_applied hb hm hc
    · have hcases := consolidate_cases depths hb hm f
      rw [hc] at hcases
      cases hcases
      rfl

theorem subProcessCount_attemptAll [StepIds] : ∀ (tasks : List Task) {w : Workspace},
    w.buffer.Identified → w.main.WellFormed → (w.attemptAll tasks).main.subProcessCount
      = w.main.subProcessCount + (w.results tasks).countP FragmentResult.isApplied
  | [], _, _, _ => rfl
  | task :: tasks, w, hb, hm => by
    have hlater := later_attempt hb hm task
    have hresults :
        w.results (task :: tasks) = w.results [task] ++ (w.attempt task).results tasks :=
      results_append [task] tasks w
    rw [attemptAll_cons, subProcessCount_attemptAll tasks hlater.buffer hlater.main,
      subProcessCount_attempt hb.toWellFormed hm, hresults, List.countP_append, Nat.add_assoc]

end Workspace

/-! ## The account -/

/-- The events of a batch at places that no rejection names. -/
def Summary.kept (s : Summary) (es : List Event) : List Event :=
  (es.zipIdx.filter fun p => s.rejected.all (·.index != p.2)).map Prod.fst

/-- A summary accounts for all events and fragments of a batch that leads from the workspace `w` to
`w'`. -/
structure Workspace.Accounts [StepIds] (w : Workspace) (depths : SearchDepths) (es : List Event)
    (s : Summary) (w' : Workspace) : Prop where
  events : s.events + s.rejected.length = es.length
  rejected_ascending : s.rejected.Pairwise fun r r' => r.index < r'.index
  /-- The events rejected are those that the buffer graph of their turn refuses. -/
  mem_rejected : ∀ r, r ∈ s.rejected ↔ ∃ e, es[r.index]? = some e ∧ r.kind = e.kind
    ∧ Buffer.apply (w.ingestAll depths (es.take r.index)).2.buffer e = .error r.error
  fragments : s.fragments = ((s.kept es).flatMap Event.mappings).length
  ended : s.fragments = s.applied + s.alreadyPresent + s.failed.length
  failed : s.failed
    = (w.results (Buffer.tasks depths w.buffer es)).filterMap FragmentResult.failure?
  applied : w'.main.subProcessCount = w.main.subProcessCount + s.applied
  /-- Without the rejected events all is the same. -/
  kept : w.ingestAll depths (s.kept es) = ({ s with rejected := [] }, w')

theorem Workspace.Regular.accounts [StepIds] {U : String → Prop} {start : Graph} {w : Workspace}
    (h : w.Regular U start) (depths : SearchDepths) (es : List Event) :
    w.Accounts depths es (w.ingestAll depths es).1 (w.ingestAll depths es).2 := by
  have heq : ∀ es, w.ingestAll depths es
      = (w.account depths 0 es, w.attemptAll (Buffer.tasks depths w.buffer es)) := by
    intro es
    rw [ingestAll, ingestFrom_eq]
    simp [Summary.add]
  have hkept : (w.account depths 0 es).kept es = Buffer.letIn w.buffer es :=
    (Buffer.letIn_eq_filter es w.buffer 0).symm
  have hlength : (w.account depths 0 es).fragments
      = ((Buffer.tasks depths w.buffer es).filterMap Task.fragment?).length := by
    rw [← map_fragment_results _ w, List.length_map]
    rfl
  obtain ⟨hletIn, hrefusals, htasks⟩ := Buffer.run_letIn depths es w.buffer 0
  rw [heq]
  exact {
    events := Buffer.length_letIn es w.buffer 0
    rejected_ascending := Buffer.refusals_ascending es w.buffer 0
    mem_rejected := fun r => by
      rw [heq, buffer_attemptAll_batch]
      refine (Buffer.mem_refusals es).trans ?_
      simp
    fragments := by rw [hlength, hkept, Buffer.length_fragments_tasks es h.buffer]
    ended := FragmentResult.length_eq _
    failed := rfl
    applied := subProcessCount_attemptAll _ h.buffer h.main
    kept := by
      rw [hkept, heq, account, hletIn, hrefusals, htasks]
      rfl }

/-- Whatever was asked of a service on empty graphs before, the summary of a batch accounts for all
events and fragments. -/
theorem Service.accounts_ingestAll [StepIds] (settings : Settings) (ops : List Operation)
    (es : List Event) :
    let s := (initial settings).run ops
    s.workspace.Accounts s.settings.depths es (s.ingestAll es).1 (s.ingestAll es).2.workspace := by
  intro s
  have hreg := regular_run (U := fun _ => True) ops (regular_initial settings)
    fun _ _ _ _ => trivial
  exact hreg.accounts s.settings.depths es

end Lineage
