import Lineage.Proofs.Runs

/-!
# Ingesting again

A batch of events that went through without a failure leaves nothing to do for a second run: every
event is known, every fragment it carries is in the main graph (`Workspace.Settled`), and the values
it gives are those that the last writer left. So the second run finds all fragments present and ends
in the very same graphs (`ingestAll_again`).
-/

namespace Lineage

open Std Consolidation

/-! ## Known events -/

theorem Graph.SameShape.keeps {g g' : Graph} (hg : g.Coherent) (hg' : g'.Coherent)
    (h : g.SameShape g') : g.Keeps g' where
  vertex v hv := by
    have hv := hg.mem_allVertices.1 hv
    have heq := h.vertices_eq v.id
    rw [show g.vertices[v.id]? = some v from hv, Option.map_some] at heq
    obtain ⟨v', hv', hpair⟩ := Option.map_eq_some_iff.1 heq.symm
    obtain ⟨hmem, hid⟩ := hg'.vertex?_eq_some_iff.1 hv'
    obtain ⟨hlabel, hguid⟩ := Prod.mk.inj hpair
    exact ⟨v', hmem, hid, hlabel, hguid⟩
  edges := by
    have heq : allEdges g' = allEdges g := congrArg ExtTreeMap.values h.edges_eq.symm
    exact heq ▸ List.prefix_rfl

namespace Workspace

variable {depths : SearchDepths} {w w' : Workspace}

/-- A fragment is in the main graph, and its columns are in the buffer graph. -/
def Holds (w : Workspace) (f : Fragment) : Prop :=
  (∀ role, ∃ v ∈ allVertices w.buffer, v.guid? = some (f.column role))
    ∧ w.main.Present f.columnIn f.columnOut f.process.guid

/-- An event has nothing to add but values. -/
def Settled (w : Workspace) (e : Event) : Prop :=
  w.buffer.Knows e ∧ ∀ name, ∀ f ∈ e.fragments name, w.Holds f

/-- The graphs have moved on, and both are sound. -/
structure Later (w w' : Workspace) : Prop where
  buffer : w'.buffer.Identified
  main : w'.main.WellFormed
  keeps : w.buffer.Keeps w'.buffer
  grows : w.main.Grows w'.main

theorem Later.refl (hb : w.buffer.Identified) (hm : w.main.WellFormed) : Later w w :=
  ⟨hb, hm, .refl _, .refl _⟩

theorem Later.trans {w'' : Workspace} (h : Later w w') (h' : Later w' w'') : Later w w'' :=
  ⟨h'.buffer, h'.main, h.keeps.trans h'.keeps, h.grows.trans h'.grows⟩

theorem Holds.mono (hm : w.main.WellFormed) (h : Later w w') {f : Fragment} (hf : w.Holds f) :
    w'.Holds f := by
  refine ⟨fun role => ?_, h.grows.present hm.toCoherent h.main.toCoherent hf.2⟩
  obtain ⟨v, hv, hn⟩ := hf.1 role
  obtain ⟨v', hv', -, -, hguid⟩ := h.keeps.vertex v hv
  exact ⟨v', hv', hguid.trans hn⟩

theorem Settled.mono (hm : w.main.WellFormed) (h : Later w w') {e : Event} (he : w.Settled e) :
    w'.Settled e :=
  ⟨h.keeps.knows he.1, fun name f hf => (he.2 name f hf).mono hm h⟩

/-- What is held goes by the columns and the guid of the process alone. -/
theorem Holds.of_eq {f f' : Fragment} (h : w.Holds f) (hin : f'.columnIn = f.columnIn)
    (hout : f'.columnOut = f.columnOut) (hguid : f'.process.guid = f.process.guid) :
    w.Holds f' := by
  refine ⟨fun role => ?_, ?_⟩
  · have := h.1 role
    cases role
    · simpa only [Fragment.column, hin] using this
    · simpa only [Fragment.column, hout] using this
  · rw [hin, hout, hguid]
    exact h.2

theorem holds_fragments {e : Event} {name : Option String} (h : ∀ f ∈ e.fragments name, w.Holds f)
    (name' : Option String) : ∀ f ∈ e.fragments name', w.Holds f := by
  intro f hf
  cases e with
  | processContext p ms =>
    simp only [Event.fragments, List.mem_map] at hf
    obtain ⟨m, hm, rfl⟩ := hf
    exact (h ⟨m.input, m.output, ⟨p.guid, name⟩⟩ (List.mem_map_of_mem hm)).of_eq rfl rfl rfl
  | newEntity => simp [Event.fragments] at hf
  | updatedEntity => simp [Event.fragments] at hf
  | newRelationship => simp [Event.fragments] at hf

/-! ## The first run -/

theorem later_consolidate [StepIds] (hb : w.buffer.Identified) (hm : w.main.WellFormed)
    {f : Fragment} {outcome : Outcome} {main : Graph}
    (heq : Consolidation.consolidate depths w.buffer w.main f = .ok (outcome, main)) :
    Later w { w with main } ∧ Holds { w with main } f := by
  have hcases := consolidate_cases depths hb.toWellFormed hm f
  rw [heq] at hcases
  have hread : ∀ {role inst}, vertexWith? w.buffer Key.guid (f.column role) = some inst →
      ∃ v ∈ allVertices w.buffer, v.guid? = some (f.column role) :=
    fun hinst => ⟨_, hb.mem_of_vertexWith? hinst⟩
  cases hcases with
  | alreadyPresent hcolumns hp =>
    exact ⟨.refl hb hm, fun role => hread (hcolumns role).choose_spec, hp⟩
  | applied _ hplaced hwrites hspans _ _ _ =>
    refine ⟨⟨hb, hwrites.wellFormed hm, .refl _, hwrites.grows⟩, fun role => ?_, hspans.present⟩
    obtain ⟨inst, -, -, hinst, -⟩ := hplaced role
    exact hread hinst

theorem consolidateNoting_cases [StepIds] (hb : w.buffer.Identified) (hm : w.main.WellFormed)
    {s s' : Summary} {f : Fragment} (heq : consolidateNoting depths w s f = (s', w')) :
    Later w w' ∧ w'.buffer = w.buffer ∧ s'.rejected = s.rejected
      ∧ (s'.failed = s.failed ∧ w'.Holds f ∨ s'.failed ≠ []) := by
  unfold consolidateNoting at heq
  split at heq <;> cases heq
  · next main hc =>
    obtain ⟨hlater, hf⟩ := later_consolidate hb hm hc
    exact ⟨hlater, rfl, rfl, .inl ⟨rfl, hf⟩⟩
  · next main hc =>
    obtain ⟨hlater, hf⟩ := later_consolidate hb hm hc
    exact ⟨hlater, rfl, rfl, .inl ⟨rfl, hf⟩⟩
  · exact ⟨.refl hb hm, rfl, rfl, .inr (by simp)⟩

/-- If no fragment has failed in the end, all of them are held. -/
theorem consolidateAll_cases [StepIds] (depths : SearchDepths) :
    ∀ (fs : List Fragment) (s : Summary) {w : Workspace}, w.buffer.Identified → w.main.WellFormed →
      Later w (consolidateAll depths fs s w).2
        ∧ (consolidateAll depths fs s w).2.buffer = w.buffer
        ∧ ((consolidateAll depths fs s w).1.failed = [] → s.failed = []
          ∧ (consolidateAll depths fs s w).1.rejected = s.rejected
          ∧ ∀ f ∈ fs, (consolidateAll depths fs s w).2.Holds f)
  | [], s, w, hb, hm => ⟨.refl hb hm, rfl, fun h => ⟨h, rfl, by simp⟩⟩
  | f :: fs, s, w, hb, hm => by
    unfold consolidateAll
    rcases hstep : consolidateNoting depths w s f with ⟨s', w'⟩
    obtain ⟨hlater, hbuffer, hrejected, hf⟩ := consolidateNoting_cases hb hm hstep
    obtain ⟨hlater', hbuffer', hrest⟩ := consolidateAll_cases depths fs s' hlater.buffer hlater.main
    refine ⟨hlater.trans hlater', hbuffer'.trans hbuffer, fun h => ?_⟩
    obtain ⟨hfailed, hrejected', hfs⟩ := hrest h
    rcases hf with ⟨hs, hf⟩ | hne
    · refine ⟨hs ▸ hfailed, hrejected'.trans hrejected, ?_⟩
      exact List.forall_mem_cons.2 ⟨hf.mono hlater.main hlater', hfs⟩
    · exact absurd hfailed hne

theorem ingest_cases [StepIds] (hb : w.buffer.Identified) (hm : w.main.WellFormed) {e : Event}
    {s : Summary} (hin : ingest depths w e = .ok (s, w')) : Later w w'
      ∧ (∀ n k, k ≠ Key.guid →
        w'.buffer.value n k = (e.assigned n k).or (w.buffer.value n k))
      ∧ (s.failed = [] → s.rejected = [] ∧ w'.Settled e) := by
  unfold ingest at hin
  rcases apply_cases hb e with ⟨err, happly⟩ | ⟨name, g, happly, hg, hkeeps, hknows, hvalue⟩
  · rw [happly] at hin
    cases hin
  rw [bind_of_ok happly] at hin
  let w₁ : Workspace := { w with buffer := g }
  have hrecord : Later w w₁ := ⟨hg, hm, hkeeps, .refl _⟩
  obtain ⟨hlater, hbuffer, hclean⟩ := consolidateAll_cases depths (e.fragments name)
    { events := 1, fragments := (e.fragments name).length } (w := w₁) hg hm
  have hpair : consolidateAll depths (e.fragments name)
      { events := 1, fragments := (e.fragments name).length } w₁ = (s, w') := Except.ok.inj hin
  rw [hpair] at hlater hbuffer hclean
  refine ⟨hrecord.trans hlater, fun n k hk => ?_, fun hfailed => ?_⟩
  · rw [hbuffer]
    exact hvalue n k hk
  · obtain ⟨-, hrejected, hholds⟩ := hclean hfailed
    exact ⟨hrejected, hlater.keeps.knows hknows, fun name' => holds_fragments hholds name'⟩

/-- A run without a failure leaves every event settled, and the last writer's values. -/
theorem ingestFrom_of_isClean [StepIds] : ∀ (es : List Event) (index : Nat) (s : Summary)
    {w : Workspace}, w.buffer.Identified → w.main.WellFormed →
    (ingestFrom depths index es s w).1.isClean = true →
      s.isClean = true ∧ Later w (ingestFrom depths index es s w).2
        ∧ (∀ e ∈ es, (ingestFrom depths index es s w).2.Settled e)
        ∧ ∀ n k, k ≠ Key.guid → (ingestFrom depths index es s w).2.buffer.value n k
          = (assignedLast n k es).or (w.buffer.value n k)
  | [], index, s, w, hb, hm, h => ⟨h, .refl hb hm, by simp, fun n k _ => rfl⟩
  | e :: es, index, s, w, hb, hm, h => by
    unfold ingestFrom at h ⊢
    rcases hin : ingest depths w e with error | ⟨s₁, w₁⟩
    · simp only [hin] at h ⊢
      have := (ingestFrom_of_isClean es _ _ hb hm h).1
      simp [Summary.isClean, Summary.reject] at this
    · simp only [hin] at h ⊢
      obtain ⟨hlater, hvalue, hsettled⟩ := ingest_cases hb hm hin
      obtain ⟨hs, hlater', hes, hvalue'⟩ := ingestFrom_of_isClean es _ _ hlater.buffer hlater.main h
      simp only [Summary.isClean, Summary.add, Bool.and_eq_true, List.isEmpty_iff,
        List.append_eq_nil_iff] at hs
      obtain ⟨⟨hf, hf₁⟩, hr, hr₁⟩ := hs
      refine ⟨by simp [Summary.isClean, hf, hr], hlater.trans hlater', ?_, fun n k hk => ?_⟩
      · exact List.forall_mem_cons.2 ⟨(hsettled hf₁).2.mono hlater.main hlater', hes⟩
      · rw [hvalue' n k hk, hvalue n k hk, assignedLast, Option.or_assoc]

/-! ## The second run -/

theorem consolidate_of_holds [StepIds] (depths : SearchDepths) (hb : w.buffer.Identified)
    (hm : w.main.WellFormed) {f : Fragment} (h : w.Holds f) :
    Consolidation.consolidate depths w.buffer w.main f = .ok (.alreadyPresent, w.main) := by
  have hcases := consolidate_cases depths hb.toWellFormed hm f
  generalize Consolidation.consolidate depths w.buffer w.main f = result at hcases
  cases hcases with
  | notFound hmissing =>
    obtain ⟨v, hv, hn⟩ := h.1 _
    exact absurd hn (hb.vertexWith?_eq_none_iff.1 hmissing v hv)
  | alreadyPresent _ _ => rfl
  | missingTable habsent _ _ => exact absurd h.2 habsent
  | applied habsent _ _ _ _ _ _ => exact absurd h.2 habsent

theorem consolidateAll_of_holds [StepIds] (depths : SearchDepths) :
    ∀ (fs : List Fragment) (s : Summary) {w : Workspace}, w.buffer.Identified →
      w.main.WellFormed → (∀ f ∈ fs, w.Holds f) →
      consolidateAll depths fs s w
        = ({ s with alreadyPresent := s.alreadyPresent + fs.length }, w)
  | [], _, _, _, _, _ => rfl
  | f :: fs, s, w, hb, hm, h => by
    have hf := consolidate_of_holds depths hb hm (h f List.mem_cons_self)
    have hrest := consolidateAll_of_holds depths fs
      { s with alreadyPresent := s.alreadyPresent + 1 } hb hm
      fun f hf => h f (List.mem_cons_of_mem _ hf)
    unfold consolidateAll consolidateNoting
    simp only [hf]
    rw [hrest]
    simp only [List.length_cons, Nat.add_assoc, Nat.add_comm 1]

/-- The number of fragments that some events carry. -/
def carried : List Event → Nat
  | [] => 0
  | e :: es => (e.fragments none).length + carried es

theorem length_fragments (e : Event) (name name' : Option String) :
    (e.fragments name).length = (e.fragments name').length := by
  cases e <;> simp [Event.fragments]

/-- A second run finds every fragment present, and changes values alone. -/
theorem ingestFrom_of_settled [StepIds] (depths : SearchDepths) : ∀ (es : List Event) (index : Nat)
    (s : Summary) {w : Workspace},
    w.buffer.Identified → w.main.WellFormed → (∀ e ∈ es, w.Settled e) →
      (ingestFrom depths index es s w).1 = s.add
          { events := es.length, fragments := carried es, alreadyPresent := carried es }
        ∧ (ingestFrom depths index es s w).2.main = w.main
        ∧ (ingestFrom depths index es s w).2.buffer.Identified
        ∧ w.buffer.SameShape (ingestFrom depths index es s w).2.buffer
        ∧ ∀ n k, k ≠ Key.guid → (ingestFrom depths index es s w).2.buffer.value n k
          = (assignedLast n k es).or (w.buffer.value n k)
  | [], index, s, w, hb, hm, h => by
    refine ⟨?_, rfl, hb, .refl _, fun n k _ => rfl⟩
    simp [ingestFrom, Summary.add, carried]
  | e :: es, index, s, w, hb, hm, h => by
    obtain ⟨hknows, hholds⟩ := h e List.mem_cons_self
    obtain ⟨name, g, happly, hg, hshape, hvalue⟩ := apply_known hb hknows
    let w₁ : Workspace := { w with buffer := g }
    have hlater : Later w w₁ :=
      ⟨hg, hm, hshape.keeps hb.toCoherent hg.toCoherent, .refl _⟩
    have hall := consolidateAll_of_holds depths (e.fragments name)
      { events := 1, fragments := (e.fragments name).length } (w := w₁) hg hm
      fun f hf => (hholds name f hf).mono hm hlater
    have hin : ingest depths w e = .ok ({ events := 1, fragments := (e.fragments name).length
                                          alreadyPresent := (e.fragments name).length }, w₁) := by
      refine (bind_of_ok happly _).trans (congrArg Except.ok (hall.trans ?_))
      simp
    obtain ⟨hsum, hmain, hident, hshape', hvalue'⟩ :=
      ingestFrom_of_settled depths es (index + 1) (s.add _) (w := w₁) hg hm
        fun e' he' => (h e' (List.mem_cons_of_mem _ he')).mono hm hlater
    unfold ingestFrom
    simp only [hin]
    refine ⟨hsum.trans ?_, hmain, hident, hshape.trans hshape', fun n k hk => ?_⟩
    · simp [Summary.add, carried, Nat.add_assoc, Nat.add_comm 1, length_fragments e name none]
    · rw [hvalue' n k hk, hvalue n k hk, assignedLast, Option.or_assoc]

end Workspace

/-- Ingesting a batch again that went through without a failure finds everything present: the second
summary is clean, counts every fragment as already present, and the service stays as it was. -/
theorem ingestAll_again [StepIds] (settings : Settings) (ops : List Operation) (es : List Event)
    (hclean : (((Service.initial settings).run ops).ingestAll es).1.isClean = true) :
    let s := (((Service.initial settings).run ops).ingestAll es).2
    (s.ingestAll es).1.isClean = true ∧ (s.ingestAll es).1.applied = 0
      ∧ (s.ingestAll es).1.alreadyPresent = (s.ingestAll es).1.fragments
      ∧ (s.ingestAll es).2 = s := by
  intro s
  have hreg := Service.regular_run (U := fun _ => True) ops (Service.regular_initial settings)
    fun _ _ _ _ => trivial
  obtain ⟨-, hlater, hsettled, hvalue⟩ :=
    Workspace.ingestFrom_of_isClean es 0 {} hreg.buffer hreg.main hclean
  obtain ⟨hsum, hmain, hident, hshape, hvalue'⟩ := Workspace.ingestFrom_of_settled
    s.settings.depths es 0 {} hlater.buffer hlater.main hsettled
  have hbuffer : (s.workspace.ingestAll s.settings.depths es).2.buffer = s.workspace.buffer := by
    refine (hlater.buffer.eq_of_sameShape hident hshape fun n k hk => ?_).symm
    rw [hvalue' n k hk, hvalue n k hk, ← Option.or_assoc, Option.or_self]
  have hsummary : (s.ingestAll es).1 = _ := hsum
  refine ⟨by simp [hsummary, Summary.isClean, Summary.add], by simp [hsummary, Summary.add],
    by simp [hsummary, Summary.add], ?_⟩
  show s.withWorkspace (s.workspace.ingestAll s.settings.depths es).2 = s
  have hw : (s.workspace.ingestAll s.settings.depths es).2 = s.workspace :=
    congrArg₂ Workspace.mk hbuffer hmain
  rw [hw]
  rfl

theorem ingestAll_again_sampleBatch :
    (((Service.initial {}).run [.consolidate ⟨"a", "b", ⟨"p", none⟩⟩]).ingestAll
      sampleBatch).1.isClean = true
    ∧ let s := (((Service.initial {}).run [.consolidate ⟨"a", "b", ⟨"p", none⟩⟩]).ingestAll
        sampleBatch).2
      (s.ingestAll sampleBatch).1.isClean = true ∧ (s.ingestAll sampleBatch).1.applied = 0
        ∧ (s.ingestAll sampleBatch).1.alreadyPresent = (s.ingestAll sampleBatch).1.fragments
        ∧ (s.ingestAll sampleBatch).2 = s :=
  ⟨by decide +kernel, ingestAll_again {} _ sampleBatch (by decide +kernel)⟩

end Lineage
