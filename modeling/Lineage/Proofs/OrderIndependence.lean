import Lineage.Proofs.Completeness
import Lineage.Proofs.Roles

/-!
# Order independence

Where each guid plays one role, the main graph that a list of fragments leads to is made of the
items of the fragments that are placed in the buffer and has them all (`Gathered`), whatever was
found, skipped or refused on the way. So it depends on the set of the fragments alone
(`consolidateAll_sameContent`).
-/

namespace Lineage

open Std Consolidation

/-- The items of the fragments `D` whose columns and tables are in the buffer. -/
def PlacedItem (depths : SearchDepths) (buffer : Graph) (D : Fragment → Prop) (i : Item) : Prop :=
  ∃ f, D f ∧ Placed depths buffer f ∧ ExactItem depths buffer f i

/-- The guids that the buffer and the fragments `F` name. -/
def InUse (buffer : Graph) (F : Fragment → Prop) (n : String) : Prop :=
  (∃ v ∈ allVertices buffer, v.guid? = some n) ∨ ∃ f, F f ∧ n ∈ f.guids

instance {buffer : Graph} {fs : List Fragment} : DecidablePred (InUse buffer (· ∈ fs)) := fun n =>
  inferInstanceAs (Decidable ((∃ v ∈ allVertices buffer, v.guid? = some n)
    ∨ ∃ f, f ∈ fs ∧ n ∈ f.guids))

theorem Roles.mono {buffer : Graph} {T : String → Prop} {F D : Fragment → Prop}
    (h : Roles buffer T F) (hD : ∀ f, D f → F f) : Roles buffer T D where
  column_not_table f hf := h.column_not_table f (hD f hf)
  assignment := h.assignment
  synonym := h.synonym
  term_not_column f hf := h.term_not_column f (hD f hf)
  term_not_table := h.term_not_table
  process_not_column f hf f' hf' := h.process_not_column f (hD f hf) f' (hD f' hf')
  process_not_table f hf := h.process_not_table f (hD f hf)
  process_not_term f hf := h.process_not_term f (hD f hf)
  process_eq f hf f' hf' := h.process_eq f (hD f hf) f' (hD f' hf')

section Gathered

variable {depths : SearchDepths} {buffer : Graph} {name : String} {T : String → Prop}
  {F D : Fragment → Prop} {f : Fragment} {g : Graph}

theorem PlacedItem.mono {D' : Fragment → Prop} (h : ∀ f, D f → D' f) {i : Item} :
    PlacedItem depths buffer D i → PlacedItem depths buffer D' i
  | ⟨f, hf, hplaced, hi⟩ => ⟨f, h f hf, hplaced, hi⟩

/-- The items of a placed fragment are such as consolidation writes. -/
theorem ExactItem.isWithin (hb : buffer.Identified) (hf : F f) (hplaced : Placed depths buffer f)
    {i : Item} (hi : ExactItem depths buffer f i) : i.Within (InUse buffer F) := by
  choose inst table n hinst henc using hplaced
  have hx : ∀ role inst' table' n', vertexWith? buffer Key.guid (f.column role) = some inst' →
      Enclosed depths buffer inst' table' n' → (table role).guid? = some n' := by
    intro role inst' table' n' hinst' henc'
    obtain rfl := Option.some.inj ((hinst role).symm.trans hinst')
    obtain ⟨rfl, rfl⟩ := (henc role).unique henc'
    exact henc'.2
  exact ((fragmentItem_iff hb hx).2 hi).within (fun v hv n hn => .inl ⟨v, hv, hn⟩) hb.toWellFormed
    fun n hn => .inr ⟨f, hf, hn⟩

theorem PlacedItem.consistent (hb : buffer.Identified) (hr : Roles buffer T F)
    (hD : ∀ f, D f → F f) : Consistent (InUse buffer F) (PlacedItem depths buffer D) where
  within := by
    rintro i ⟨f, hf, hplaced, hi⟩
    exact hi.isWithin hb (hD f hf) hplaced
  node_unique := by
    rintro l l' n ps ps' ⟨f, hf, -, hi⟩ ⟨f', hf', -, hi'⟩
    exact (hi.standing hb hr (hD f hf)).unique hb hr (hi'.standing hb hr (hD f' hf'))
  node_ne_process := by
    rintro l n ps p ⟨f, hf, -, hi⟩ ⟨f', hf', -, hi'⟩ rfl
    obtain rfl := hi'.eq_of_process
    cases hi.standing hb hr (hD f hf) with
    | column hf'' hc _ _ => exact hr.process_not_column f' (hD f' hf') _ hf'' _ hc.symm
    | table hv hn hlike _ => exact hr.process_not_table f' (hD f' hf') _ hv hlike hn
    | term _ _ hT => exact hr.process_not_term f' (hD f' hf') hT
  process_unique := by
    rintro p p' ⟨f, hf, -, hi⟩ ⟨f', hf', -, hi'⟩ hguid
    obtain rfl := hi.eq_of_process
    obtain rfl := hi'.eq_of_process
    exact hr.process_eq f (hD f hf) f' (hD f' hf') hguid
  step_process := by
    rintro f ⟨f', hf', hplaced, hi⟩
    obtain rfl := hi.eq_of_step
    exact ⟨f, hf', hplaced, .core .process⟩

variable [StepIds]

/-- A graph made of the items of the fragments `D`, that has them all. -/
structure Gathered (depths : SearchDepths) (buffer : Graph) (name : String) (D : Fragment → Prop)
    (g : Graph) : Prop where
  writes : Writes (PlacedItem depths buffer D) (.empty name) g
  has : ∀ i, PlacedItem depths buffer D i → g.Has i

namespace Gathered

theorem wellFormed (h : Gathered depths buffer name D g) : g.WellFormed :=
  h.writes.wellFormed (Graph.wellFormed_empty name)

theorem complete (hb : buffer.Identified) (hr : Roles buffer T F) (hD : ∀ f, D f → F f)
    (hfresh : g.FreshSteps (InUse buffer F)) (h : Gathered depths buffer name D g) :
    Complete (InUse buffer F) (PlacedItem depths buffer D) g := by
  have hwrites : Writes (Item.Within (InUse buffer F)) (.empty name) g :=
    h.writes.mono (PlacedItem.consistent hb hr hD).within
  exact ⟨h.wellFormed, h.writes.made, hwrites.wellStepped hfresh, hwrites.named hfresh, hfresh,
    h.has⟩

/-- A fragment that is not placed adds no items. -/
theorem skip (h : Gathered depths buffer name D g) (hf : ¬ Placed depths buffer f) :
    Gathered depths buffer name (fun d => D d ∨ d = f) g where
  writes := h.writes.mono fun _ => PlacedItem.mono fun _ => .inl
  has := by
    rintro i ⟨d, hd | rfl, hplaced, hi⟩
    · exact h.has i ⟨d, hd, hplaced, hi⟩
    · exact absurd hplaced hf

/-- A fragment that is present is one that was folded in before. -/
theorem mem_of_present (hb : buffer.Identified) (hr : Roles buffer T F) (hD : ∀ f, D f → F f)
    (hfresh : g.FreshSteps (InUse buffer F)) (h : Gathered depths buffer name D g) (hf : F f)
    (hpresent : g.Present f.columnIn f.columnOut f.process.guid) : D f := by
  have hcomplete := h.complete hb hr hD hfresh
  have hg := h.wellFormed
  obtain ⟨u, w, hu, hw, s, hs, hlabel, hguid, hin, hout⟩ := hpresent
  obtain ⟨humem, hun⟩ := hg.mem_of_vertexWith? hu
  obtain ⟨hwmem, hwn⟩ := hg.mem_of_vertexWith? hw
  obtain ⟨f', u', w', q, ⟨d, hd, -, hi⟩, hstep⟩ :=
    hcomplete.exists_stepOf (PlacedItem.consistent hb hr hD) hs hlabel
  obtain rfl := hi.eq_of_step
  obtain rfl : u = u' := hg.eq_of_vertex_id humem hstep.source_mem
    (hstep.isStep.source_eq hg.toCoherent hin)
  obtain rfl : w = w' := hg.eq_of_vertex_id hwmem hstep.target_mem
    (hstep.isStep.target_eq hg.toCoherent hout)
  have hprocess : f.process = f'.process := hr.process_eq f hf f' (hD f' hd)
    (Option.some.inj (hguid.symm.trans (Complete.guid?_stepOf hstep)))
  have hcolumnIn : f.columnIn = f'.columnIn := Option.some.inj (hun.symm.trans hstep.source_id)
  have hcolumnOut : f.columnOut = f'.columnOut := Option.some.inj (hwn.symm.trans hstep.target_id)
  exact Fragment.ext hcolumnIn hcolumnOut hprocess ▸ hd

/-- A vertex with the guid of a column was written for the column of a fragment before. -/
theorem exists_column (hb : buffer.Identified) (hr : Roles buffer T F) (hD : ∀ f, D f → F f)
    (hfresh : g.FreshSteps (InUse buffer F)) (h : Gathered depths buffer name D g) (hf : F f)
    {role : TableRole} {u : Vertex} (hu : u ∈ allVertices g)
    (hun : u.nodeId? = some (f.column role)) :
    ∃ d role', D d ∧ Placed depths buffer d ∧ d.column role' = f.column role := by
  cases h.writes.made.vertex u hu with
  | node hi _ hn =>
    obtain rfl := Option.some.inj (hun.symm.trans hn)
    obtain ⟨d, hd, hplaced, hi⟩ := hi
    have hrD : Roles buffer T fun d => D d ∧ Placed depths buffer d := hr.mono fun d hd => hD d hd.1
    obtain ⟨d', role', hd', hc⟩ := (hi.standing hb hrD ⟨hd, hplaced⟩).exists_column hr hf
    exact ⟨d', role', hd'.1, hd'.2, hc⟩
  | process hi _ hps =>
    obtain ⟨d, hd, -, hi⟩ := hi
    obtain rfl := hi.eq_of_process
    have hguid := Option.some.inj ((nodeId?_of_processProperties hps).symm.trans hun)
    exact absurd hguid (hr.process_not_column d (hD d hd) f hf role)
  | step _ hl _ =>
    refine absurd (.inr ⟨f, hf, ?_⟩) (hfresh u hu hl _ hun)
    cases role <;> simp [Fragment.column, Fragment.guids]

/-- What a column brings along that was there before was written with it. -/
theorem has_of_skipped (hb : buffer.Identified) (hr : Roles buffer T F) (hD : ∀ f, D f → F f)
    (hfresh : g.FreshSteps (InUse buffer F)) (h : Gathered depths buffer name D g) (hf : F f)
    {i : Item} (hi : SkippedAsset depths buffer g f i) : g.Has i := by
  obtain ⟨role, inst, hinst, hi, ⟨u, hu, hun⟩ | ⟨other, l, ps, hother, hattach⟩⟩ := hi
  · obtain ⟨d, role', hd, hplaced, hc⟩ := h.exists_column hb hr hD hfresh hf hu hun
    rw [← hc] at hinst hi
    exact h.has i ⟨d, hd, hplaced, .core (.asset hinst hi)⟩
  · -- a column is no term of another
    obtain ⟨hmem, hguid⟩ := hb.mem_of_vertexWith? hother
    have hT := (hattach.standing depths hr hmem hguid
      (hr.term_not_column f hf .input)).2
    exact absurd hT (hr.term_not_column f hf role)

/-- A fragment that is applied adds its items. -/
theorem applied (hb : buffer.Identified) (hr : Roles buffer T F) (hD : ∀ f, D f → F f)
    {g' : Graph} {x : TableRole → Vertex} (hfresh : g'.FreshSteps (InUse buffer F))
    (h : Gathered depths buffer name D g) (hf : F f)
    (hplaced : ∀ role, ∃ inst table n, vertexWith? buffer Key.guid (f.column role) = some inst
      ∧ Enclosed depths buffer inst table n ∧ vertexWith? g' Key.nodeId n = some (x role))
    (hwrites : Writes (FragmentItem depths buffer f x) g g')
    (hhas : ∀ i, FragmentItem depths buffer f x i → g'.Has i ∨ SkippedAsset depths buffer g f i) :
    Gathered depths buffer name (fun d => D d ∨ d = f) g' := by
  have hU : ∀ i, FragmentItem depths buffer f x i → i.Within (InUse buffer F) := fun i hi =>
    hi.within (fun v hv n hn => .inl ⟨v, hv, hn⟩) hb.toWellFormed fun n hn => .inr ⟨f, hf, hn⟩
  have hg' := hwrites.wellFormed h.wellFormed
  have hnamed : Named (InUse buffer F) (allVertices g') :=
    ((h.writes.mono (PlacedItem.consistent hb hr hD).within).trans (hwrites.mono hU)).named hfresh
  have hx := guid_of_placed hb (fun v hv n hn => .inl ⟨v, hv, hn⟩) hg' hnamed hfresh hplaced
  have hplaced' : Placed depths buffer f := fun role => by
    obtain ⟨inst, table, n, hinst, henc, -⟩ := hplaced role
    exact ⟨inst, table, n, hinst, henc⟩
  refine ⟨(h.writes.mono fun _ => PlacedItem.mono fun _ => .inl).trans (hwrites.mono fun i hi =>
    ⟨f, .inr rfl, hplaced', (fragmentItem_iff hb hx).1 hi⟩), ?_⟩
  rintro i ⟨d, hd | rfl, hplaced, hi⟩
  · exact hwrites.grows.has (h.has i ⟨d, hd, hplaced, hi⟩)
  · rcases hhas i ((fragmentItem_iff hb hx).2 hi) with hhas | hskipped
    · exact hhas
    · exact hwrites.grows.has (h.has_of_skipped hb hr hD
        (hwrites.grows.freshSteps hfresh) hf hskipped)

theorem consolidateNoting (hb : buffer.Identified) (hr : Roles buffer T F) (hD : ∀ f, D f → F f)
    (h : Gathered depths buffer name D g) (hf : F f) {s : Summary}
    (hfresh : (Workspace.consolidateNoting depths ⟨buffer, g⟩ s f).2.main.FreshSteps
      (InUse buffer F)) :
    Gathered depths buffer name (fun d => D d ∨ d = f)
      (Workspace.consolidateNoting depths ⟨buffer, g⟩ s f).2.main := by
  have hcases := consolidate_cases depths hb.toWellFormed h.wellFormed f
  unfold Workspace.consolidateNoting at hfresh ⊢
  generalize Consolidation.consolidate depths buffer g f = r at hcases hfresh ⊢
  cases hcases with
  | @notFound role hnone =>
    refine h.skip fun hplaced => ?_
    obtain ⟨inst, _, _, hinst, _⟩ := hplaced role
    rw [hnone] at hinst
    cases hinst
  | @missingTable role inst _ hinst hmissing =>
    refine h.skip fun hplaced => ?_
    obtain ⟨inst', table, n, hinst', henc⟩ := hplaced role
    obtain rfl := Option.some.inj (hinst.symm.trans hinst')
    exact hmissing table n henc
  | alreadyPresent _ hpresent =>
    have hmem := h.mem_of_present hb hr hD hfresh hf hpresent
    refine ⟨h.writes.mono fun _ => PlacedItem.mono fun _ => .inl, ?_⟩
    rintro i ⟨d, hd | rfl, hplaced, hi⟩
    · exact h.has i ⟨d, hd, hplaced, hi⟩
    · exact h.has i ⟨d, hmem, hplaced, hi⟩
  | applied _ hplaced hwrites _ hhas _ _ =>
    exact h.applied hb hr hD hfresh hf hplaced hwrites hhas

theorem empty : Gathered depths buffer name (fun _ => False) (.empty name) where
  writes := .refl _
  has := by
    rintro i ⟨f, hf, -⟩
    exact hf.elim

end Gathered

theorem regular_self (hb : buffer.Identified) (hg : g.WellFormed) :
    Workspace.Regular (InUse buffer F) g ⟨buffer, g⟩ :=
  ⟨hb, fun v hv _ hn => .inl ⟨v, hv, hn⟩, hg, .refl g⟩

theorem grows_consolidateAll (depths : SearchDepths) (hb : buffer.Identified)
    (hg : g.WellFormed) (fs : List Fragment) (s : Summary) :
    g.Grows (Workspace.consolidateAll depths fs s ⟨buffer, g⟩).2.main := by
  have hmoves := Workspace.moves_consolidateAll depths (U := InUse buffer (· ∈ fs)) fs s
    ⟨buffer, g⟩ fun f hf n hn => .inr ⟨f, hf, hn⟩
  exact (hmoves.regular (regular_self hb hg)).writes.grows

theorem wellFormed_consolidateNoting (depths : SearchDepths) (hb : buffer.Identified)
    (hg : g.WellFormed) (f : Fragment) (s : Summary) :
    (Workspace.consolidateNoting depths ⟨buffer, g⟩ s f).2.main.WellFormed := by
  have hmoves := Workspace.moves_consolidateNoting depths (U := InUse buffer (· = f))
    ⟨buffer, g⟩ s fun n hn => .inr ⟨f, rfl, hn⟩
  exact (hmoves.regular (regular_self hb hg)).main

theorem buffer_consolidateNoting (depths : SearchDepths) (s : Summary) (w : Workspace)
    (f : Fragment) : (Workspace.consolidateNoting depths w s f).2.buffer = w.buffer := by
  unfold Workspace.consolidateNoting
  split <;> rfl

/-- What the fragments of a list are made of is gathered, one fragment after the other. -/
theorem Gathered.consolidateAll (depths : SearchDepths) (name : String) (hb : buffer.Identified)
    (hr : Roles buffer T F) :
    ∀ (fs : List Fragment) (s : Summary) {D : Fragment → Prop} {g : Graph}, (∀ f, D f → F f) →
      (∀ f ∈ fs, F f) → Gathered depths buffer name D g →
      (Workspace.consolidateAll depths fs s ⟨buffer, g⟩).2.main.FreshSteps (InUse buffer F) →
      Gathered depths buffer name (fun d => D d ∨ d ∈ fs)
        (Workspace.consolidateAll depths fs s ⟨buffer, g⟩).2.main
  | [], _, _, _, _, _, h, _ => by simpa [Workspace.consolidateAll] using h
  | f :: fs, s, D, g, hD, hfs, h, hfresh => by
    have hbuffer := buffer_consolidateNoting depths s ⟨buffer, g⟩ f
    have hwf := wellFormed_consolidateNoting depths hb h.wellFormed f s
    have hfirst := h.consolidateNoting hb hr hD (hfs f List.mem_cons_self) (s := s)
    unfold Workspace.consolidateAll at hfresh ⊢
    generalize Workspace.consolidateNoting depths ⟨buffer, g⟩ s f = r at hbuffer hwf hfirst hfresh ⊢
    obtain ⟨s', buffer', g'⟩ := r
    obtain rfl : buffer = buffer' := hbuffer.symm
    have hgrows := grows_consolidateAll depths hb hwf fs s'
    have hrest := Gathered.consolidateAll depths name hb hr fs s' (D := fun d => D d ∨ d = f)
      (fun d hd => hd.elim (hD d) fun heq => heq ▸ hfs f List.mem_cons_self)
      (fun d hd => hfs d (List.mem_cons_of_mem _ hd)) (hfirst (hgrows.freshSteps hfresh)) hfresh
    simpa only [List.mem_cons, or_assoc] using hrest

end Gathered

/-- Where each guid plays one role and no sub-process goes by a guid in use, the main graphs that
two lists of the same fragments lead to say the same, in whatever order the fragments come and
however often. -/
theorem consolidateAll_sameContent [StepIds] {buffer : Graph} (hbuilt : Buffer.Built buffer)
    (depths : SearchDepths) (name : String) (T : String → Prop) {fs fs' : List Fragment}
    (hset : ∀ f, f ∈ fs ↔ f ∈ fs') (hroles : Roles buffer T (· ∈ fs))
    (hfresh : (Workspace.consolidateAll depths fs {} ⟨buffer, .empty name⟩).2.main.FreshSteps
      (InUse buffer (· ∈ fs)))
    (hfresh' : (Workspace.consolidateAll depths fs' {} ⟨buffer, .empty name⟩).2.main.FreshSteps
      (InUse buffer (· ∈ fs))) :
    (Workspace.consolidateAll depths fs {} ⟨buffer, .empty name⟩).2.main.SameContent
      (Workspace.consolidateAll depths fs' {} ⟨buffer, .empty name⟩).2.main := by
  have hb := hbuilt.identified
  have hgathered := Gathered.consolidateAll depths name hb hroles fs {}
    (fun _ hf => hf.elim) (fun _ hf => hf) .empty hfresh
  have hgathered' := Gathered.consolidateAll depths name hb hroles fs' {}
    (fun _ hf => hf.elim) (fun f hf => (hset f).2 hf) .empty hfresh'
  simp only [false_or] at hgathered hgathered'
  have hsame : (· ∈ fs' : Fragment → Prop) = (· ∈ fs) := funext fun f => propext (hset f).symm
  rw [hsame] at hgathered'
  exact (hgathered.complete hb hroles (fun _ hf => hf) hfresh).sameContent
    (hgathered'.complete hb hroles (fun _ hf => hf) hfresh')
    (PlacedItem.consistent hb hroles fun _ hf => hf)

/-- A buffer with two terms that are synonyms of each other. -/
def sampleBuffer : Graph :=
  Buffer.recordAll (.empty "buffer") (sampleBatch ++
    [.newEntity { guid := "g", type := "GlossaryTerm" },
      .newEntity { guid := "h", type := "GlossaryTerm" },
      .newRelationship { guid := "i", type := "SemanticAssignment", endOne := "a", endTwo := "g" },
      .newRelationship { guid := "j", type := "SemanticAssignment", endOne := "b", endTwo := "h" },
      .newRelationship { guid := "k", type := "Synonym", endOne := "h", endTwo := "g" }])

def sampleFragments : List Fragment :=
  [⟨"a", "b", ⟨"p", none⟩⟩, ⟨"a", "z", ⟨"p", none⟩⟩, ⟨"b", "a", ⟨"q", some "load"⟩⟩]

theorem roles_sampleBuffer : Roles sampleBuffer (· ∈ ["g", "h"]) (· ∈ sampleFragments) := by
  have hassignment : ∀ u ∈ allVertices sampleBuffer, ∀ v ∈ allVertices sampleBuffer,
      ∀ m ∈ u.guid?, ∀ n ∈ v.guid?, sampleBuffer.Related TypeName.semanticAssignment u v →
        (m ∈ ["g", "h"] ↔ n ∉ ["g", "h"]) := by decide +kernel
  have hsynonym : ∀ u ∈ allVertices sampleBuffer, ∀ v ∈ allVertices sampleBuffer,
      ∀ m ∈ u.guid?, ∀ n ∈ v.guid?, sampleBuffer.Related TypeName.synonym u v →
        m ∈ ["g", "h"] ∧ n ∈ ["g", "h"] := by decide +kernel
  have hterm : ∀ v ∈ allVertices sampleBuffer, ∀ n ∈ v.guid?,
      TypeName.isTableLike v.label = true → n ∉ ["g", "h"] := by decide +kernel
  refine ⟨?_, fun u hu v hv m n hm hn => hassignment u hu v hv m hm n hn,
    fun u hu v hv m n hm hn => hsynonym u hu v hv m hm n hn, ?_, fun v hv n hn => hterm v hv n hn,
    ?_, ?_, ?_, ?_⟩
  · decide +kernel
  · decide +kernel
  · decide +kernel
  · decide +kernel
  · decide +kernel
  · decide +kernel

theorem consolidateAll_sameContent_sampleFragments :
    Buffer.Built sampleBuffer
    ∧ (∀ f, f ∈ sampleFragments ↔ f ∈ sampleFragments.reverse ++ sampleFragments)
    ∧ Roles sampleBuffer (· ∈ ["g", "h"]) (· ∈ sampleFragments)
    ∧ Graph.SameContent
      (Workspace.consolidateAll {} sampleFragments {} ⟨sampleBuffer, .empty "main"⟩).2.main
      (Workspace.consolidateAll {} (sampleFragments.reverse ++ sampleFragments) {}
        ⟨sampleBuffer, .empty "main"⟩).2.main := by
  have hbuilt : Buffer.Built sampleBuffer := (Buffer.Built.empty "buffer").recordAll _
  have hset : ∀ f, f ∈ sampleFragments ↔ f ∈ sampleFragments.reverse ++ sampleFragments := by simp
  refine ⟨hbuilt, hset, roles_sampleBuffer, consolidateAll_sameContent hbuilt {} "main" _ hset
    roles_sampleBuffer ?_ ?_⟩
  · decide +kernel
  · decide +kernel

end Lineage
