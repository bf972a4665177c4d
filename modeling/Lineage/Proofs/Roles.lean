import Lineage.Proofs.Identity

/-!
# One role for each guid

Where no guid is a column and a table or term at once (`Roles`), what a fragment is made of is told
by the fragment and the buffer alone (`ExactItem`): tables are found under their own guids, and a
guid says what vertex is made for it (`Standing.unique`).
-/

namespace Lineage

open Std Consolidation

/-- A buffer graph as events make it. -/
inductive Buffer.Built : Graph → Prop
  | empty (name : String) : Built (.empty name)
  | apply {g g' : Graph} {e : Event} {fs : List Fragment} (built : Built g)
      (apply_eq : Buffer.apply g e = .ok (fs, g')) : Built g'

theorem Buffer.Built.identified {g : Graph} (h : Buffer.Built g) : g.Identified := by
  induction h with
  | empty name => exact Graph.identified_empty name
  | @apply g g' e fs _ happly ih =>
    rcases apply_cases ih e with ⟨err, heq⟩ | ⟨name, g₁, heq, hg, -⟩
    · rw [heq] at happly
      cases happly
    · obtain ⟨-, rfl⟩ := Prod.mk.inj (Except.ok.inj (heq.symm.trans happly))
      exact hg

/-- The buffer graph that a list of events leads to. -/
def Buffer.recordAll (g : Graph) (es : List Event) : Graph :=
  es.foldl (fun g e => (Buffer.apply g e).toOption.elim g Prod.snd) g

theorem Buffer.Built.recordAll {g : Graph} (h : Buffer.Built g) (es : List Event) :
    Buffer.Built (Buffer.recordAll g es) := by
  induction es generalizing g with
  | nil => exact h
  | cons e es ih =>
    unfold Buffer.recordAll
    rw [List.foldl_cons]
    rcases happly : Buffer.apply g e with err | ⟨fs, g'⟩
    · exact ih h
    · exact ih (.apply h happly)

/-! ## Items told by guids -/

/-- What a fragment is made of, where each table is found under its own guid. -/
inductive ExactItem (depths : SearchDepths) (buffer : Graph) (f : Fragment) : Item → Prop
  | core {i : Item} (item : CoreItem depths buffer f i) : ExactItem depths buffer f i
  | flow {role : TableRole} {inst table : Vertex} {n : String}
      (inst_eq : vertexWith? buffer Key.guid (f.column role) = some inst)
      (enclosed : Enclosed depths buffer inst table n) :
      ExactItem depths buffer f (flowItem role n f.process.guid)
  | within {role : TableRole} {inst table : Vertex} {n : String}
      (inst_eq : vertexWith? buffer Key.guid (f.column role) = some inst)
      (enclosed : Enclosed depths buffer inst table n) :
      ExactItem depths buffer f (.edge .includedIn (f.column role) n)
  | attached {role : TableRole} {inst table : Vertex} {n : String} {i : Item}
      (inst_eq : vertexWith? buffer Key.guid (f.column role) = some inst)
      (enclosed : Enclosed depths buffer inst table n) (item : AttachItem buffer table n i) :
      ExactItem depths buffer f i

/-- A fragment whose columns and tables are in the buffer. -/
def Placed (depths : SearchDepths) (buffer : Graph) (f : Fragment) : Prop :=
  ∀ role, ∃ inst table n, vertexWith? buffer Key.guid (f.column role) = some inst
    ∧ Enclosed depths buffer inst table n

section Exact

variable {depths : SearchDepths} {buffer : Graph} {f : Fragment} {x : TableRole → Vertex}

theorem Enclosed.mem (hb : buffer.WellFormed) {column table : Vertex} {n : String}
    (hcolumn : column ∈ allVertices buffer) (h : Enclosed depths buffer column table n) :
    table ∈ allVertices buffer ∧ TypeName.isTableLike table.label = true := by
  obtain ⟨found, hfound, hmem⟩ :=
    hb.exists_nearestContainer hcolumn TypeName.isTableLike depths.table
  exact hmem table (Except.ok.inj (hfound.symm.trans h.1))

/-- With the guids of the tables given, items are told by guids. -/
theorem fragmentItem_iff (hb : buffer.Identified)
    (hx : ∀ role inst table n, vertexWith? buffer Key.guid (f.column role) = some inst →
      Enclosed depths buffer inst table n → (x role).guid? = some n) {i : Item} :
    FragmentItem depths buffer f x i ↔ ExactItem depths buffer f i := by
  have htable : ∀ {role inst table n}, vertexWith? buffer Key.guid (f.column role) = some inst →
      Enclosed depths buffer inst table n → vertexWith? buffer Key.guid n = some table :=
    fun hinst henc => hb.vertexWith?_eq_some_iff.2
      ⟨(henc.mem hb.toWellFormed (hb.mem_of_vertexWith? hinst).1).1, henc.2⟩
  constructor
  · intro hi
    cases hi with
    | core hi => exact .core hi
    | link hinst henc hi =>
      cases hi with
      | flow => exact .flow hinst henc
      | within => exact .within hinst henc
      | attached hg hinst' hi =>
        obtain rfl := Option.some.inj (hg.symm.trans (hx _ _ _ _ hinst henc))
        obtain rfl := Option.some.inj (hinst'.symm.trans (htable hinst henc))
        exact .attached hinst henc hi
  · intro hi
    cases hi with
    | core hi => exact .core hi
    | flow hinst henc => exact .link hinst henc .flow
    | within hinst henc => exact .link hinst henc .within
    | attached hinst henc hi =>
      exact .link hinst henc (.attached (hx _ _ _ _ hinst henc) (htable hinst henc) hi)

/-- The vertices that stand for the tables carry the guids of the tables. -/
theorem guid_of_placed [StepIds] {U : String → Prop} {g : Graph} (hb : buffer.Identified)
    (hU : ∀ v ∈ allVertices buffer, ∀ n, v.guid? = some n → U n) (hg : g.WellFormed)
    (hnamed : Named U (allVertices g)) (hfresh : g.FreshSteps U)
    (hplaced : ∀ role, ∃ inst table n, vertexWith? buffer Key.guid (f.column role) = some inst
      ∧ Enclosed depths buffer inst table n ∧ vertexWith? g Key.nodeId n = some (x role)) :
    ∀ role inst table n, vertexWith? buffer Key.guid (f.column role) = some inst →
      Enclosed depths buffer inst table n → (x role).guid? = some n := by
  intro role inst table n hinst henc
  obtain ⟨inst', table', n', hinst', henc', hxn⟩ := hplaced role
  obtain rfl := Option.some.inj (hinst.symm.trans hinst')
  obtain ⟨rfl, rfl⟩ := henc.unique henc'
  obtain ⟨hmem, hid⟩ := hg.mem_of_vertexWith? hxn
  have htable := (henc.mem hb.toWellFormed (hb.mem_of_vertexWith? hinst).1).1
  have hlabel : (x role).label ≠ NodeLabel.subProcess.name := fun hl =>
    hfresh _ hmem hl n hid (hU table htable n henc.2)
  obtain ⟨m, hm, hguid, -⟩ := hnamed.used _ hmem hlabel
  exact hguid.trans (hm.symm.trans hid)

end Exact

/-! ## Roles -/

/-- Each guid plays one role among the fragments `F`, where `T` tells the guids of terms. -/
structure Roles (buffer : Graph) (T : String → Prop) (F : Fragment → Prop) : Prop where
  column_not_table : ∀ f, F f → ∀ role, ∀ v ∈ allVertices buffer,
    v.guid? = some (f.column role) → TypeName.isTableLike v.label = false
  assignment : ∀ u ∈ allVertices buffer, ∀ v ∈ allVertices buffer, ∀ m n, u.guid? = some m →
    v.guid? = some n → buffer.Related TypeName.semanticAssignment u v → (T m ↔ ¬ T n)
  synonym : ∀ u ∈ allVertices buffer, ∀ v ∈ allVertices buffer, ∀ m n, u.guid? = some m →
    v.guid? = some n → buffer.Related TypeName.synonym u v → T m ∧ T n
  term_not_column : ∀ f, F f → ∀ role, ¬ T (f.column role)
  term_not_table : ∀ v ∈ allVertices buffer, ∀ n, v.guid? = some n →
    TypeName.isTableLike v.label = true → ¬ T n
  process_not_column : ∀ f, F f → ∀ f', F f' → ∀ role, f.process.guid ≠ f'.column role
  process_not_table : ∀ f, F f → ∀ v ∈ allVertices buffer,
    TypeName.isTableLike v.label = true → v.guid? ≠ some f.process.guid
  process_not_term : ∀ f, F f → ¬ T f.process.guid
  process_eq : ∀ f, F f → ∀ f', F f' → f.process.guid = f'.process.guid → f.process = f'.process

/-- The vertex made for an instance: a column, a table or a term. -/
inductive Standing (depths : SearchDepths) (buffer : Graph) (T : String → Prop)
    (F : Fragment → Prop) : NodeLabel → String → Properties → Prop
  | column {f : Fragment} {role : TableRole} {n : String} {inst : Vertex} {ps : Properties}
      (mem : F f) (column_eq : f.column role = n)
      (inst_eq : vertexWith? buffer Key.guid n = some inst)
      (properties_eq : assetProperties depths buffer inst n = .ok ps) :
      Standing depths buffer T F .column n ps
  | table {table : Vertex} {n : String} {schema : Option Vertex} (mem : table ∈ allVertices buffer)
      (guid_eq : table.guid? = some n) (like : TypeName.isTableLike table.label = true)
      (schema_eq : nearestSchema depths buffer table.id = .ok schema) :
      Standing depths buffer T F .table n
        (nameAfter Key.schemaDisplayName schema (table.properties.insert Key.nodeId n))
  | term {s : Vertex} {n : String} (mem : s ∈ allVertices buffer) (guid_eq : s.guid? = some n)
      (isTerm : T n) : Standing depths buffer T F .glossaryTerm n (termProperties s n)

section Standing

variable {depths : SearchDepths} {buffer : Graph} {T : String → Prop} {F : Fragment → Prop}

/-- A guid says what vertex is made for it. -/
theorem Standing.unique (hb : buffer.Identified) (hr : Roles buffer T F) {l l' : NodeLabel}
    {n : String} {ps ps' : Properties} (h : Standing depths buffer T F l n ps)
    (h' : Standing depths buffer T F l' n ps') : l = l' ∧ ps = ps' := by
  have hcolumn_table : ∀ {f role}, F f → f.column role = n → ∀ {v}, v ∈ allVertices buffer →
      v.guid? = some n → TypeName.isTableLike v.label = true → False := by
    intro f role hf hc v hv hn hlike
    rw [hr.column_not_table f hf role v hv (hc ▸ hn)] at hlike
    cases hlike
  cases h with
  | column hf hc hinst hps =>
    cases h' with
    | column _ _ hinst' hps' =>
      obtain rfl := Option.some.inj (hinst.symm.trans hinst')
      exact ⟨rfl, Except.ok.inj (hps.symm.trans hps')⟩
    | table hv hn hlike _ => exact (hcolumn_table hf hc hv hn hlike).elim
    | term _ _ hT => exact absurd (hc ▸ hT) (hr.term_not_column _ hf _)
  | table hv hn hlike hschema =>
    cases h' with
    | column hf hc _ _ => exact (hcolumn_table hf hc hv hn hlike).elim
    | table hv' hn' _ hschema' =>
      obtain rfl := hb.guid_unique _ hv _ hv' (hn.trans hn'.symm)
      obtain rfl := Except.ok.inj (hschema.symm.trans hschema')
      exact ⟨rfl, rfl⟩
    | term _ _ hT => exact absurd hT (hr.term_not_table _ hv _ hn hlike)
  | term hv hn hT =>
    cases h' with
    | column hf hc _ _ => exact absurd (hc ▸ hT) (hr.term_not_column _ hf _)
    | table hv' hn' hlike _ => exact absurd hT (hr.term_not_table _ hv' _ hn' hlike)
    | term hv' hn' _ =>
      obtain rfl := hb.guid_unique _ hv _ hv' (hn.trans hn'.symm)
      exact ⟨rfl, rfl⟩

/-- What stands for the guid of a column was made for the column of a fragment. -/
theorem Standing.exists_column {D : Fragment → Prop} (hr : Roles buffer T F) {f : Fragment}
    (hf : F f) {role : TableRole} {l : NodeLabel} {ps : Properties}
    (h : Standing depths buffer T D l (f.column role) ps) :
    ∃ d role', D d ∧ d.column role' = f.column role := by
  cases h with
  | column hd hc _ _ => exact ⟨_, _, hd, hc⟩
  | table hv hn hlike _ =>
    rw [hr.column_not_table f hf role _ hv hn] at hlike
    cases hlike
  | term _ _ hT => exact absurd hT (hr.term_not_column f hf role)

/-- What a term brings along are terms. -/
theorem TermItem.standing (hr : Roles buffer T F) {term : Vertex} {n : String} {l : NodeLabel}
    {m : String} {ps : Properties} (hmem : term ∈ allVertices buffer) (hn : term.guid? = some n)
    (hT : T n) (hi : TermItem buffer term n (.node l m ps)) :
    Standing depths buffer T F l m ps ∧ T m := by
  cases hi with
  | self => exact ⟨.term hmem hn hT, hT⟩
  | synonym hs hm hrelated =>
    have hTm := (hr.synonym _ hmem _ hs _ _ hn hm hrelated).2
    exact ⟨.term hs hm hTm, hTm⟩

/-- What is attached to an instance that is no term are terms. -/
theorem AttachItem.standing (depths : SearchDepths) (hr : Roles buffer T F) {inst : Vertex}
    {c n : String} {l : NodeLabel} {m : String} {ps : Properties}
    (hmem : inst ∈ allVertices buffer) (hc : inst.guid? = some c) (hT : ¬ T c)
    (hi : AttachItem buffer inst n (.node l m ps)) :
    Standing depths buffer T F l m ps ∧ T m := by
  cases hi with
  | term hterm hm hrelated hi =>
    have hTm := not_not.1 fun h => hT ((hr.assignment _ hmem _ hterm _ _ hc hm hrelated).2 h)
    exact hi.standing hr hterm hm hTm

theorem AssetItem.standing (hb : buffer.Identified) (hr : Roles buffer T F) {f : Fragment}
    (hf : F f) {role : TableRole} {inst : Vertex} {l : NodeLabel} {m : String} {ps : Properties}
    (hinst : vertexWith? buffer Key.guid (f.column role) = some inst)
    (hi : AssetItem depths buffer inst (f.column role) (.node l m ps)) :
    Standing depths buffer T F l m ps := by
  obtain ⟨hmem, hc⟩ := hb.mem_of_vertexWith? hinst
  generalize hl : (Item.node l m ps) = i at hi
  cases hi with
  | self hps =>
    obtain ⟨rfl, rfl, rfl⟩ := Item.node.inj hl
    have hlabel : assetLabel inst = .column := by
      rw [assetLabel, hr.column_not_table f hf role inst hmem hc]
      rfl
    rw [hlabel]
    exact .column hf rfl hinst hps
  | attached hi => exact (hl ▸ hi).standing depths hr hmem hc (hr.term_not_column f hf role) |>.1

/-- All vertices that a fragment is made of stand for an instance each. -/
theorem ExactItem.standing (hb : buffer.Identified) (hr : Roles buffer T F) {f : Fragment}
    (hf : F f) {l : NodeLabel} {m : String} {ps : Properties}
    (hi : ExactItem depths buffer f (.node l m ps)) : Standing depths buffer T F l m ps := by
  generalize hl : (Item.node l m ps) = i at hi
  cases hi with
  | core hi =>
    cases hi with
    | asset hinst hi => exact (hl ▸ hi).standing hb hr hf hinst
    | step => cases hl
    | process => cases hl
    | table hinst henc hi =>
      cases hi with
      | self hschema =>
        obtain ⟨rfl, rfl, rfl⟩ := Item.node.inj hl
        obtain ⟨hmem, hlike⟩ := henc.mem hb.toWellFormed (hb.mem_of_vertexWith? hinst).1
        exact .table hmem henc.2 hlike hschema
  | @flow role => cases role <;> cases hl
  | within => cases hl
  | attached hinst henc hi =>
    obtain ⟨hmem, hlike⟩ := henc.mem hb.toWellFormed (hb.mem_of_vertexWith? hinst).1
    exact ((hl ▸ hi).standing depths hr hmem henc.2 (hr.term_not_table _ hmem _ henc.2 hlike)).1

theorem ExactItem.shape {f : Fragment} {i : Item} (hi : ExactItem depths buffer f i) :
    i.IsBeside ∨ i = .process f.process ∨ i = .step f := by
  cases hi with
  | core hi =>
    cases hi with
    | asset _ hi => exact .inl hi.isBeside
    | step => exact .inr (.inr rfl)
    | process => exact .inr (.inl rfl)
    | table _ _ hi => exact .inl hi.isBeside
  | @flow role =>
    cases role
    · exact .inl (by simp [flowItem])
    · exact .inl (by simp [flowItem])
  | within => exact .inl (by simp)
  | attached _ _ hi => exact .inl hi.isBeside

theorem ExactItem.eq_of_process {f : Fragment} {p : ProcessRef}
    (hi : ExactItem depths buffer f (.process p)) : p = f.process := by
  rcases hi.shape with hbeside | hp | hs
  · exact hbeside.elim
  · exact Item.process.inj hp
  · cases hs

theorem ExactItem.eq_of_step {f f' : Fragment} (hi : ExactItem depths buffer f (.step f')) :
    f' = f := by
  rcases hi.shape with hbeside | hp | hs
  · exact hbeside.elim
  · cases hp
  · exact Item.step.inj hs

end Standing

end Lineage
