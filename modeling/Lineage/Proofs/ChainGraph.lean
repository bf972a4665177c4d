import Mathlib.Data.Fintype.Prod
import Lineage.Proofs.ChainEvents
import Lineage.Proofs.Completeness
import Lineage.Proofs.Coverage
import Lineage.Proofs.Renumbering

/-!
# The main graph of a synthetic chain

Whatever is consolidated of a chain comes down to items of few kinds (`Part`): columns, tables and
processes, a step from each column to the one at its place in the next table (`Links`), and the
edges that join columns to tables and tables to processes. A graph made of these (`Woven`) is one in
which every vertex has a node id of its own, a column or a table has no predecessor but the step or
process before it, and tables are joined where their columns are. To consolidate a link fails
nowhere and keeps it so (`Links.maintains`); and what every link maintains, each in the buffer graph
of its turn, holds when all events have come (`upholds_events`).
-/

namespace Lineage

open Std Consolidation

namespace SyntheticChain

/-! ## What a chain is made of -/

/-- A fragment takes a column to the one at its place in the next table. -/
structure Links (f : Fragment) (k j : ℕ) : Prop where
  columnIn_eq : f.columnIn = columnGuid k j
  columnOut_eq : f.columnOut = columnGuid (k + 1) j
  guid_eq : f.process.guid = processGuid (k + 1)

/-- How many tables further on the table on a side of a process is. -/
def shift : TableRole → ℕ
  | .input => 0
  | .output => 1

theorem add_shift_lt {k n : ℕ} (hk : k + 1 < n) (side : TableRole) : k + shift side < n := by
  cases side <;> simp only [shift] <;> omega

/-- Every table is on a side of some process. -/
theorem exists_add_shift {k n : ℕ} (hn : 2 ≤ n) (hk : k < n) :
    ∃ i side, i + 1 < n ∧ i + shift side = k := by
  rcases Nat.lt_or_ge (k + 1) n with hnext | hlast
  · exact ⟨k, .input, hnext, rfl⟩
  · refine ⟨k - 1, .output, by omega, ?_⟩
    simp only [shift]
    omega

/-- The items of chains, whatever their shape. -/
inductive Part : Item → Prop
  | column {k j : ℕ} {ps : Properties} : Part (.node .column (columnGuid k j) ps)
  | table {k : ℕ} {ps : Properties} : Part (.node .table (tableGuid k) ps)
  | process {p : ProcessRef} {k : ℕ} (guid_eq : p.guid = processGuid k) : Part (.process p)
  | step {f : Fragment} {k j : ℕ} (links : Links f k j) : Part (.step f)
  | input {k : ℕ} : Part (.edge .tableAndProcess (tableGuid k) (processGuid (k + 1)))
  | output {k : ℕ} : Part (.edge .tableAndProcess (processGuid (k + 1)) (tableGuid (k + 1)))
  | within {k j : ℕ} : Part (.edge .includedIn (columnGuid k j) (tableGuid k))

/-- An item of a chain, with such guids as chains have. -/
structure Thread (i : Item) : Prop extends i.Within IsMock where
  part : Part i

section Parts

variable {depths : SearchDepths} {name : String} {c : SyntheticChain} {f : Fragment} {k j : ℕ}

theorem Links.column_eq (h : Links f k j) :
    ∀ side, f.column side = columnGuid (k + shift side) j
  | .input => h.columnIn_eq
  | .output => h.columnOut_eq

theorem Links.isMock (h : Links f k j) : ∀ n ∈ f.guids, IsMock n := by
  simp only [Fragment.guids, List.mem_cons, List.not_mem_nil, or_false, forall_eq_or_imp,
    forall_eq, h.columnIn_eq, h.columnOut_eq, h.guid_eq]
  exact ⟨isMock_columnGuid _ _, isMock_columnGuid _ _, isMock_processGuid _⟩

theorem Part.fits {i : Item} (h : Part i) : i.Fits role := by
  cases h with
  | column => simp [Item.Fits, Role.label?]
  | table => simp [Item.Fits, Role.label?]
  | process hguid => simp [Item.Fits, hguid]
  | step hf =>
    simp [Item.Fits, hf.columnIn_eq, hf.columnOut_eq, hf.guid_eq, Role.isAsset]
  | input => simp [Item.Fits, Role.label?, EdgeLabel.admits]
  | output => simp [Item.Fits, Role.label?, EdgeLabel.admits]
  | within => simp [Item.Fits, Role.label?, EdgeLabel.admits, NodeLabel.isAsset]

/-- A column that is in the buffer graph of a chain is enclosed by its own table. -/
theorem Links.enclosed (h : Links f k j) (name : String) (hdepth : 1 ≤ depths.table)
    (hk : k + 1 < c.tables) (hj : j < c.columns) (side : TableRole) :
    ∃ inst table, vertexWith? (c.buffer name) Key.guid (f.column side) = some inst
      ∧ Enclosed depths (c.buffer name) inst table (tableGuid (k + shift side)) := by
  rw [h.column_eq]
  exact enclosed_column name hdepth (add_shift_lt hk side) hj

/-- What a fragment of a chain is made of are items of chains. -/
theorem Links.part (h : Links f k j) (hdepth : 1 ≤ depths.table) (hk : k + 1 < c.tables)
    (hj : j < c.columns) {x : TableRole → Vertex} {i : Item}
    (hi : FragmentItem depths (c.buffer name) f x i) : Part i := by
  obtain ⟨hb, hrecords⟩ := records_buffer name c
  have hnumber : ∀ {side inst table n},
      vertexWith? (c.buffer name) Key.guid (f.column side) = some inst →
        Enclosed depths (c.buffer name) inst table n → n = tableGuid (k + shift side) := by
    intro side inst table n hinst henc
    obtain ⟨inst', table', hinst', henc'⟩ := h.enclosed name hdepth hk hj side
    obtain rfl := Option.some.inj (hinst.symm.trans hinst')
    exact (henc.unique henc').2
  cases hi with
  | core hi =>
    cases hi with
    | @asset side inst _ hinst hi =>
      cases hi with
      | self =>
        obtain ⟨hmem, hguid⟩ := hb.mem_of_vertexWith? hinst
        rw [h.column_eq] at hguid ⊢
        have htype := (hrecords.respects hb fun _ => respects_of_mem).type inst hmem _ hguid
        have hlabel : assetLabel inst = .column := if_neg (by simp [htype])
        exact hlabel ▸ .column
      | attached hi => exact absurd hi not_attachItem
    | step => exact .step h
    | process => exact .process h.guid_eq
    | table hinst henc hi =>
      cases hi
      exact hnumber hinst henc ▸ .table
  | @link side _ _ _ _ hinst henc hi =>
    cases hi with
    | flow =>
      rw [hnumber hinst henc, h.guid_eq]
      cases side
      · exact .input
      · exact .output
    | within => exact hnumber hinst henc ▸ h.column_eq _ ▸ .within
    | attached _ _ hi => exact absurd hi not_attachItem

end Parts

/-! ## Graphs of such items -/

/-- A graph is made of items of chains, under guids that no sub-process is given, and its tables
cover its columns. -/
structure Woven [StepIds] (name : String) (g : Graph) : Prop where
  apart : StepsApart
  writes : Writes Thread (.empty name) g
  covered : g.Covered

/-- No sub-process goes by a guid that chains have. -/
theorem freshSteps_of_writes [StepIds] (hids : StepsApart) {name : String} {g : Graph}
    (h : Writes Thread (.empty name) g) : g.FreshSteps IsMock := by
  intro s hs hlabel n hn
  cases h.made.vertex s hs with
  | node hi hl _ =>
    exact absurd (NodeLabel.name_injective (hl.symm.trans hlabel))
      (hi.shape.resolve_right (by simp)).2
  | process _ hl _ => simp [hlabel] at hl
  | step _ _ hps =>
    obtain rfl := Option.some.inj (hn.symm.trans (nodeId?_of_processProperties hps))
    exact hids s.id

theorem wellStepped_of_writes [StepIds] (hids : StepsApart) {name : String} {g : Graph}
    (h : Writes Thread (.empty name) g) : g.WellStepped :=
  (h.mono fun _ hi => hi.toWithin).wellStepped (freshSteps_of_writes hids h)

theorem woven_empty [StepIds] (hids : StepsApart) (name : String) : Woven name (.empty name) where
  apart := hids
  writes := .refl _
  covered := Graph.covered_empty name

namespace Woven

variable {name : String} {g : Graph} {u v s w q : Vertex} {x y : VertexId} {f f' : Fragment}
  {k j : ℕ}

variable [StepIds]

theorem wellFormed (h : Woven name g) : g.WellFormed :=
  h.writes.wellFormed (Graph.wellFormed_empty name)

theorem freshSteps (h : Woven name g) : g.FreshSteps IsMock := freshSteps_of_writes h.apart h.writes

theorem wellStepped (h : Woven name g) : g.WellStepped := wellStepped_of_writes h.apart h.writes

theorem made (h : Woven name g) : g.Made Thread := h.writes.made

theorem conforms (h : Woven name g) : g.Conforms role IsMock := by
  have hproper : Writes (Item.Proper role IsMock) (.empty name) g :=
    h.writes.mono fun i hi => ⟨hi.toWithin, hi.part.fits⟩
  exact hproper.conforms h.freshSteps

theorem writesWithin (h : Woven name g) : Writes (Item.Within IsMock) (.empty name) g :=
  h.writes.mono fun _ hi => hi.toWithin

theorem namedWithin (h : Woven name g) : Named IsMock (allVertices g) :=
  h.writesWithin.named h.freshSteps

/-- Every vertex has a node id of its own. -/
theorem named (h : Woven name g) : g.Named := by
  have hclash : ∀ u ∈ allVertices g, ∀ v ∈ allVertices g, u.nodeId? = v.nodeId? →
      v.label = NodeLabel.subProcess.name → u = v := by
    intro u hu v hv heq hlabel
    have hid := h.namedWithin.generated v hv hlabel
    by_cases hlabel' : u.label = NodeLabel.subProcess.name
    · rw [hid, h.namedWithin.generated u hu hlabel', Option.some.injEq] at heq
      exact h.wellFormed.eq_of_vertex_id hu hv (StepIds.injective heq)
    · obtain ⟨n, hn, -, hmock⟩ := h.namedWithin.used u hu hlabel'
      rw [hid, hn, Option.some.injEq] at heq
      exact absurd (heq ▸ hmock) (h.apart v.id)
  refine ⟨fun v hv => ?_,
    List.Nodup.map_on (fun u hu v hv heq => ?_) h.wellFormed.vertices_nodup⟩
  · by_cases hlabel : v.label = NodeLabel.subProcess.name
    · rw [h.namedWithin.generated v hv hlabel]
      rfl
    · obtain ⟨n, hn, -⟩ := h.namedWithin.used v hv hlabel
      rw [hn]
      rfl
  · by_cases hlabel : v.label = NodeLabel.subProcess.name
    · exact hclash u hu v hv heq hlabel
    · obtain ⟨n, hn, -, hmock⟩ := h.namedWithin.used v hv hlabel
      exact h.conforms.unique u hu v hv n hmock (heq.trans hn) hn

/-- What stands for a guid has the label of its role, and the guid. -/
theorem eq_of_role (h : Woven name g) {n : String} {l : NodeLabel} (hv : v ∈ allVertices g)
    (hn : v.nodeId? = some n) (hmock : IsMock n) (hl : (role n).label? = some l) :
    v.label = l.name ∧ v.guid? = some n := by
  have hlabel := h.conforms.label_eq hv hn hmock hl
  have hne : v.label ≠ NodeLabel.subProcess.name := fun hsub =>
    (Role.label?_ne hl).2 (NodeLabel.name_injective (hlabel.symm.trans hsub))
  obtain ⟨m, hm, hguid, -⟩ := h.namedWithin.used v hv hne
  exact ⟨hlabel, hguid.trans (hm.symm.trans hn)⟩

theorem eq_of_nodeId (h : Woven name g) {n : String} (hu : u ∈ allVertices g)
    (hv : v ∈ allVertices g) (hun : u.nodeId? = some n) (hvn : v.nodeId? = some n) : u = v :=
  h.named.eq_of_nodeId? hu hv (hun.trans hvn.symm)

/-! ### Columns and sub-processes -/

theorem exists_stepOf (h : Woven name g) (hs : s ∈ allVertices g)
    (hlabel : s.label = NodeLabel.subProcess.name) :
    ∃ f u w q k j, Links f k j ∧ g.StepOf f s u w q := by
  obtain ⟨f, u, w, q, hi, hstep⟩ :=
    h.made.exists_stepOf (fun i hi => hi.toWithin) h.wellFormed h.wellStepped hs hlabel
  cases hi.part with
  | step hlinks => exact ⟨f, u, w, q, _, _, hlinks, hstep⟩

/-- One step leads from a column to the next. -/
theorem eq_of_stepOf (h : Woven name g) {s' u' w' q' : Vertex} (hlinks : Links f k j)
    (hlinks' : Links f' k j) (hstep : g.StepOf f s u w q) (hstep' : g.StepOf f' s' u' w' q') :
    s = s' := by
  obtain rfl : u = u' := h.eq_of_nodeId hstep.source_mem hstep'.source_mem
    (hlinks.columnIn_eq ▸ hstep.source_id) (hlinks'.columnIn_eq ▸ hstep'.source_id)
  obtain rfl : w = w' := h.eq_of_nodeId hstep.target_mem hstep'.target_mem
    (hlinks.columnOut_eq ▸ hstep.target_id) (hlinks'.columnOut_eq ▸ hstep'.target_id)
  have hguid : s.guid? = s'.guid? := by
    rw [Complete.guid?_stepOf hstep, Complete.guid?_stepOf hstep', hlinks.guid_eq,
      hlinks'.guid_eq]
  exact h.wellStepped.unique s hstep.mem s' hstep'.mem hstep.label_eq hstep'.label_eq hguid u w q q'
    hstep.isStep hstep'.isStep

/-- Only the step from the column before leads to a column. -/
theorem exists_step_of_joined (h : Woven name g) (hv : v ∈ allVertices g)
    (hn : v.nodeId? = some (columnGuid k j)) (hj : g.Joined .columnAndProcess x v.id) :
    ∃ f s u q i, k = i + 1 ∧ s.id = x ∧ Links f i j ∧ g.StepOf f s u v q := by
  have hno : ¬ g.StepAt v.id := by
    rintro ⟨s, hs, hlabel, hid⟩
    obtain rfl := h.wellFormed.eq_of_vertex_id hs hv hid
    exact h.freshSteps s hs hlabel _ hn (isMock_columnGuid k j)
  obtain ⟨s, hs, hlabel, rfl⟩ := (h.writesWithin.made.stepAt_of_joined hj).resolve_right hno
  obtain ⟨f, u, w, q, i, j', hlinks, hstep⟩ := h.exists_stepOf hs hlabel
  obtain rfl : v = w := h.wellFormed.eq_of_vertex_id hv hstep.target_mem
    (hstep.isStep.target_eq h.wellFormed.toCoherent hj)
  obtain ⟨rfl, rfl⟩ := columnGuid_injective
    (Option.some.inj (hn.symm.trans (hlinks.columnOut_eq ▸ hstep.target_id)))
  exact ⟨f, s, u, q, i, rfl, rfl, hlinks, hstep⟩

/-! ### Tables and processes -/

/-- Data flows from a table to the process that fills the next, or from a process to the table that
it fills. -/
theorem flow_of_joined (h : Woven name g) (hj : g.Joined .tableAndProcess x y) :
    ∃ u ∈ allVertices g, ∃ v ∈ allVertices g, u.id = x ∧ v.id = y ∧ ∃ k,
      u.nodeId? = some (tableGuid k) ∧ v.nodeId? = some (processGuid (k + 1))
        ∨ u.nodeId? = some (processGuid (k + 1)) ∧ v.nodeId? = some (tableGuid (k + 1)) := by
  obtain ⟨m, n, hi, u, hu, v, hv, hx, hy, hm, hn⟩ := h.made.exists_edge_of_joined
    h.wellFormed.toCoherent h.wellStepped (by decide) (by decide) hj
  refine ⟨u, hu, v, hv, hx, hy, ?_⟩
  cases hi.part with
  | input => exact ⟨_, .inl ⟨hm, hn⟩⟩
  | output => exact ⟨_, .inr ⟨hm, hn⟩⟩

/-- Only the table before leads to a process. -/
theorem table_of_process (h : Woven name g) (hv : v ∈ allVertices g)
    (hn : v.nodeId? = some (processGuid (k + 1))) (hj : g.Joined .tableAndProcess x v.id) :
    ∃ t ∈ allVertices g, t.id = x ∧ t.nodeId? = some (tableGuid k) := by
  obtain ⟨u, hu, v', hv', hx, hid, i, ⟨hun, hvn⟩ | ⟨hun, hvn⟩⟩ := h.flow_of_joined hj
  · obtain rfl := h.wellFormed.eq_of_vertex_id hv' hv hid
    obtain rfl := Nat.succ.inj (processGuid_injective (Option.some.inj (hn.symm.trans hvn)))
    exact ⟨u, hu, hx, hun⟩
  · obtain rfl := h.wellFormed.eq_of_vertex_id hv' hv hid
    exact absurd (Option.some.inj (hn.symm.trans hvn)) (ne_of_role (by simp))

/-- Only the process that fills it leads to a table. -/
theorem process_of_table (h : Woven name g) (hv : v ∈ allVertices g)
    (hn : v.nodeId? = some (tableGuid k)) (hj : g.Joined .tableAndProcess x v.id) :
    ∃ q ∈ allVertices g, q.id = x ∧ ∃ i, k = i + 1 ∧ q.nodeId? = some (processGuid (i + 1)) := by
  obtain ⟨u, hu, v', hv', hx, hid, i, ⟨hun, hvn⟩ | ⟨hun, hvn⟩⟩ := h.flow_of_joined hj
  · obtain rfl := h.wellFormed.eq_of_vertex_id hv' hv hid
    exact absurd (Option.some.inj (hn.symm.trans hvn)) (ne_of_role (by simp))
  · obtain rfl := h.wellFormed.eq_of_vertex_id hv' hv hid
    exact ⟨u, hu, hx, i, tableGuid_injective (Option.some.inj (hn.symm.trans hvn)), hun⟩

/-- A column is in its own table. -/
theorem table_of_column (h : Woven name g) (hv : v ∈ allVertices g)
    (hn : v.nodeId? = some (columnGuid k j)) (hj : g.Joined .includedIn v.id x) :
    ∃ t ∈ allVertices g, t.id = x ∧ t.nodeId? = some (tableGuid k) := by
  obtain ⟨m, n, hi, u, hu, t, ht, hx, hy, hm, htn⟩ := h.made.exists_edge_of_joined
    h.wellFormed.toCoherent h.wellStepped (by decide) (by decide) hj
  obtain rfl := h.wellFormed.eq_of_vertex_id hu hv hx
  refine ⟨t, ht, hy, ?_⟩
  cases hi.part with
  | within => rwa [(columnGuid_injective (Option.some.inj (hn.symm.trans hm))).1]

/-- Data flows between the tables of two columns where it does between the columns. -/
theorem exists_tables (h : Woven name g) (hlinks : Links f k j) (hstep : g.StepOf f s u w q) :
    ∃ t ∈ allVertices g, ∃ t' ∈ allVertices g, t.nodeId? = some (tableGuid k)
      ∧ t'.nodeId? = some (tableGuid (k + 1)) ∧ g.Joined .tableAndProcess t.id q.id
      ∧ g.Joined .tableAndProcess q.id t'.id := by
  have hc := h.wellFormed.toCoherent
  obtain ⟨_, _, hin, hout⟩ := h.covered s hstep.mem hstep.label_eq u.id w.id q.id
    (hstep.isStep.joined_in hc) (hstep.isStep.joined_out hc) (hstep.isStep.joined_up hc)
  obtain ⟨t, ht, rfl, htn⟩ :=
    h.table_of_column hstep.source_mem (hlinks.columnIn_eq ▸ hstep.source_id) hin.within
  obtain ⟨t', ht', rfl, htn'⟩ :=
    h.table_of_column hstep.target_mem (hlinks.columnOut_eq ▸ hstep.target_id) hout.within
  exact ⟨t, ht, t', ht', htn, htn', hin.flow, hout.flow⟩

end Woven

/-- A graph of a chain in which no step of it is missing. -/
structure Whole [StepIds] (c : SyntheticChain) (name : String) (g : Graph) : Prop
    extends Woven name g where
  present : ∀ k j, k + 1 < c.tables → j < c.columns →
    g.Present (columnGuid k j) (columnGuid (k + 1) j) (processGuid (k + 1))

namespace Whole

variable [StepIds] {c : SyntheticChain} {name : String} {g : Graph} {k j : ℕ}

theorem exists_stepOf (h : Whole c name g) (hk : k + 1 < c.tables) (hj : j < c.columns) :
    ∃ f s u w q, Links f k j ∧ g.StepOf f s u w q := by
  obtain ⟨u, -, hu, -, s, hs, hlabel, -, hin, -⟩ := h.present k j hk hj
  obtain ⟨f, u', w, q, k', j', hlinks, hstep⟩ := h.toWoven.exists_stepOf hs hlabel
  obtain ⟨humem, hun⟩ := h.wellFormed.mem_of_vertexWith? hu
  obtain rfl := h.wellFormed.eq_of_vertex_id humem hstep.source_mem
    (hstep.isStep.source_eq h.wellFormed.toCoherent hin)
  obtain ⟨rfl, rfl⟩ := columnGuid_injective
    (Option.some.inj (hun.symm.trans (hlinks.columnIn_eq ▸ hstep.source_id)))
  exact ⟨f, s, u, w, q, hlinks, hstep⟩

theorem exists_column (h : Whole c name g) (htables : 2 ≤ c.tables) (hk : k < c.tables)
    (hj : j < c.columns) : ∃ v ∈ allVertices g, v.nodeId? = some (columnGuid k j) := by
  obtain ⟨i, side, hi, rfl⟩ := exists_add_shift htables hk
  obtain ⟨f, s, u, w, q, hlinks, hstep⟩ := h.exists_stepOf hi hj
  cases side
  · exact ⟨u, hstep.source_mem, hlinks.columnIn_eq ▸ hstep.source_id⟩
  · exact ⟨w, hstep.target_mem, hlinks.columnOut_eq ▸ hstep.target_id⟩

theorem exists_table (h : Whole c name g) (htables : 2 ≤ c.tables) (hk : k < c.tables)
    (hcolumns : 1 ≤ c.columns) : ∃ v ∈ allVertices g, v.nodeId? = some (tableGuid k) := by
  obtain ⟨i, side, hi, rfl⟩ := exists_add_shift htables hk
  obtain ⟨f, s, u, w, q, hlinks, hstep⟩ := h.exists_stepOf hi hcolumns
  obtain ⟨t, ht, t', ht', htn, htn', -⟩ := h.exists_tables hlinks hstep
  cases side
  · exact ⟨t, ht, htn⟩
  · exact ⟨t', ht', htn'⟩

/-- The steps of a chain are as many as its links. -/
theorem le_subProcessCount (h : Whole c name g) :
    (c.tables - 1) * c.columns ≤ g.subProcessCount := by
  have hsteps : ∀ p : Fin (c.tables - 1) × Fin c.columns,
      ∃ f s u w q, Links f p.1 p.2 ∧ g.StepOf f s u w q := fun p =>
    h.exists_stepOf (by have := p.1.isLt; omega) p.2.isLt
  choose f s u w q hlinks hstep using hsteps
  let steps := (allVertices g).filter fun v => v.label == NodeLabel.subProcess.name
  have hmem : ∀ p, s p ∈ steps.toFinset := fun p =>
    List.mem_toFinset.2 (List.mem_filter.2 ⟨(hstep p).mem, beq_iff_eq.2 (hstep p).label_eq⟩)
  -- a step tells the column that it starts from
  have hinj : Function.Injective s := by
    intro p p' heq
    have hid := (heq ▸ (hstep p).isStep).ends_eq (hstep p').isStep
    have hu := h.wellFormed.eq_of_vertex_id (hstep p).source_mem (hstep p').source_mem hid.1
    have hcolumn := (hstep p).source_id
    rw [hu, (hstep p').source_id, (hlinks p).columnIn_eq, (hlinks p').columnIn_eq] at hcolumn
    obtain ⟨hk, hj⟩ := columnGuid_injective (Option.some.inj hcolumn)
    exact Prod.ext (Fin.ext hk.symm) (Fin.ext hj.symm)
  calc (c.tables - 1) * c.columns
      = (Finset.univ : Finset (Fin (c.tables - 1) × Fin c.columns)).card := by simp
    _ ≤ steps.toFinset.card :=
      Finset.card_le_card_of_injOn s (fun p _ => hmem p) (hinj.injOn)
    _ ≤ steps.length := List.toFinset_card_le steps
    _ = g.subProcessCount := List.countP_eq_length_filter.symm

end Whole

/-! ## Consolidating links -/

/-- Consolidating a fragment of a chain does not fail, and yields such a graph again. -/
theorem Links.maintains [StepIds] {depths : SearchDepths} {c : SyntheticChain} {f : Fragment}
    {k j : ℕ} (h : Links f k j) (hdepth : 1 ≤ depths.table) (hk : k + 1 < c.tables)
    (hj : j < c.columns) (scratch name : String) :
    f.Maintains depths (c.buffer scratch) (Woven name) fun r => r.failure? = none := by
  intro main hmain
  have hb := (records_buffer scratch c).1
  have hm : main.WellFormed := hmain.writes.wellFormed (Graph.wellFormed_empty name)
  have hcases := consolidate_cases depths hb.toWellFormed hm f
  simp only [Workspace.attempt]
  generalize consolidate depths (c.buffer scratch) main f = r at hcases ⊢
  cases hcases with
  | @notFound side hmissing =>
    obtain ⟨inst, -, hinst, -⟩ := h.enclosed scratch hdepth hk hj side
    rw [hmissing] at hinst
    cases hinst
  | alreadyPresent _ _ => exact ⟨rfl, hmain⟩
  | @missingTable side inst _ hinst hmissing =>
    obtain ⟨inst', table, hinst', henc⟩ := h.enclosed scratch hdepth hk hj side
    obtain rfl := Option.some.inj (hinst.symm.trans hinst')
    exact absurd henc (hmissing _ _)
  | @applied x s u v q main' _ _ hwrites hspans _ _ _ =>
    have hall : Writes Thread (.empty name) main' := hmain.writes.trans (hwrites.mono fun i hi =>
      ⟨hi.within (fun _ hv _ hn => isMock_of_mem_buffer hv hn) hb.toWellFormed h.isMock,
        h.part hdepth hk hj hi⟩)
    exact ⟨rfl, hmain.apart, hall, hmain.covered.of_spans hm (hwrites.wellFormed hm)
      hmain.wellStepped (wellStepped_of_writes hmain.apart hall) hwrites hspans⟩

theorem links_of_mem_fragments {m k : ℕ} {name : Option String} {f : Fragment}
    (hf : f ∈ (processEvent m (k + 1)).fragments name) : ∃ j < m, Links f k j := by
  simp only [processEvent, Event.fragments, List.map_map, List.mem_map, List.mem_range] at hf
  obtain ⟨j, hj, rfl⟩ := hf
  exact ⟨j, hj, rfl, rfl, rfl⟩

section Runs

variable {depths : SearchDepths} {scratch : String} {n m : ℕ} {Inv : Graph → Prop}
  {kind : FragmentResult → Prop}

/-- What the fragments from one table to the next maintain holds when the next has come. -/
theorem upholds_eventsOfTable [StepIds] {w : Workspace} (hw : w.buffer = buffer scratch ⟨n, m⟩)
    (hmaintains : ∀ k j f, k + 1 = n → j < m → Links f k j →
      f.Maintains depths (buffer scratch ⟨n + 1, m⟩) Inv kind) (hinv : Inv w.main) :
    w.Upholds (Buffer.tasks depths w.buffer (eventsOfTable m n)) Inv kind := by
  obtain ⟨hb, hrecords⟩ := hw ▸ records_buffer scratch ⟨n, m⟩
  have hlayout : w.Upholds (Buffer.tasks depths w.buffer (layout m n)) Inv kind :=
    Workspace.upholds_of_mappings_eq_nil _ hb (fun e => mappings_of_mem_layout) hinv
  cases n with
  | zero => rwa [eventsOfTable_zero]
  | succ k =>
    have hg := (Buffer.records_recordAll (layout m (k + 1)) hb hrecords).1
    obtain ⟨name, happly⟩ := apply_entity (e := processEvent m (k + 1)) hg.toWellFormed rfl
    generalize Graph.upsert _ _ = g at happly
    have hlast : buffer scratch ⟨k + 2, m⟩ = g := by
      rw [buffer_succ, ← hw, eventsOfTable_succ, Buffer.recordAll_append,
        (Buffer.cons_of_ok happly []).1]
      rfl
    rw [eventsOfTable_succ, Buffer.tasks_append]
    refine hlayout.append fun hinv => ?_
    have hbuffer : (w.attemptAll (Buffer.tasks depths w.buffer (layout m (k + 1)))).buffer = _ :=
      Workspace.buffer_attemptAll_batch (layout m (k + 1)) w
    rw [Buffer.tasks_of_ok happly]
    rw [← hbuffer] at happly
    refine (Workspace.upholds_tasks happly (fun f hf => ?_) hinv).append Workspace.upholds_nil
    obtain ⟨j, hj, hlinks⟩ := links_of_mem_fragments hf
    exact hlast ▸ hmaintains k j f rfl hj hlinks

theorem upholds_events [StepIds] {main : Graph}
    (hmaintains : ∀ k j f, k + 1 < n → j < m → Links f k j →
      f.Maintains depths (buffer scratch ⟨k + 2, m⟩) Inv kind) (hinv : Inv main) :
    Workspace.Upholds ⟨.empty scratch, main⟩
      (Buffer.tasks depths (.empty scratch) (events ⟨n, m⟩)) Inv kind := by
  induction n with
  | zero =>
    exact Workspace.upholds_of_mappings_eq_nil (w := ⟨.empty scratch, main⟩) [schemaEvent]
      (Graph.identified_empty scratch) (by simp [schemaEvent, Event.mappings]) hinv
  | succ n ih =>
    rw [events_succ, Buffer.tasks_append]
    refine (ih fun k j f hk => hmaintains k j f (by omega)).append fun hinv => ?_
    have hw : (Workspace.attemptAll ⟨.empty scratch, main⟩
        (Buffer.tasks depths (.empty scratch) (events ⟨n, m⟩))).buffer
          = Buffer.recordAll (.empty scratch) (events ⟨n, m⟩) :=
      Workspace.buffer_attemptAll_batch (events ⟨n, m⟩) ⟨.empty scratch, main⟩
    rw [← hw]
    refine upholds_eventsOfTable hw (fun k j f hk => ?_) hinv
    subst hk
    exact hmaintains k j f (Nat.lt_succ_self _)

end Runs

end SyntheticChain

end Lineage
