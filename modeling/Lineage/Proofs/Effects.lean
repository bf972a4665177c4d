import Lineage.Proofs.Accepted
import Lineage.Proofs.Containers
import Lineage.Proofs.Coverage

/-!
# The effect of a fragment

What there is to see in a graph that a fragment was applied to (`Effect`): all that was there, one
sub-process more between the columns as they are looked up, owned by the one process with its guid,
and the tables around the columns on either side of that process. A column that had to be made has
the properties of its instance, its node id and the names around it, and no other
(`Vertex.MadeOf`); it is linked to all its terms, as the tables are. The table is the nearest one
around the instance of the column (`Effect.isNearest_table`), and so is the schema that a column is
named after (`Effect.exists_madeOf`). None of this asks for the two columns, or their tables, to be
different.
-/

namespace Lineage

open Std Consolidation

variable {U : String → Prop} {depths : SearchDepths} {buffer main main' g g' : Graph} {f : Fragment}

/-! ## The properties of an asset -/

/-- The keys that an asset has over its instance. -/
def Key.added : List String := [nodeId, tableDisplayName, schemaDisplayName]

/-- A vertex that stands for an instance: it has the properties of the instance, a node id, and the
display names of the table and the schema around the instance, where they have one. -/
structure Vertex.MadeOf (v inst : Vertex) (n : String) (table schema : Option Vertex) : Prop where
  label_eq : v.label = (assetLabel inst).name
  nodeId_eq : v.nodeId? = some n
  table_eq : v.property? Key.tableDisplayName = table.bind Vertex.displayName?
  schema_eq : v.property? Key.schemaDisplayName = schema.bind Vertex.displayName?
  same : ∀ k, k ∉ Key.added → v.property? k = inst.property? k

/-- An instance has no property under a key of the graph, but its guid. -/
theorem Graph.Records.property?_eq_none {acc : List Event} (h : buffer.Records acc) {v : Vertex}
    (hv : v ∈ allVertices buffer) {k : String} (hguid : k ≠ Key.guid)
    (hk : k.toList.head? ≠ some 'v') : v.property? k = none := by
  obtain ⟨n, first, -, -, hstored⟩ := h.vertex v hv
  refine Option.eq_none_iff_forall_ne_some.2 fun x hx => ?_
  rcases (hstored k x).1 hx with ⟨heq, -⟩ | ⟨p, heq, -⟩
  · exact hguid heq
  · exact Key.ofEntity_ne hk p heq.symm

theorem Graph.AssetOf.madeOf {acc : List Event} (hr : buffer.Records acc) {inst v : Vertex}
    {n : String} (hinst : inst ∈ allVertices buffer) (h : g.AssetOf depths buffer inst n v)
    {table schema : Option Vertex} (htable : nearestTable depths buffer inst.id = .ok table)
    (hschema : nearestSchema depths buffer inst.id = .ok schema) :
    v.MadeOf inst n table schema := by
  have hps : v.properties = nameAfter Key.schemaDisplayName schema
      (nameAfter Key.tableDisplayName table (inst.properties.insert Key.nodeId n)) :=
    Except.ok.inj (h.properties_eq.symm.trans
      ((bind_of_ok htable _).trans (bind_of_ok hschema _)))
  have hnone : ∀ {k}, k ≠ Key.guid → k.toList.head? ≠ some 'v' → inst.properties[k]? = none :=
    fun hguid hk => hr.property?_eq_none hinst hguid hk
  have hget : ∀ k, v.property? k = (nameAfter Key.schemaDisplayName schema
      (nameAfter Key.tableDisplayName table (inst.properties.insert Key.nodeId n)))[k]? :=
    fun k => congrArg (·[k]?) hps
  refine ⟨h.label_eq, (hget _).trans ?_, (hget _).trans ?_, (hget _).trans ?_, fun k hk =>
    (hget k).trans ?_⟩
  · rw [getElem?_nameAfter (by decide), getElem?_nameAfter (by decide)]
    exact ExtTreeMap.getElem?_insert_self
  · rw [getElem?_nameAfter (by decide), getElem?_nameAfter_self,
      Properties.getElem?_insert_of_ne (by decide), hnone (by decide) (by decide), Option.or_none]
  · rw [getElem?_nameAfter_self, getElem?_nameAfter (by decide),
      Properties.getElem?_insert_of_ne (by decide), hnone (by decide) (by decide), Option.or_none]
  · simp only [Key.added, List.mem_cons, List.not_mem_nil, or_false, not_or] at hk
    rw [getElem?_nameAfter hk.2.2, getElem?_nameAfter hk.2.1,
      Properties.getElem?_insert_of_ne hk.1]
    rfl

/-! ## The one new sub-process -/

/-- Of the sub-processes after a fragment was written, one at most was not there before: the columns
that it links are found linked from then on. -/
theorem Writes.eq_of_new_subProcess [StepIds] {x : TableRole → Vertex}
    (hw : Writes (FragmentItem depths buffer f x) g g') (hg : g.WellFormed) {s s' : Vertex}
    (hs : s ∈ allVertices g') (hs' : s' ∈ allVertices g')
    (hlabel : s.label = NodeLabel.subProcess.name) (hlabel' : s'.label = NodeLabel.subProcess.name)
    (hnew : s ∉ allVertices g) (hnew' : s' ∉ allVertices g) : s = s' := by
  induction hw with
  | refl => exact absurd hs hnew
  | @tail g₁ g₂ hw hstep ih =>
    cases hstep.2 with
    | node hitem hl _ _ hvs _ =>
      have hold := fun {a} => Graph.mem_of_append_of_label_ne (v := a) hvs hl hitem.label_ne
      exact ih (hold hs hlabel) (hold hs' hlabel')
    | edge _ _ _ _ _ _ _ _ hvs _ => exact ih (hvs ▸ hs) (hvs ▸ hs')
    | @step f' u v a _ _ _ _ _ hadded =>
      obtain rfl := hadded.item.eq_of_step
      have honly : ∀ {b}, b ∈ allVertices g₂ → b.label = NodeLabel.subProcess.name →
          b ∉ allVertices g → b = a := by
        intro b hb hblabel hbnew
        refine (hadded.mem_of_subProcess hb hblabel).resolve_left fun hb => ?_
        rcases Writes.subProcess_cases hw hg hb hblabel with
          hold | ⟨hguid, u', v', hu, hv, hin, hout⟩
        · exact hbnew hold
        · obtain rfl := Option.some.inj (hu.symm.trans hadded.source_eq)
          obtain rfl := Option.some.inj (hv.symm.trans hadded.target_eq)
          exact hadded.new ⟨b, hb, hblabel, hguid, hin, hout⟩
      exact (honly hs hlabel hnew).trans (honly hs' hlabel' hnew').symm

/-! ## Processes -/

namespace Graph

/-- No two processes have one node id. -/
def SingleProcesses (g : Graph) : Prop :=
  ∀ q ∈ allVertices g, ∀ q' ∈ allVertices g, q.label = NodeLabel.process.name →
    q'.label = NodeLabel.process.name → q.nodeId? = q'.nodeId? → q = q'

theorem singleProcesses_empty (name : String) : (empty name).SingleProcesses :=
  fun q hq => by simp at hq

/-- Vertices apart from sub-processes have their guid as node id. -/
theorem Made.guid?_eq_nodeId? [StepIds] (h : g.Made (Item.Within U)) {v : Vertex}
    (hv : v ∈ allVertices g) (hlabel : v.label ≠ NodeLabel.subProcess.name) :
    v.guid? = v.nodeId? := by
  cases h.vertex v hv with
  | node hi _ hn => exact (hi.identity rfl).trans hn.symm
  | process _ _ hps => rw [guid?_of_processProperties hps, nodeId?_of_processProperties hps]
  | step _ hl _ => exact absurd hl hlabel

end Graph

theorem Write.singleProcesses [StepIds] (hw : Write (Item.Within U) g g') (h : g.SingleProcesses) :
    g'.SingleProcesses := by
  intro q hq q' hq' hlabel hlabel' heq
  cases hw with
  | node hitem hl _ _ hvs _ =>
    have hne := (hitem.shape.resolve_right (by simp)).1
    have hold := fun {a} => Graph.mem_of_append_of_label_ne (v := a) hvs hl hne
    exact h q (hold hq hlabel) q' (hold hq' hlabel') hlabel hlabel' heq
  | edge _ _ _ _ _ _ _ _ hvs _ => exact h q (hvs ▸ hq) q' (hvs ▸ hq') hlabel hlabel' heq
  | @step f _ _ _ o vs _ _ _ hadded =>
    -- an owner that was added is the first process with its node id
    have hfirst : ∀ {a b}, a ∈ vs → b ∈ allVertices g → b.label = NodeLabel.process.name →
        a.nodeId? ≠ b.nodeId? := by
      intro a b ha hb hblabel heq
      have haid : a.nodeId? = some f.process.guid :=
        hadded.owner.eq_of_mem ha ▸ hadded.owner.nodeId_eq
      cases hadded.owner with
      | existing _ _ _ => cases ha
      | created _ _ _ hnew => exact hnew b hb hblabel (heq.symm.trans haid)
    rcases hadded.mem_of_process hq hlabel with hq | hq <;>
      rcases hadded.mem_of_process hq' hlabel' with hq' | hq'
    · exact h q hq q' hq' hlabel hlabel' heq
    · exact absurd heq.symm (hfirst hq' hq hlabel)
    · exact absurd heq (hfirst hq hq' hlabel')
    · rw [hadded.owner.eq_of_mem hq, hadded.owner.eq_of_mem hq']

theorem Writes.singleProcesses [StepIds] {name : String}
    (hw : Writes (Item.Within U) (.empty name) g) : g.SingleProcesses :=
  hw.invariant (fun _ _ => trivial) (fun _ _ _ hw h => hw.singleProcesses h)
    (Graph.wellFormed_empty name) trivial (Graph.singleProcesses_empty name)

/-! ## The effect -/

/-- What there is to see of a fragment that was applied as the sub-process `s` of the process `q`.
For each side, `inst` and `table` are the instance of the column and the nearest table around it in
the buffer, and `c` and `x` the vertices that these are looked up to. -/
structure Effect (depths : SearchDepths) (buffer main main' : Graph) (f : Fragment)
    (subProcess : String) (s q : Vertex) (inst table c x : TableRole → Vertex) : Prop where
  grows : main.Grows main'
  step : ∀ v, v ∈ allVertices main' ∧ v ∉ allVertices main ∧ v.label = NodeLabel.subProcess.name
    ↔ v = s
  step_nodeId : s.nodeId? = some subProcess
  step_guid : s.guid? = some f.process.guid
  step_displayName : s.property? Key.displayName = f.process.displayName
  process : ∀ v, v ∈ allVertices main' ∧ v.label = NodeLabel.process.name
    ∧ v.nodeId? = some f.process.guid ↔ v = q
  process_guid : q.guid? = some f.process.guid
  instance_eq : ∀ role, vertexWith? buffer Key.guid (f.column role) = some (inst role)
  table_eq : ∀ role, nearestTable depths buffer (inst role).id = .ok (some (table role))
  column : ∀ role, vertexWith? main' Key.nodeId (f.column role) = some (c role)
  around : ∀ role, ∃ n, (table role).guid? = some n
    ∧ vertexWith? main' Key.nodeId n = some (x role)
  into_step : main'.Joined .columnAndProcess (c .input).id s.id
  out_of_step : main'.Joined .columnAndProcess s.id (c .output).id
  step_of : main'.Joined .subprocessToProcess s.id q.id
  into_process : main'.Joined .tableAndProcess (x .input).id q.id
  out_of_process : main'.Joined .tableAndProcess q.id (x .output).id
  within : ∀ role, main'.Joined .includedIn (c role).id (x role).id
  /-- A column was there before, or it is the output and came with the terms of the input, or it was
  made. -/
  origin : ∀ role, c role ∈ allVertices main
    ∨ (role = .output ∧ (c role).label = NodeLabel.glossaryTerm.name
      ∧ AttachItem buffer (inst .input) f.columnIn
        (.node .glossaryTerm f.columnOut (c role).properties))
    ∨ main'.Explained buffer (inst role) (c role).id
      ∧ ∃ schema, nearestSchema depths buffer (inst role).id = .ok schema
        ∧ (c role).MadeOf (inst role) (f.column role) (table role) schema
  terms : ∀ role, main'.TableExplained buffer (x role)
  /-- A sub-process is found for a table only if the table goes by a node id made for one. -/
  table_terms : ∀ role, (x role).label ≠ NodeLabel.subProcess.name →
    main'.Explained buffer (table role) (x role).id

section Nearest

variable {subProcess : String} {s q : Vertex} {inst table c x : TableRole → Vertex}
  (h : Effect depths buffer main main' f subProcess s q inst table c x)

include h

theorem Effect.inst_mem (hb : buffer.Coherent) (role : TableRole) :
    inst role ∈ allVertices buffer :=
  (hb.mem_of_vertexWith? (h.instance_eq role)).1

/-- The table of a column is the nearest one around its instance. -/
theorem Effect.isNearest_table (hb : buffer.WellFormed) (role : TableRole) :
    buffer.IsNearest (inst role) TypeName.isTableLike depths.table (some (table role)) :=
  hb.isNearest (h.inst_mem hb.toCoherent role) (h.table_eq role)

/-- A column that was made, and not as a term, is named after the nearest table and the nearest
schema around its instance. -/
theorem Effect.exists_madeOf (hb : buffer.WellFormed) {role : TableRole}
    (hnew : c role ∉ allVertices main) (hlabel : (c role).label ≠ NodeLabel.glossaryTerm.name) :
    ∃ schema, buffer.IsNearest (inst role) TypeName.isSchemaLike depths.schema schema
      ∧ (c role).MadeOf (inst role) (f.column role) (table role) schema := by
  rcases h.origin role with hold | ⟨-, hterm, -⟩ | ⟨-, schema, hschema, hmade⟩
  · exact absurd hold hnew
  · exact absurd hterm hlabel
  · exact ⟨schema, hb.isNearest (h.inst_mem hb.toCoherent role) hschema, hmade⟩

end Nearest

theorem effect_of_consolidate [StepIds] {name subProcess : String} {acc : List Event}
    (hb : buffer.Identified) (hr : buffer.Records acc)
    (hU : ∀ v ∈ allVertices buffer, ∀ n, v.guid? = some n → U n)
    (hm : main.WellFormed) (hw : Writes (Item.Within U) (.empty name) main)
    (hf : ∀ n ∈ f.guids, U n)
    (h : consolidate depths buffer main f = .ok (.applied subProcess, main')) :
    ∃ s q inst table c x, Effect depths buffer main main' f subProcess s q inst table c x := by
  have hcases := consolidate_cases depths hb.toWellFormed hm f
  rw [h] at hcases
  cases hcases with
  | @applied x s u v q _ _ hplaced hwrites hspans _ hnew hexplained =>
    have hall := hw.trans (hwrites.mono fun i hi => hi.within hU hb.toWellFormed hf)
    have hm' := hwrites.wellFormed hm
    have hpasses := hspans.passes
    choose inst table n hinst henc hx using hplaced
    have hcolumns : ∀ role, ∃ w, vertexWith? main' Key.nodeId (f.column role) = some w
        ∧ ColumnOrigin depths buffer main main' f (inst role) role w :=
      fun role => hnew.column role _ (hinst role)
    choose c hc horigin using hcolumns
    obtain rfl : u = c .input := Option.some.inj (hspans.source_eq.symm.trans (hc .input))
    obtain rfl : v = c .output := Option.some.inj (hspans.target_eq.symm.trans (hc .output))
    have hinstmem : ∀ role, inst role ∈ allVertices buffer := fun role =>
      (hb.mem_of_vertexWith? (hinst role)).1
    have hguid : ∀ {w}, w ∈ allVertices main' → w.label ≠ NodeLabel.subProcess.name →
        w.guid? = w.nodeId? := hall.made.guid?_eq_nodeId?
    refine ⟨s, q, inst, table, c, x, ?_⟩
    exact {
      grows := hwrites.grows
      step := fun w => by
        constructor
        · rintro ⟨hmem, hw, hlabel⟩
          exact hwrites.eq_of_new_subProcess hm hmem hpasses.mem hlabel hpasses.label_eq hw
            hnew.step_new
        · rintro rfl
          exact ⟨hpasses.mem, hnew.step_new, hpasses.label_eq⟩
      step_nodeId := nodeId?_of_processProperties hnew.step_properties
      step_guid := hpasses.guid_eq
      step_displayName := by
        rw [Vertex.property?, hnew.step_properties, processProperties_displayName]
      process := fun w => by
        constructor
        · rintro ⟨hmem, hlabel, hid⟩
          exact hall.singleProcesses w hmem q hnew.owner_mem hlabel hnew.owner_label
            (hid.trans hnew.owner_nodeId.symm)
        · rintro rfl
          exact ⟨hnew.owner_mem, hnew.owner_label, hnew.owner_nodeId⟩
      process_guid :=
        (hguid hnew.owner_mem (by simp [hnew.owner_label])).trans hnew.owner_nodeId
      instance_eq := hinst
      table_eq := fun role => (henc role).1
      column := hc
      around := fun role => ⟨n role, (henc role).2, hx role⟩
      into_step := hpasses.joined_in
      out_of_step := hpasses.joined_out
      step_of := hpasses.joined_up
      into_process := hspans.table_in.flow
      out_of_process := hspans.table_out.flow
      within := fun role => by
        cases role with
        | input => exact hspans.table_in.within
        | output => exact hspans.table_out.within
      origin := fun role => by
        cases horigin role with
        | earlier hold => exact .inl hold
        | term hother hitem hlabel =>
          obtain rfl := Option.some.inj (hother.symm.trans (hinst .input))
          obtain rfl := hitem.label_eq
          exact .inr (.inl ⟨rfl, hlabel, hitem⟩)
        | made hasset =>
          obtain ⟨schema, hschema, -⟩ :=
            hb.exists_nearestContainer (hinstmem role) TypeName.isSchemaLike depths.schema
          exact .inr (.inr ⟨hasset.explained, schema, hschema,
            hasset.madeOf hr (hinstmem role) (henc role).1 hschema⟩)
      terms := hexplained
      table_terms := fun role hlabel => by
        obtain ⟨hmem, hid⟩ := hm'.mem_of_vertexWith? (hx role)
        have htable := ((henc role).mem hb.toWellFormed (hinstmem role)).1
        exact hexplained role (n role) (table role) ((hguid hmem hlabel).trans hid)
          (hb.vertexWith?_eq_some_iff.2 ⟨htable, (henc role).2⟩) }

/-- Whatever events made the buffer graph and whatever tasks the main graph: a fragment that is
applied has its effect, and leaves all else as it was. -/
theorem effect_of_applied [StepIds] (es : List Event) (tasks : List Task) {depths : SearchDepths}
    {f : Fragment} {subProcess : String} {main' : Graph} :
    let buffer := Buffer.recordAll (.empty GraphName.buffer.name) es
    let main := (Workspace.empty.attemptAll tasks).main
    consolidate depths buffer main f = .ok (.applied subProcess, main') →
      ∃ s q inst table c x, Effect depths buffer main main' f subProcess s q inst table c x := by
  intro buffer main h
  obtain ⟨hb, hr⟩ := Buffer.records_recordAll es (Graph.identified_empty GraphName.buffer.name)
    (Graph.records_empty GraphName.buffer.name)
  have hw := Workspace.regular_empty.attemptAll (U := fun _ => True) tasks fun _ _ _ _ => trivial
  exact effect_of_consolidate hb hr (fun _ _ _ _ => trivial) hw.main hw.writes
    (fun _ _ => trivial) h

/-- A table in a schema, with two columns, one of which is assigned to the term of the table. -/
def sampleWarehouse : List Event :=
  [.newEntity { guid := "s", type := "RelationalDBSchemaType"
                properties := (∅ : Properties).insert "displayName" "sales" },
    .newEntity { guid := "t", type := "RelationalTable"
                 properties := (∅ : Properties).insert "displayName" "orders" },
    .newEntity { guid := "a", type := "RelationalColumn" },
    .newEntity { guid := "b", type := "RelationalColumn" },
    .newEntity { guid := "g", type := "GlossaryTerm" }]
  ++ ([("s", "t"), ("t", "a"), ("t", "b")].map fun (m, n) => .newRelationship
    { guid := m ++ n, type := "AttributeForSchema", endOne := m, endTwo := n })
  ++ ["a", "t"].map fun n => .newRelationship
    { guid := n ++ "g", type := TypeName.semanticAssignment, endOne := n, endTwo := "g" }

def sampleEarlier : List Task :=
  sampleWarehouse.map .record ++ [.consolidate {} ⟨"b", "b", ⟨"p", none⟩⟩]

/-- One column is there, with the table of both and the process. The other one is made, and named
after the table and the schema around its instance. -/
theorem effect_of_applied_sampleWarehouse :
    let buffer := Buffer.recordAll (.empty GraphName.buffer.name) sampleWarehouse
    let main := (Workspace.empty.attemptAll sampleEarlier).main
    let f : Fragment := ⟨"a", "b", ⟨"p", "load"⟩⟩
    ∃ main', consolidate {} buffer main f = .ok (.applied "sub#6", main')
      ∧ ∃ s q inst table c x, Effect {} buffer main main' f "sub#6" s q inst table c x
        ∧ c .input ∉ allVertices main
        ∧ (c .input).property? Key.tableDisplayName = some "orders"
        ∧ (c .input).property? Key.schemaDisplayName = some "sales" := by
  intro buffer main f
  have hanswer : (consolidate {} buffer main f).map (fun p => (p.1,
        (vertexWith? p.2 Key.nodeId "a").map fun v => (decide (v ∈ allVertices main),
          v.property? Key.tableDisplayName, v.property? Key.schemaDisplayName)))
      = .ok (.applied "sub#6", some (false, some "orders", some "sales")) := by
    decide +kernel
  rcases hc : consolidate {} buffer main f with err | ⟨outcome, main'⟩
  · rw [hc] at hanswer
    cases hanswer
  rw [hc] at hanswer
  obtain ⟨rfl, hmade⟩ := Prod.mk.inj (Except.ok.inj hanswer)
  obtain ⟨s, q, inst, table, c, x, heffect⟩ := effect_of_applied sampleWarehouse sampleEarlier hc
  obtain ⟨v, hv, hnames⟩ := Option.map_eq_some_iff.1 hmade
  obtain rfl : v = c .input := Option.some.inj (hv.symm.trans (heffect.column .input))
  simp only [Prod.mk.injEq, decide_eq_false_iff_not] at hnames
  exact ⟨main', rfl, s, q, inst, table, c, x, heffect, hnames⟩

end Lineage
