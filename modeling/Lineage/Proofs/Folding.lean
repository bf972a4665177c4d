import Lineage.Proofs.Linking

/-!
# Folding in a fragment

Consolidating a fragment ends in one of four ways (`consolidate_cases`): a column is not in the
buffer, the fragment was there already, a column has no enclosing table, or the fragment is applied.
Only the last writes to the graph, and no failure is one of the store. What is written then is told
by the fragment and the buffer (`FragmentItem`), and all of it is there afterwards, except for the
terms of a column that was there before.
-/

namespace Lineage

open Std Consolidation Transaction

variable {P : Item → Prop} {t : Transaction} {buffer : Graph} {depths : SearchDepths}

/-! ## Tables -/

/-- The nearest table of a column in the buffer, which carries a guid. -/
def Enclosed (depths : SearchDepths) (buffer : Graph) (column table : Vertex) (n : String) : Prop :=
  nearestTable depths buffer column.id = .ok (some table) ∧ table.guid? = some n

theorem Enclosed.unique {column table table' : Vertex} {n n' : String}
    (h : Enclosed depths buffer column table n) (h' : Enclosed depths buffer column table' n') :
    table = table' ∧ n = n' := by
  obtain rfl : table = table' := Option.some.inj (Except.ok.inj (h.1.symm.trans h'.1))
  exact ⟨rfl, Option.some.inj (h.2.symm.trans h'.2)⟩

inductive TableItem (depths : SearchDepths) (buffer : Graph) (table : Vertex) (n : String) :
    Item → Prop
  | self {schema : Option Vertex}
      (schema_eq : nearestSchema depths buffer table.id = .ok schema) :
      TableItem depths buffer table n (.node .table n
        (nameAfter Key.schemaDisplayName schema (table.properties.insert Key.nodeId n)))

theorem TableItem.isBeside {table : Vertex} {n : String} {i : Item} :
    TableItem depths buffer table n i → i.IsBeside
  | .self _ => by simp

theorem ensureTable_missing (hb : buffer.WellFormed) {column : Vertex}
    (hcolumn : column ∈ allVertices buffer) (c : String)
    (hnone : ∀ table n, ¬ Enclosed depths buffer column table n) :
    ensureTable depths buffer column c t = .error (.missingTable c) := by
  obtain ⟨found, hfound, -⟩ := hb.exists_nearestContainer hcolumn TypeName.isTableLike depths.table
  refine (bind_of_ok (lift_of_ok hfound) _).trans ?_
  rcases found with _ | table
  · rfl
  · rcases hguid : table.guid? with _ | n
    · simp only [hguid]
      rfl
    · exact absurd ⟨hfound, hguid⟩ (hnone table n)

theorem ensureTable_of_enclosed {column table : Vertex} {n : String} (c : String)
    (henc : Enclosed depths buffer column table n) :
    ensureTable depths buffer column c t = match vertexWith? t Key.nodeId n with
      | some v => return (v.id, t)
      | none => do
        let schema ← nearestSchema depths buffer table.id
        return t.addVertex NodeLabel.table.name
          (nameAfter Key.schemaDisplayName schema (table.properties.insert Key.nodeId n)) := by
  obtain ⟨hnear, hguid⟩ := henc
  refine (bind_of_ok (lift_of_ok hnear) _).trans ?_
  dsimp only
  generalize table.guid? = o at hguid ⊢
  subst hguid
  rfl

theorem exists_ensureTable [StepIds] (hb : buffer.WellFormed) (h : t.WellFormed)
    {column table : Vertex} (hcolumn : column ∈ allVertices buffer) (c : String) {n : String}
    (henc : Enclosed depths buffer column table n)
    (hP : ∀ i, TableItem depths buffer table n i → P i) :
    ∃ v t', ensureTable depths buffer column c t = .ok (v.id, t') ∧ Advances P t t'
      ∧ vertexWith? t'.commit Key.nodeId n = some v := by
  obtain ⟨found, hfound, hmem⟩ :=
    hb.exists_nearestContainer hcolumn TypeName.isTableLike depths.table
  have htable : table ∈ allVertices buffer :=
    (hmem table (Except.ok.inj (hfound.symm.trans henc.1))).1
  rw [ensureTable_of_enclosed c henc, ← h.vertexWith?_commit]
  rcases hold : vertexWith? t.commit Key.nodeId n with _ | v
  · obtain ⟨schema, hschema, -⟩ :=
      hb.exists_nearestContainer htable TypeName.isSchemaLike depths.schema
    have hid : (nameAfter Key.schemaDisplayName schema
        (table.properties.insert Key.nodeId n))[Key.nodeId]? = some n := by
      rw [getElem?_nameAfter (by decide)]
      exact ExtTreeMap.getElem?_insert_self
    obtain ⟨v, t', hadd, hadv, hv, -⟩ := h.advances_addVertex (hP _ (.self hschema)) hid hold
    refine ⟨v, t', (bind_of_ok (lift_of_ok hschema) _).trans ?_, hadv, hv⟩
    rw [hadd]
    rfl
  · exact ⟨v, t, rfl, .refl h, hold⟩

/-- The edge between a table and a process, the way the role of the table has it. -/
def flowItem (role : TableRole) (table process : String) : Item :=
  match role with
  | .input => .edge .tableAndProcess table process
  | .output => .edge .tableAndProcess process table

/-- What is written to link a table with a node id, where `x` is the vertex that has the node id. -/
inductive LinkItem (buffer : Graph) (role : TableRole) (process column table : String)
    (x : Vertex) : Item → Prop
  | flow : LinkItem buffer role process column table x (flowItem role table process)
  | within : LinkItem buffer role process column table x (.edge .includedIn column table)
  | attached {g : String} {inst : Vertex} {i : Item} (guid_eq : x.guid? = some g)
      (inst_eq : vertexWith? buffer Key.guid g = some inst)
      (item : AttachItem buffer inst table i) :
      LinkItem buffer role process column table x i

theorem LinkItem.isBeside {role : TableRole} {p c n : String} {x : Vertex} {i : Item} :
    LinkItem buffer role p c n x i → i.IsBeside
  | .flow => by cases role <;> simp [flowItem]
  | .within => by simp
  | .attached _ _ item => item.isBeside

/-- The source and the target of the edge between a table and a process. -/
def flowEnds (role : TableRole) (table process : VertexId) : VertexId × VertexId :=
  match role with
  | .input => (table, process)
  | .output => (process, table)

/-- A table is linked: to a process the way its role has it, and to a column that is in it. -/
structure Graph.TableLinked (g : Graph) (role : TableRole) (table process column : VertexId) :
    Prop where
  flow : g.Joined .tableAndProcess (flowEnds role table process).1 (flowEnds role table process).2
  within : g.Joined .includedIn column table

theorem Graph.Grows.tableLinked {g g' : Graph} (hg : g.Grows g') {role : TableRole}
    {table process column : VertexId} (h : g.TableLinked role table process column) :
    g'.TableLinked role table process column :=
  ⟨hg.joined h.flow, hg.joined h.within⟩

theorem Graph.TableLinked.has_flow {g : Graph} {role : TableRole} {x q : Vertex} {n p : String}
    {column : VertexId} (h : g.TableLinked role x.id q.id column) (hx : x ∈ allVertices g)
    (hn : x.nodeId? = some n) (hq : q ∈ allVertices g) (hp : q.nodeId? = some p) :
    g.Has (flowItem role n p) := by
  cases role with
  | input => exact h.flow.has hx hn hq hp
  | output => exact h.flow.has hq hp hx hn

theorem exists_ensureFlow [StepIds] (h : t.WellFormed) (role : TableRole) {x q : Vertex}
    {n p : String} (hx : x ∈ allVertices t.commit) (hn : x.nodeId? = some n)
    (hq : q ∈ allVertices t.commit) (hp : q.nodeId? = some p) (hP : P (flowItem role n p)) :
    ∃ t', ensureEdge .tableAndProcess (flowEnds role x.id q.id).1 (flowEnds role x.id q.id).2 t
        = .ok t' ∧ Advances P t t' ∧ t'.commit.Joined .tableAndProcess
          (flowEnds role x.id q.id).1 (flowEnds role x.id q.id).2 := by
  cases role with
  | input => exact exists_ensureEdge h (by decide) hP hx hn hq hp
  | output => exact exists_ensureEdge h (by decide) hP hq hp hx hn

/-- A table is linked to the terms of the instance that has its guid. -/
def Graph.TableExplained (g buffer : Graph) (x : Vertex) : Prop :=
  ∀ n inst, x.guid? = some n → vertexWith? buffer Key.guid n = some inst →
    g.Explained buffer inst x.id

/-- With both edges in place only the terms of a table are left to attach. -/
theorem linkTable_of_edges {role : TableRole} {table process column : VertexId}
    {t₁ t₂ : Transaction} {x : Vertex}
    (hflow : ensureEdge .tableAndProcess (flowEnds role table process).1
      (flowEnds role table process).2 t = .ok t₁)
    (hwithin : ensureEdge .includedIn column table t₁ = .ok t₂)
    (hreq : requireVertex t₂ table = .ok x) :
    linkTable buffer role table process column t
      = match x.guid?.bind fun guid => vertexWith? buffer Key.guid guid with
        | some inst => attachTerms buffer inst.id table t₂
        | none => return t₂ := by
  cases role with
  | input => exact (bind_of_ok hflow _).trans ((bind_of_ok hwithin _).trans (bind_of_ok hreq _))
  | output => exact (bind_of_ok hflow _).trans ((bind_of_ok hwithin _).trans (bind_of_ok hreq _))

theorem exists_linkTable [StepIds] (hb : buffer.WellFormed) (h : t.WellFormed) (role : TableRole)
    {x q u : Vertex} {n p c : String} (hx : x ∈ allVertices t.commit) (hn : x.nodeId? = some n)
    (hq : q ∈ allVertices t.commit) (hp : q.nodeId? = some p) (hu : u ∈ allVertices t.commit)
    (hc : u.nodeId? = some c) (hP : ∀ i, LinkItem buffer role p c n x i → P i) :
    ∃ t', linkTable buffer role x.id q.id u.id t = .ok t' ∧ Advances P t t'
      ∧ t'.commit.TableLinked role x.id q.id u.id
      ∧ (∀ i, LinkItem buffer role p c n x i → t'.commit.Has i)
      ∧ t'.commit.TableExplained buffer x := by
  obtain ⟨t₁, hflow, hadv₁, hj₁⟩ := exists_ensureFlow h role hx hn hq hp (hP _ .flow)
  obtain ⟨t₂, hwithin, hadv₂, hj₂⟩ := exists_ensureEdge hadv₁.wellFormed (by decide)
    (hP _ .within) (hadv₁.mem_vertices hu) hc (hadv₁.mem_vertices hx) hn
  have hadv := hadv₁.trans hadv₂
  have hx₂ := hadv.mem_vertices hx
  have hlinked : t₂.commit.TableLinked role x.id q.id u.id := ⟨hadv₂.grows.joined hj₁, hj₂⟩
  have hhas₁ := hlinked.has_flow hx₂ hn (hadv.mem_vertices hq) hp
  have hhas₂ := hj₂.has (hadv.mem_vertices hu) hc hx₂ hn
  have hreq : requireVertex t₂ x.id = .ok x := by
    rw [← hadv₂.wellFormed.requireVertex_commit]
    exact hadv₂.wellFormed.coherent_commit.requireVertex_of_mem hx₂
  rw [linkTable_of_edges hflow hwithin hreq]
  rcases hinst : x.guid?.bind fun guid => vertexWith? buffer Key.guid guid with _ | inst
  · have hnone : ∀ g inst, x.guid? = some g → vertexWith? buffer Key.guid g ≠ some inst := by
      intro g inst hg hi
      rw [hg, Option.bind_some, hi] at hinst
      cases hinst
    refine ⟨t₂, rfl, hadv, hlinked, fun i hi => ?_, fun g inst hg hi => absurd hi (hnone g inst hg)⟩
    cases hi with
    | flow => exact hhas₁
    | within => exact hhas₂
    | attached hg hi _ => exact absurd hi (hnone _ _ hg)
  · obtain ⟨g, hg, hg'⟩ := Option.bind_eq_some_iff.1 hinst
    obtain ⟨t₃, hattach, hadv₃, hhas₃, hexplained⟩ := exists_attachTerms hb hadv₂.wellFormed inst
      hx₂ hn fun i hi => hP i (.attached hg hg' hi)
    have honly : ∀ {g₂ inst₂}, x.guid? = some g₂ → vertexWith? buffer Key.guid g₂ = some inst₂ →
        inst₂ = inst := by
      intro g₂ inst₂ hg₂ hi₂
      obtain rfl := Option.some.inj (hg.symm.trans hg₂)
      exact Option.some.inj (hi₂.symm.trans hg')
    refine ⟨t₃, hattach, hadv.trans hadv₃, hadv₃.grows.tableLinked hlinked, fun i hi => ?_,
      fun g₂ inst₂ hg₂ hi₂ => honly hg₂ hi₂ ▸ hexplained⟩
    cases hi with
    | flow => exact hadv₃.grows.has hhas₁
    | within => exact hadv₃.grows.has hhas₂
    | attached hg₂ hi₂ hitem => exact hhas₃ i (honly hg₂ hi₂ ▸ hitem)

/-! ## Fragments -/

/-- The column on one side of a fragment. -/
def Fragment.column (f : Fragment) : TableRole → String
  | .input => f.columnIn
  | .output => f.columnOut

instance {p : TableRole → Prop} [DecidablePred p] : Decidable (∀ role, p role) :=
  decidable_of_iff (p .input ∧ p .output)
    ⟨fun h role => by cases role <;> simp [h], fun h => ⟨h .input, h .output⟩⟩

/-- What a fragment is made of before its tables are linked. -/
inductive CoreItem (depths : SearchDepths) (buffer : Graph) (f : Fragment) : Item → Prop
  | asset {role : TableRole} {inst : Vertex} {i : Item}
      (inst_eq : vertexWith? buffer Key.guid (f.column role) = some inst)
      (item : AssetItem depths buffer inst (f.column role) i) : CoreItem depths buffer f i
  | step : CoreItem depths buffer f (.step f)
  | process : CoreItem depths buffer f (.process f.process)
  | table {role : TableRole} {inst table : Vertex} {n : String} {i : Item}
      (inst_eq : vertexWith? buffer Key.guid (f.column role) = some inst)
      (enclosed : Enclosed depths buffer inst table n) (item : TableItem depths buffer table n i) :
      CoreItem depths buffer f i

/-- What a fragment is made of, where `x` gives the vertices that stand for its tables. -/
inductive FragmentItem (depths : SearchDepths) (buffer : Graph) (f : Fragment)
    (x : TableRole → Vertex) : Item → Prop
  | core {i : Item} (item : CoreItem depths buffer f i) : FragmentItem depths buffer f x i
  | link {role : TableRole} {inst table : Vertex} {n : String} {i : Item}
      (inst_eq : vertexWith? buffer Key.guid (f.column role) = some inst)
      (enclosed : Enclosed depths buffer inst table n)
      (item : LinkItem buffer role f.process.guid (f.column role) n (x role) i) :
      FragmentItem depths buffer f x i

/-- A column that was there before a fragment came, so that its terms are not looked at. -/
def SkippedAsset (depths : SearchDepths) (buffer main : Graph) (f : Fragment) (i : Item) : Prop :=
  ∃ role inst, vertexWith? buffer Key.guid (f.column role) = some inst
    ∧ AssetItem depths buffer inst (f.column role) i
    ∧ ((∃ u ∈ allVertices main, u.nodeId? = some (f.column role))
      ∨ ∃ other l ps, vertexWith? buffer Key.guid f.columnIn = some other
        ∧ AttachItem buffer other f.columnIn (.node l (f.column role) ps))

/-- Where the vertex that a column is looked up to comes from. -/
inductive ColumnOrigin (depths : SearchDepths) (buffer main g : Graph) (f : Fragment)
    (inst : Vertex) : TableRole → Vertex → Prop
  | earlier {role : TableRole} {v : Vertex} (mem : v ∈ allVertices main) :
      ColumnOrigin depths buffer main g f inst role v
  /-- It was added with the terms of the input column. -/
  | term {instIn v : Vertex} {l : NodeLabel}
      (inst_eq : vertexWith? buffer Key.guid f.columnIn = some instIn)
      (item : AttachItem buffer instIn f.columnIn (.node l f.columnOut v.properties))
      (label_eq : v.label = l.name) : ColumnOrigin depths buffer main g f inst .output v
  | made {role : TableRole} {v : Vertex} (asset : g.AssetOf depths buffer inst (f.column role) v) :
      ColumnOrigin depths buffer main g f inst role v

theorem ColumnOrigin.mono {main g g' : Graph} (h : g.Grows g') (hg : g.Coherent)
    (hg' : g'.Coherent) {f : Fragment} {inst v : Vertex} {role : TableRole} :
    ColumnOrigin depths buffer main g f inst role v →
      ColumnOrigin depths buffer main g' f inst role v
  | .earlier hmem => .earlier hmem
  | .term hinst hitem hlabel => .term hinst hitem hlabel
  | .made hasset => .made (hasset.mono h hg hg')

/-- What else there is of a fragment that comes with a new sub-process `s` of the process `q`. -/
structure Graph.Furnished [StepIds] (g : Graph) (depths : SearchDepths) (buffer main : Graph)
    (f : Fragment) (s q : Vertex) : Prop where
  step_new : s ∉ allVertices main
  step_properties : s.properties = processProperties (StepIds.nodeId s.id) f.process
  owner_mem : q ∈ allVertices g
  owner_label : q.label = NodeLabel.process.name
  owner_nodeId : q.nodeId? = some f.process.guid
  column : ∀ role inst, vertexWith? buffer Key.guid (f.column role) = some inst →
    ∃ v, vertexWith? g Key.nodeId (f.column role) = some v
      ∧ ColumnOrigin depths buffer main g f inst role v

theorem Graph.Furnished.mono [StepIds] {main g g' : Graph} (hgrows : g.Grows g') (hg : g.Coherent)
    (hg' : g'.Coherent) {f : Fragment} {s q : Vertex} (h : g.Furnished depths buffer main f s q) :
    g'.Furnished depths buffer main f s q where
  step_new := h.step_new
  step_properties := h.step_properties
  owner_mem := hgrows.mem_vertices h.owner_mem
  owner_label := h.owner_label
  owner_nodeId := h.owner_nodeId
  column role inst hinst := by
    obtain ⟨v, hv, horigin⟩ := h.column role inst hinst
    exact ⟨v, hgrows.vertexWith? hg hg' hv, horigin.mono hgrows hg hg'⟩

/-- The sub-process `s` of a fragment runs between the vertices that its columns are looked up to,
and the tables that stand around them are linked on either side of its process `q`. -/
structure Graph.Spans (g : Graph) (f : Fragment) (x : TableRole → Vertex) (s u v q : Vertex) :
    Prop where
  source_eq : vertexWith? g Key.nodeId f.columnIn = some u
  target_eq : vertexWith? g Key.nodeId f.columnOut = some v
  passes : g.Passes f.process.guid s u v q
  table_in : g.TableLinked .input (x .input).id q.id u.id
  table_out : g.TableLinked .output (x .output).id q.id v.id

/-- How consolidating a fragment can end. -/
inductive Consolidated [StepIds] (depths : SearchDepths) (buffer main : Graph) (f : Fragment) :
    Except LineageError (Outcome × Graph) → Prop
  | notFound {role : TableRole}
      (missing : vertexWith? buffer Key.guid (f.column role) = none) :
      Consolidated depths buffer main f (.error (.notFound .consolidate (f.column role)))
  | alreadyPresent
      (columns : ∀ role, ∃ inst, vertexWith? buffer Key.guid (f.column role) = some inst)
      (present : main.Present f.columnIn f.columnOut f.process.guid) :
      Consolidated depths buffer main f (.ok (.alreadyPresent, main))
  | missingTable {role : TableRole} {inst : Vertex}
      (absent : ¬ main.Present f.columnIn f.columnOut f.process.guid)
      (inst_eq : vertexWith? buffer Key.guid (f.column role) = some inst)
      (missing : ∀ table n, ¬ Enclosed depths buffer inst table n) :
      Consolidated depths buffer main f (.error (.missingTable (f.column role)))
  | applied {x : TableRole → Vertex} {s u v q : Vertex} {main' : Graph}
      (absent : ¬ main.Present f.columnIn f.columnOut f.process.guid)
      (placed : ∀ role, ∃ inst table n, vertexWith? buffer Key.guid (f.column role) = some inst
        ∧ Enclosed depths buffer inst table n
        ∧ vertexWith? main' Key.nodeId n = some (x role))
      (writes : Writes (FragmentItem depths buffer f x) main main')
      (spans : main'.Spans f x s u v q)
      (has : ∀ i, FragmentItem depths buffer f x i →
        main'.Has i ∨ SkippedAsset depths buffer main f i)
      (furnished : main'.Furnished depths buffer main f s q)
      (explained : ∀ role, main'.TableExplained buffer (x role)) :
      Consolidated depths buffer main f (.ok (.applied (StepIds.nodeId s.id), main'))

theorem Graph.Spans.present {g : Graph} {f : Fragment} {x : TableRole → Vertex} {s u v q : Vertex}
    (h : g.Spans f x s u v q) : g.Present f.columnIn f.columnOut f.process.guid :=
  ⟨u, v, h.source_eq, h.target_eq, h.passes.linked⟩

theorem bufferVertex_of_some {n : String} {v : Vertex}
    (h : vertexWith? buffer Key.guid n = some v) : bufferVertex buffer n = .ok v := by
  simp only [bufferVertex, h]

theorem bufferVertex_of_none {n : String} (h : vertexWith? buffer Key.guid n = none) :
    bufferVertex buffer n = .error (.notFound .consolidate n) := by
  simp only [bufferVertex, h]

theorem fold_missing_in [StepIds] {f : Fragment}
    (hin : vertexWith? buffer Key.guid f.columnIn = none) :
    fold depths buffer f t = .error (.notFound .consolidate f.columnIn) := by
  unfold fold
  rw [bufferVertex_of_none hin]
  rfl

theorem fold_missing_out [StepIds] {f : Fragment} {instIn : Vertex}
    (hin : vertexWith? buffer Key.guid f.columnIn = some instIn)
    (hout : vertexWith? buffer Key.guid f.columnOut = none) :
    fold depths buffer f t = .error (.notFound .consolidate f.columnOut) := by
  unfold fold
  rw [bufferVertex_of_some hin, bufferVertex_of_none hout]
  rfl

/-- A vertex that came with an asset is the asset, or it came with the terms of its instance. -/
theorem Writes.mem_vertices_of_asset [StepIds] {inst : Vertex} {n : String} {g g' : Graph}
    (hw : Writes (AssetItem depths buffer inst n) g g') {v : Vertex} (hv : v ∈ allVertices g')
    {m : String} (hm : v.nodeId? = some m) : v ∈ allVertices g ∨ m = n
      ∨ ∃ l : NodeLabel, AttachItem buffer inst n (.node l m v.properties) ∧ v.label = l.name := by
  rcases hw.mem_vertices_of_isBeside (fun _ hi => hi.isBeside) hv with
    hold | ⟨l, k, hitem, hlabel, hk⟩
  · exact .inl hold
  · obtain rfl := Option.some.inj (hm.symm.trans hk)
    cases hitem with
    | self _ => exact .inr (.inl rfl)
    | attached hattach => exact .inr (.inr ⟨l, hattach, hlabel⟩)

/-- The columns of a fragment are there with all they bring along, unless they were there before. -/
theorem exists_ensureColumns [StepIds] (depths : SearchDepths) (hb : buffer.WellFormed)
    (h : t.WellFormed) {f : Fragment} {instIn instOut : Vertex}
    (hin : vertexWith? buffer Key.guid f.columnIn = some instIn)
    (hout : vertexWith? buffer Key.guid f.columnOut = some instOut) :
    ∃ u t₁ v t₂, ensureAsset depths buffer instIn f.columnIn t = .ok (u.id, t₁)
      ∧ ensureAsset depths buffer instOut f.columnOut t₁ = .ok (v.id, t₂)
      ∧ Advances (fun i => CoreItem depths buffer f i ∧ i.IsBeside) t t₂
      ∧ vertexWith? t₂.commit Key.nodeId f.columnIn = some u
      ∧ vertexWith? t₂.commit Key.nodeId f.columnOut = some v
      ∧ (∀ role inst i, vertexWith? buffer Key.guid (f.column role) = some inst →
        AssetItem depths buffer inst (f.column role) i →
          t₂.commit.Has i ∨ SkippedAsset depths buffer t.commit f i)
      ∧ ∀ role inst, vertexWith? buffer Key.guid (f.column role) = some inst →
        ∃ w, vertexWith? t₂.commit Key.nodeId (f.column role) = some w
          ∧ ColumnOrigin depths buffer t.commit t₂.commit f inst role w := by
  obtain ⟨u, t₁, hasset₁, hadv₁, hu, hhas₁⟩ := exists_ensureAsset hb h
    (hb.mem_of_vertexWith? hin).1 fun i hi => (hi : AssetItem depths buffer instIn f.columnIn i)
  obtain ⟨v, t₂, hasset₂, hadv₂, hv, hhas₂⟩ := exists_ensureAsset hb hadv₁.wellFormed
    (hb.mem_of_vertexWith? hout).1 fun i hi => (hi : AssetItem depths buffer instOut f.columnOut i)
  have hu₂ := hadv₂.vertexWith? hadv₁.wellFormed hu
  have hfirst : (∀ i, AssetItem depths buffer instIn f.columnIn i →
      t₂.commit.Has i ∨ SkippedAsset depths buffer t.commit f i)
      ∧ (u ∈ allVertices t.commit ∨ t₂.commit.AssetOf depths buffer instIn f.columnIn u) := by
    rcases hhas₁ with hold | ⟨hhas, hmade⟩
    · exact ⟨fun i hi => .inr ⟨.input, instIn, hin, hi, .inl ⟨u, hold⟩⟩, .inl hold.1⟩
    · exact ⟨fun i hi => .inl (hadv₂.grows.has (hhas i hi)), .inr
        (hmade.mono hadv₂.grows hadv₁.wellFormed.coherent_commit hadv₂.wellFormed.coherent_commit)⟩
  have hsecond : (∀ i, AssetItem depths buffer instOut f.columnOut i →
      t₂.commit.Has i ∨ SkippedAsset depths buffer t.commit f i)
      ∧ ColumnOrigin depths buffer t.commit t₂.commit f instOut .output v := by
    rcases hhas₂ with ⟨hvmem, hid⟩ | ⟨hhas, hmade⟩
    · -- the second column was there as it was its turn: before all, or for the first column
      rcases hadv₁.writes.mem_vertices_of_asset hvmem hid with hold | heq | ⟨l, hattach, hlabel⟩
      · exact ⟨fun i hi => .inr ⟨.output, instOut, hout, hi, .inl ⟨v, hold, hid⟩⟩, .earlier hold⟩
      · have hcolumn : f.column .output = f.columnIn := heq
        rw [heq] at hout hv ⊢
        obtain rfl : instIn = instOut := Option.some.inj (hin.symm.trans hout)
        obtain rfl : u = v := Option.some.inj (hu₂.symm.trans hv)
        exact hfirst.imp_right (·.elim .earlier fun hmade => .made (hcolumn ▸ hmade))
      · exact ⟨fun i hi => .inr ⟨.output, instOut, hout, hi, .inr ⟨instIn, _, _, hin, hattach⟩⟩,
          .term hin hattach hlabel⟩
    · exact ⟨fun i hi => .inl (hhas i hi), .made hmade⟩
  refine ⟨u, t₁, v, t₂, hasset₁, hasset₂, ?_, hu₂, hv, fun role inst i hinst hi => ?_,
    fun role inst hinst => ?_⟩
  · exact (hadv₁.mono fun i hi => ⟨@CoreItem.asset _ _ _ .input _ _ hin hi, hi.isBeside⟩).trans
      (hadv₂.mono fun i hi => ⟨@CoreItem.asset _ _ _ .output _ _ hout hi, hi.isBeside⟩)
  · cases role with
    | input =>
      obtain rfl : instIn = inst := Option.some.inj (hin.symm.trans hinst)
      exact hfirst.1 i hi
    | output =>
      obtain rfl : instOut = inst := Option.some.inj (hout.symm.trans hinst)
      exact hsecond.1 i hi
  · cases role with
    | input =>
      obtain rfl : instIn = inst := Option.some.inj (hin.symm.trans hinst)
      exact ⟨u, hu₂, hfirst.2.elim .earlier (@ColumnOrigin.made _ _ _ _ _ _ .input _)⟩
    | output =>
      obtain rfl : instOut = inst := Option.some.inj (hout.symm.trans hinst)
      exact ⟨v, hv, hsecond.2⟩

/-- The end of folding a fragment: the tables of its columns, once its sub-process is there. -/
def foldTables (depths : SearchDepths) (buffer : Graph) (f : Fragment) (instIn instOut : Vertex)
    (sub process columnIn columnOut : VertexId) (t : Transaction) :
    Except LineageError (Option VertexId × Transaction) := do
  let (tableIn, t) ← ensureTable depths buffer instIn f.columnIn t
  let (tableOut, t) ← ensureTable depths buffer instOut f.columnOut t
  let t ← linkTable buffer .input tableIn process columnIn t
  let t ← linkTable buffer .output tableOut process columnOut t
  return (some sub, t)

/-- With both columns at hand the rest hangs on whether the fragment is there already. -/
theorem fold_of_columns [StepIds] {f : Fragment} {instIn instOut : Vertex} {u v : VertexId}
    {t₁ t₂ : Transaction} {b : Bool}
    (hin : vertexWith? buffer Key.guid f.columnIn = some instIn)
    (hout : vertexWith? buffer Key.guid f.columnOut = some instOut)
    (hasset₁ : ensureAsset depths buffer instIn f.columnIn t = .ok (u, t₁))
    (hasset₂ : ensureAsset depths buffer instOut f.columnOut t₁ = .ok (v, t₂))
    (hpresent : isPresent t₂ u v f.process.guid = .ok b) :
    fold depths buffer f t = (do
      if b then return (none, t₂)
      let (sub, t) ← addSubProcess f.process u v t₂
      let (process, t) := ensureProcess f.process t
      let (_, t) ← t.addEdge EdgeLabel.subprocessToProcess.name sub process ∅
      foldTables depths buffer f instIn instOut sub process u v t) := by
  refine (bind_of_ok (bufferVertex_of_some hin) _).trans ?_
  refine (bind_of_ok (bufferVertex_of_some hout) _).trans ?_
  refine (bind_of_ok (lift_of_ok hasset₁) _).trans ?_
  refine (bind_of_ok (lift_of_ok hasset₂) _).trans ?_
  exact bind_of_ok (lift_of_ok hpresent) _

/-- A fragment whose columns are in the buffer is present, or its sub-process is added first. -/
theorem fold_cases [StepIds] (depths : SearchDepths) (hb : buffer.WellFormed) {main : Graph}
    (hm : main.WellFormed) {f : Fragment} {instIn instOut : Vertex}
    (hin : vertexWith? buffer Key.guid f.columnIn = some instIn)
    (hout : vertexWith? buffer Key.guid f.columnOut = some instOut) :
    (main.Present f.columnIn f.columnOut f.process.guid
      ∧ ∃ t, fold depths buffer f main.begin = .ok (none, t) ∧ t.rollback = main)
    ∨ ¬ main.Present f.columnIn f.columnOut f.process.guid
      ∧ ∃ u v q s t, Advances (CoreItem depths buffer f) main.begin t
        ∧ vertexWith? t.commit Key.nodeId f.columnIn = some u
        ∧ vertexWith? t.commit Key.nodeId f.columnOut = some v
        ∧ t.commit.Passes f.process.guid s u v q ∧ t.commit.Furnished depths buffer main f s q
        ∧ (∀ role inst i, vertexWith? buffer Key.guid (f.column role) = some inst →
          AssetItem depths buffer inst (f.column role) i →
            t.commit.Has i ∨ SkippedAsset depths buffer main f i)
        ∧ fold depths buffer f main.begin
          = foldTables depths buffer f instIn instOut s.id q.id u.id v.id t := by
  obtain ⟨u, t₁, v, t₂, hasset₁, hasset₂, hadv, hu, hv, hhas, horigin⟩ :=
    exists_ensureColumns depths hb (wellFormed_begin hm) hin hout
  have hwrites := hadv.writes
  rw [commit_begin] at hhas horigin hwrites
  have hc := hadv.wellFormed.coherent_commit
  obtain ⟨b, hpresent, hiff⟩ := exists_isPresent hadv.wellFormed u.id v.id f.process.guid
  rw [fold_of_columns hin hout hasset₁ hasset₂ hpresent]
  by_cases hl : t₂.commit.Linked u.id v.id f.process.guid
  · rw [hiff.2 hl]
    exact .inl ⟨hwrites.present_of_isBeside (fun i hi => hi.2) hm ⟨u, v, hu, hv, hl⟩, t₂, rfl,
      hadv.base_eq⟩
  · obtain ⟨s, t₃, q, t₄, e, t₅, hsub, hproc, hadd, hadv', hq, hqlabel, hqid, hpasses, hsnew,
      hsprops⟩ := exists_addStep hadv.wellFormed hu hv hl CoreItem.step CoreItem.process
    have hu' := hadv'.vertexWith? hadv.wellFormed hu
    have hv' := hadv'.vertexWith? hadv.wellFormed hv
    have hall := (hadv.mono fun i hi => hi.1).trans hadv'
    have hcolumns : ∀ role inst, vertexWith? buffer Key.guid (f.column role) = some inst →
        ∃ w, vertexWith? t₅.commit Key.nodeId (f.column role) = some w
          ∧ ColumnOrigin depths buffer main t₅.commit f inst role w := by
      intro role inst hinst
      obtain ⟨w, hw, horigin⟩ := horigin role inst hinst
      exact ⟨w, hadv'.vertexWith? hadv.wellFormed hw,
        horigin.mono hadv'.grows hc hadv'.wellFormed.coherent_commit⟩
    refine .inr ⟨fun hp => hl ?_, u, v, q, s, t₅, hall, hu', hv', hpasses,
      ⟨fun hs => hsnew (hwrites.grows.mem_vertices hs), hsprops, hq, hqlabel, hqid, hcolumns⟩,
      fun role inst i hinst hi => ?_, ?_⟩
    · obtain ⟨u', v', hu', hv', hl'⟩ := hwrites.grows.present hm.toCoherent hc hp
      rw [hu] at hu'
      rw [hv] at hv'
      rw [Option.some.inj hu', Option.some.inj hv']
      exact hl'
    · exact (hhas role inst i hinst hi).imp_left hadv'.grows.has
    · rw [Bool.eq_false_iff.2 fun hb => hl (hiff.1 hb)]
      refine (bind_of_ok (lift_of_ok hsub) _).trans ?_
      simp only [hproc]
      exact bind_of_ok (lift_of_ok hadd) _

theorem foldTables_missing_in (hb : buffer.WellFormed) {f : Fragment} {instIn : Vertex}
    (hin : vertexWith? buffer Key.guid f.columnIn = some instIn)
    (hnone : ∀ table n, ¬ Enclosed depths buffer instIn table n) (instOut : Vertex)
    (s q u v : VertexId) :
    foldTables depths buffer f instIn instOut s q u v t = .error (.missingTable f.columnIn) := by
  unfold foldTables
  rw [ensureTable_missing hb (hb.mem_of_vertexWith? hin).1 f.columnIn hnone]
  rfl

theorem foldTables_missing_out [StepIds] (hb : buffer.WellFormed) (h : t.WellFormed) {f : Fragment}
    {instIn instOut tableIn : Vertex} {nIn : String}
    (hin : vertexWith? buffer Key.guid f.columnIn = some instIn)
    (hout : vertexWith? buffer Key.guid f.columnOut = some instOut)
    (hencIn : Enclosed depths buffer instIn tableIn nIn)
    (hnone : ∀ table n, ¬ Enclosed depths buffer instOut table n) (s q u v : VertexId) :
    foldTables depths buffer f instIn instOut s q u v t = .error (.missingTable f.columnOut) := by
  obtain ⟨a, t₁, htable₁, -⟩ := exists_ensureTable (P := fun _ => True) hb h
    (hb.mem_of_vertexWith? hin).1 f.columnIn hencIn fun _ _ => trivial
  refine (bind_of_ok htable₁ _).trans ?_
  dsimp only
  rw [ensureTable_missing hb (hb.mem_of_vertexWith? hout).1 f.columnOut hnone]
  rfl

/-- With both tables at hand the rest of a fragment goes through. -/
theorem exists_foldTables [StepIds] (hb : buffer.WellFormed) (h : t.WellFormed) {f : Fragment}
    {instIn instOut tableIn tableOut u v q : Vertex} {nIn nOut : String}
    (hin : vertexWith? buffer Key.guid f.columnIn = some instIn)
    (hout : vertexWith? buffer Key.guid f.columnOut = some instOut)
    (hencIn : Enclosed depths buffer instIn tableIn nIn)
    (hencOut : Enclosed depths buffer instOut tableOut nOut)
    (hu : vertexWith? t.commit Key.nodeId f.columnIn = some u)
    (hv : vertexWith? t.commit Key.nodeId f.columnOut = some v)
    (hq : q ∈ allVertices t.commit) (hqid : q.nodeId? = some f.process.guid) (s : VertexId) :
    ∃ x t', foldTables depths buffer f instIn instOut s q.id u.id v.id t = .ok (some s, t')
      ∧ Advances (FragmentItem depths buffer f x) t t'
      ∧ t'.commit.TableLinked .input (x .input).id q.id u.id
      ∧ t'.commit.TableLinked .output (x .output).id q.id v.id
      ∧ ∀ role inst table n, vertexWith? buffer Key.guid (f.column role) = some inst →
        Enclosed depths buffer inst table n → vertexWith? t'.commit Key.nodeId n = some (x role)
          ∧ (∀ i, LinkItem buffer role f.process.guid (f.column role) n (x role) i →
            t'.commit.Has i)
          ∧ t'.commit.TableExplained buffer (x role) := by
  obtain ⟨a, t₁, htable₁, hadv₁, ha⟩ := exists_ensureTable (P := CoreItem depths buffer f) hb h
    (hb.mem_of_vertexWith? hin).1 f.columnIn hencIn
    fun i hi => @CoreItem.table _ _ _ .input _ _ _ _ hin hencIn hi
  obtain ⟨b, t₂, htable₂, hadv₂, hb₂⟩ := exists_ensureTable (P := CoreItem depths buffer f) hb
    hadv₁.wellFormed (hb.mem_of_vertexWith? hout).1 f.columnOut hencOut
    fun i hi => @CoreItem.table _ _ _ .output _ _ _ _ hout hencOut hi
  let x : TableRole → Vertex
    | .input => a
    | .output => b
  have hadv := hadv₁.trans hadv₂
  have ha₂ := hadv₂.vertexWith? hadv₁.wellFormed ha
  have hc₂ := hadv₂.wellFormed.coherent_commit
  have hamem := hc₂.mem_of_vertexWith? ha₂
  have humem := hc₂.mem_of_vertexWith? (hadv.vertexWith? h hu)
  have hvmem := hc₂.mem_of_vertexWith? (hadv.vertexWith? h hv)
  have hbmem := hc₂.mem_of_vertexWith? hb₂
  have hq₂ := hadv.mem_vertices hq
  obtain ⟨t₃, hlink₃, hadv₃, hlinked₃, hhas₃, hexplained₃⟩ :=
    exists_linkTable (P := FragmentItem depths buffer f x) hb hadv₂.wellFormed .input
    hamem.1 hamem.2 hq₂ hqid humem.1 humem.2
    fun i hi => @FragmentItem.link _ _ _ _ .input _ _ _ _ hin hencIn hi
  obtain ⟨t₄, hlink₄, hadv₄, hlinked₄, hhas₄, hexplained₄⟩ :=
    exists_linkTable (P := FragmentItem depths buffer f x) hb hadv₃.wellFormed .output
    (hadv₃.mem_vertices hbmem.1) hbmem.2 (hadv₃.mem_vertices hq₂) hqid
    (hadv₃.mem_vertices hvmem.1) hvmem.2
    fun i hi => @FragmentItem.link _ _ _ _ .output _ _ _ _ hout hencOut hi
  refine ⟨x, t₄, ?_, (hadv.mono fun i hi => .core hi).trans (hadv₃.trans hadv₄),
    hadv₄.grows.tableLinked hlinked₃, hlinked₄, fun role inst table n hinst henc => ?_⟩
  · refine (bind_of_ok htable₁ _).trans ((bind_of_ok htable₂ _).trans ?_)
    exact (bind_of_ok (lift_of_ok hlink₃) _).trans (bind_of_ok (lift_of_ok hlink₄) _)
  · cases role with
    | input =>
      obtain rfl : instIn = inst := Option.some.inj (hin.symm.trans hinst)
      obtain ⟨-, rfl⟩ := hencIn.unique henc
      exact ⟨(hadv₃.trans hadv₄).vertexWith? hadv₂.wellFormed ha₂,
        fun i hi => hadv₄.grows.has (hhas₃ i hi), fun n' inst' hn' hinst' =>
          hadv₄.grows.explained hadv₃.wellFormed.coherent_commit hadv₄.wellFormed.coherent_commit
            (hexplained₃ n' inst' hn' hinst')⟩
    | output =>
      obtain rfl : instOut = inst := Option.some.inj (hout.symm.trans hinst)
      obtain ⟨-, rfl⟩ := hencOut.unique henc
      exact ⟨(hadv₃.trans hadv₄).vertexWith? hadv₂.wellFormed hb₂, hhas₄, hexplained₄⟩

/-- With the columns, the process, the step and the tables in place, all that a fragment is made of
is there, except for what its columns brought along when they were written before. -/
theorem FragmentItem.has {main g : Graph} (hg : g.Coherent) {f : Fragment} {u v q : Vertex}
    {x : TableRole → Vertex} (hu : vertexWith? g Key.nodeId f.columnIn = some u)
    (hv : vertexWith? g Key.nodeId f.columnOut = some v) (hl : g.Linked u.id v.id f.process.guid)
    (hq : q ∈ allVertices g) (hqlabel : q.label = NodeLabel.process.name)
    (hqid : q.nodeId? = some f.process.guid)
    (hassets : ∀ role inst i, vertexWith? buffer Key.guid (f.column role) = some inst →
      AssetItem depths buffer inst (f.column role) i →
        g.Has i ∨ SkippedAsset depths buffer main f i)
    (htables : ∀ role inst table n, vertexWith? buffer Key.guid (f.column role) = some inst →
      Enclosed depths buffer inst table n → vertexWith? g Key.nodeId n = some (x role)
        ∧ (∀ i, LinkItem buffer role f.process.guid (f.column role) n (x role) i → g.Has i)
        ∧ g.TableExplained buffer (x role))
    {i : Item} (hi : FragmentItem depths buffer f x i) :
    g.Has i ∨ SkippedAsset depths buffer main f i := by
  cases hi with
  | core hi =>
    cases hi with
    | asset hinst hi => exact hassets _ _ _ hinst hi
    | step =>
      have humem := hg.mem_of_vertexWith? hu
      have hvmem := hg.mem_of_vertexWith? hv
      exact .inl ⟨u, humem.1, v, hvmem.1, humem.2, hvmem.2, hl⟩
    | process => exact .inl ⟨q, hq, hqlabel, hqid⟩
    | table hinst henc hi =>
      cases hi
      exact .inl (hg.has_node (htables _ _ _ _ hinst henc).1 _ _)
  | link hinst henc hi => exact .inl ((htables _ _ _ _ hinst henc).2.1 _ hi)

theorem consolidate_cases [StepIds] (depths : SearchDepths) (hb : buffer.WellFormed) {main : Graph}
    (hm : main.WellFormed) (f : Fragment) :
    Consolidated depths buffer main f (consolidate depths buffer main f) := by
  unfold consolidate
  rcases hin : vertexWith? buffer Key.guid f.columnIn with _ | instIn
  · rw [fold_missing_in hin]
    exact @Consolidated.notFound _ _ _ _ _ .input hin
  rcases hout : vertexWith? buffer Key.guid f.columnOut with _ | instOut
  · rw [fold_missing_out hin hout]
    exact @Consolidated.notFound _ _ _ _ _ .output hout
  rcases fold_cases depths hb hm hin hout with ⟨hp, t, hfold, hbase⟩ |
    ⟨habsent, u, v, q, s, t, hadv, hu, hv, hpasses, hfurnished, hhas, hfold⟩
  · rw [hfold, ← hbase]
    rw [← hbase] at hp
    refine .alreadyPresent (fun role => ?_) hp
    cases role with
    | input => exact ⟨instIn, hin⟩
    | output => exact ⟨instOut, hout⟩
  rw [hfold]
  by_cases hencIn : ∃ table n, Enclosed depths buffer instIn table n
  swap
  · have hnone : ∀ table n, ¬ Enclosed depths buffer instIn table n := by simpa using hencIn
    rw [foldTables_missing_in hb hin hnone]
    exact @Consolidated.missingTable _ _ _ _ _ .input _ habsent hin hnone
  by_cases hencOut : ∃ table n, Enclosed depths buffer instOut table n
  swap
  · have hnone : ∀ table n, ¬ Enclosed depths buffer instOut table n := by simpa using hencOut
    obtain ⟨tableIn, nIn, hencIn⟩ := hencIn
    rw [foldTables_missing_out hb hadv.wellFormed hin hout hencIn hnone]
    exact @Consolidated.missingTable _ _ _ _ _ .output _ habsent hout hnone
  obtain ⟨tableIn, nIn, hencIn⟩ := hencIn
  obtain ⟨tableOut, nOut, hencOut⟩ := hencOut
  obtain ⟨x, t', hrest, hadv', htableIn, htableOut, hx⟩ :=
    exists_foldTables hb hadv.wellFormed hin hout hencIn hencOut hu hv hfurnished.owner_mem
      hfurnished.owner_nodeId s.id
  have hall := (hadv.mono fun i hi => .core hi).trans hadv'
  have hwrites := hall.writes
  rw [commit_begin] at hwrites
  rw [hrest]
  have hu' := hadv'.vertexWith? hadv.wellFormed hu
  have hv' := hadv'.vertexWith? hadv.wellFormed hv
  have hpasses' := hadv'.grows.passes hpasses
  have hc' := hadv'.wellFormed.coherent_commit
  have hfurnished' := hfurnished.mono hadv'.grows hadv.wellFormed.coherent_commit hc'
  have hplaced : ∀ role, ∃ inst table n, vertexWith? buffer Key.guid (f.column role) = some inst
      ∧ Enclosed depths buffer inst table n := fun role => by
    cases role with
    | input => exact ⟨instIn, tableIn, nIn, hin, hencIn⟩
    | output => exact ⟨instOut, tableOut, nOut, hout, hencOut⟩
  refine .applied (x := x) habsent (fun role => ?_) hwrites
    ⟨hu', hv', hpasses', htableIn, htableOut⟩ (fun i hi => ?_) hfurnished' fun role => ?_
  · obtain ⟨inst, table, n, hinst, henc⟩ := hplaced role
    exact ⟨inst, table, n, hinst, henc, (hx role _ _ _ hinst henc).1⟩
  · exact hi.has hc' hu' hv' hpasses'.linked hfurnished'.owner_mem hfurnished'.owner_label
      hfurnished'.owner_nodeId
      (fun role inst i hinst hi => (hhas role inst i hinst hi).imp_left hadv'.grows.has) hx
  · obtain ⟨inst, table, n, hinst, henc⟩ := hplaced role
    exact (hx role _ _ _ hinst henc).2.2

end Lineage
