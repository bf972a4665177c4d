import Lineage.Proofs.Ensuring
import Lineage.Proofs.Expanding

/-!
# Assets, sub-processes and tables

The larger operations of consolidation in the same form: an asset is there with its terms
(`exists_ensureAsset`), a fragment is present exactly when its columns are linked
(`exists_isPresent`), its sub-process and the process it belongs to are one write
(`exists_addStep`), and a table is linked to the process and the column (`exists_linkTable`).
-/

namespace Lineage

open Std Consolidation Transaction

variable {P : Item → Prop} {t : Transaction} {buffer : Graph} {depths : SearchDepths}

/-! ## Properties -/

theorem getElem?_nameAfter {key k : String} (hk : k ≠ key) (container : Option Vertex)
    (ps : Properties) : (nameAfter key container ps)[k]? = ps[k]? := by
  unfold nameAfter
  split
  · exact Properties.getElem?_insert_of_ne hk _
  · rfl

theorem getElem?_nameAfter_self (key : String) (container : Option Vertex) (ps : Properties) :
    (nameAfter key container ps)[key]? = (container.bind Vertex.displayName?).or ps[key]? := by
  unfold nameAfter
  rcases container.bind Vertex.displayName? with _ | name
  · rfl
  · exact ExtTreeMap.getElem?_insert_self

@[simp]
theorem processProperties_nodeId (n : String) (p : ProcessRef) :
    (processProperties n p)[Key.nodeId]? = some n := by
  have hid : ((∅ : Properties).insert Key.nodeId n |>.insert Key.guid p.guid)[Key.nodeId]?
      = some n := by
    rw [Properties.getElem?_insert_of_ne (by decide)]
    exact ExtTreeMap.getElem?_insert_self
  unfold processProperties
  split
  · exact (Properties.getElem?_insert_of_ne (by decide) _).trans hid
  · exact hid

@[simp]
theorem processProperties_guid (n : String) (p : ProcessRef) :
    (processProperties n p)[Key.guid]? = some p.guid := by
  unfold processProperties
  split
  · exact (Properties.getElem?_insert_of_ne (by decide) _).trans ExtTreeMap.getElem?_insert_self
  · exact ExtTreeMap.getElem?_insert_self

@[simp]
theorem processProperties_displayName (n : String) (p : ProcessRef) :
    (processProperties n p)[Key.displayName]? = p.displayName := by
  unfold processProperties
  cases p.displayName with
  | some name => exact ExtTreeMap.getElem?_insert_self
  | none =>
    refine (Properties.getElem?_insert_of_ne (by decide) _).trans ?_
    refine (Properties.getElem?_insert_of_ne (by decide) _).trans ?_
    exact ExtTreeMap.getElem?_empty

theorem nodeId?_of_processProperties {v : Vertex} {n : String} {p : ProcessRef}
    (h : v.properties = processProperties n p) : v.nodeId? = some n := by
  unfold Vertex.nodeId? Vertex.property?
  simp [h]

theorem guid?_of_processProperties {v : Vertex} {n : String} {p : ProcessRef}
    (h : v.properties = processProperties n p) : v.guid? = some p.guid := by
  unfold Vertex.guid? Vertex.property?
  simp [h]

/-- An asset carries its node id, and the guid of the instance it was made from. -/
theorem exists_assetProperties (depths : SearchDepths) (hb : buffer.WellFormed) {inst : Vertex}
    (hinst : inst ∈ allVertices buffer) (n : String) :
    ∃ ps, assetProperties depths buffer inst n = .ok ps ∧ ps[Key.nodeId]? = some n
      ∧ ps[Key.guid]? = inst.guid? := by
  obtain ⟨table, htable, -⟩ := hb.exists_nearestContainer hinst TypeName.isTableLike depths.table
  obtain ⟨schema, hschema, -⟩ :=
    hb.exists_nearestContainer hinst TypeName.isSchemaLike depths.schema
  refine ⟨_, (bind_of_ok htable _).trans (bind_of_ok hschema _), ?_, ?_⟩
  · rw [getElem?_nameAfter (by decide), getElem?_nameAfter (by decide)]
    exact ExtTreeMap.getElem?_insert_self
  · rw [getElem?_nameAfter (by decide), getElem?_nameAfter (by decide),
      Properties.getElem?_insert_of_ne (by decide)]
    rfl

/-! ## Assets -/

/-- What an asset brings along that is made from an instance. -/
inductive AssetItem (depths : SearchDepths) (buffer : Graph) (inst : Vertex) (n : String) :
    Item → Prop
  | self {ps : Properties} (properties_eq : assetProperties depths buffer inst n = .ok ps) :
      AssetItem depths buffer inst n (.node (assetLabel inst) n ps)
  | attached {i : Item} (item : AttachItem buffer inst n i) : AssetItem depths buffer inst n i

theorem AssetItem.isBeside {inst : Vertex} {n : String} {i : Item} :
    AssetItem depths buffer inst n i → i.IsBeside
  | .self _ => by
    unfold assetLabel
    split_ifs
    · simp
    · simp
  | .attached item => item.isBeside

theorem ensureAsset_of_vertexWith? (h : t.WellFormed) (inst : Vertex) {n : String} {v : Vertex}
    (hv : vertexWith? t.commit Key.nodeId n = some v) :
    ensureAsset depths buffer inst n t = .ok (v.id, t) := by
  rw [ensureAsset, ← h.vertexWith?_commit, hv]
  rfl

/-- A vertex is the asset that an instance is made into, and linked to its terms. -/
structure Graph.AssetOf (g : Graph) (depths : SearchDepths) (buffer : Graph) (inst : Vertex)
    (n : String) (v : Vertex) : Prop where
  label_eq : v.label = (assetLabel inst).name
  properties_eq : assetProperties depths buffer inst n = .ok v.properties
  explained : g.Explained buffer inst v.id

theorem Graph.AssetOf.mono {g g' : Graph} (hgrows : g.Grows g') (hg : g.Coherent)
    (hg' : g'.Coherent) {inst v : Vertex} {n : String} (h : g.AssetOf depths buffer inst n v) :
    g'.AssetOf depths buffer inst n v :=
  { h with explained := hgrows.explained hg hg' h.explained }

/-- An asset that was not there is made with all it brings along. -/
theorem exists_ensureAsset [StepIds] (hb : buffer.WellFormed) (h : t.WellFormed) {inst : Vertex}
    (hinst : inst ∈ allVertices buffer) {n : String}
    (hP : ∀ i, AssetItem depths buffer inst n i → P i) :
    ∃ v t', ensureAsset depths buffer inst n t = .ok (v.id, t') ∧ Advances P t t'
      ∧ vertexWith? t'.commit Key.nodeId n = some v
      ∧ (v ∈ allVertices t.commit ∧ v.nodeId? = some n
        ∨ (∀ i, AssetItem depths buffer inst n i → t'.commit.Has i)
          ∧ t'.commit.AssetOf depths buffer inst n v) := by
  rcases hold : vertexWith? t.commit Key.nodeId n with _ | v
  · obtain ⟨ps, hps, hid, -⟩ := exists_assetProperties depths hb hinst n
    obtain ⟨v, t₁, hadd, hadv₁, hv, hlabel, hvps⟩ :=
      h.advances_addVertex (hP _ (.self hps)) hid hold
    have hvmem := hadv₁.wellFormed.coherent_commit.mem_of_vertexWith? hv
    obtain ⟨t₂, hattach, hadv₂, hhas, hexplained⟩ := exists_attachTerms hb hadv₁.wellFormed inst
      hvmem.1 hvmem.2 fun i hi => hP i (.attached hi)
    have hv₂ := hadv₂.vertexWith? hadv₁.wellFormed hv
    refine ⟨v, t₂, ?_, hadv₁.trans hadv₂, hv₂,
      .inr ⟨fun i hi => ?_, hlabel, hvps ▸ hps, hexplained⟩⟩
    · rw [ensureAsset, ← h.vertexWith?_commit, hold]
      refine (bind_of_ok hps _).trans ?_
      rw [hadd]
      exact bind_of_ok hattach _
    · cases hi with
      | self _ => exact hadv₂.wellFormed.coherent_commit.has_node hv₂ _ _
      | attached hi => exact hhas i hi
  · exact ⟨v, t, ensureAsset_of_vertexWith? h inst hold, .refl h, hold,
      .inl (h.coherent_commit.mem_of_vertexWith? hold)⟩

/-! ## Presence -/

theorem neighbors_outward_commit (h : t.WellFormed) (x : VertexId) (label : Option String) :
    neighbors t x .outward label = neighbors t.commit x .outward label := by
  unfold neighbors edgesAt
  rw [h.incident_outward_commit]
  simp only [h.requireVertex_commit]

theorem exists_isPresent (h : t.WellFormed) (u v : VertexId) (processGuid : String) :
    ∃ b, isPresent t u v processGuid = .ok b ∧ (b = true ↔ t.commit.Linked u v processGuid) := by
  have hc := h.coherent_commit
  obtain ⟨found, hfound, hmem⟩ :=
    h.wellFormed_commit.exists_neighbors u .outward EdgeLabel.columnAndProcess.name
  rw [← neighbors_outward_commit h] at hfound
  refine ⟨_, bind_of_ok hfound _, ?_⟩
  simp only [List.any_eq_true, Bool.and_eq_true, beq_iff_eq, Prod.exists, ← h.hasEdge_commit,
    hc.hasEdge_iff_joined]
  constructor
  · rintro ⟨e, s, hp, ⟨hlabel, hguid⟩, hout⟩
    obtain ⟨hinc, helabel, hs, hid⟩ := (hmem e s).1 hp
    obtain ⟨he, rfl⟩ := hc.mem_incident_outward.1 hinc
    rw [e.other_source] at hid
    exact ⟨s, hs, hlabel, hguid, ⟨e, he, rfl, helabel, hid.symm⟩, hout⟩
  · rintro ⟨s, hs, hlabel, hguid, ⟨e, he, hsource, helabel, htarget⟩, hout⟩
    refine ⟨e, s, (hmem e s).2 ⟨?_, helabel, hs, ?_⟩, ⟨hlabel, hguid⟩, hout⟩
    · exact hc.mem_incident_outward.2 ⟨he, hsource⟩
    · rw [← hsource, e.other_source, htarget]

/-! ## The sub-process -/

theorem exists_ensureProcess (h : t.WellFormed) {p : ProcessRef} (hP : P (.process p)) :
    ∃ q vs t', ensureProcess p t = (q.id, t') ∧ t'.WellFormed ∧ t'.base = t.base
      ∧ allVertices t'.commit = allVertices t.commit ++ vs ∧ allEdges t'.commit = allEdges t.commit
      ∧ Owner P t.commit p q vs := by
  have hc := h.coherent_commit
  unfold ensureProcess
  rw [← h.verticesWith_commit, hc.verticesWith_eq]
  simp only
  split
  · next q hq =>
    obtain ⟨hmem, hid⟩ := List.mem_filter.1 (List.mem_of_find?_eq_some hq)
    have hlabel := List.find?_some hq
    exact ⟨q, [], t, rfl, h, rfl, (List.append_nil _).symm, rfl,
      .existing hmem (beq_iff_eq.1 hlabel) (beq_iff_eq.1 hid)⟩
  · next hnone =>
    have hcommit := h.commit_addVertex NodeLabel.process.name (processProperties p.guid p)
    refine ⟨⟨t.commit.nextVertex, NodeLabel.process.name, processProperties p.guid p⟩, _, _,
      Prod.ext (h.addVertex_fst _ _) rfl, h.addVertex _ _, rfl, ?_, ?_,
      .created hP rfl rfl fun u hu hlabel hid => ?_⟩
    · rw [hcommit]
      exact hc.allVertices_addVertex _ _
    · rw [hcommit]
      rfl
    · rw [List.find?_eq_none] at hnone
      exact hnone u (List.mem_filter.2 ⟨hu, beq_iff_eq.2 hid⟩) (beq_iff_eq.2 hlabel)

/-- A vertex that is no process does not matter to who owns a sub-process. -/
theorem Owner.of_append {g g' : Graph} {p : ProcessRef} {q s : Vertex} {vs : List Vertex}
    (hs : s.label ≠ NodeLabel.process.name) (heq : allVertices g' = allVertices g ++ [s]) :
    Owner P g' p q vs → Owner P g p q vs
  | .existing hmem hlabel hid => by
    rw [heq] at hmem
    rcases List.mem_append.1 hmem with hmem | hmem
    · exact .existing hmem hlabel hid
    · exact absurd (List.mem_singleton.1 hmem ▸ hlabel) hs
  | .created hitem hlabel hps hnew =>
    .created hitem hlabel hps fun u hu => hnew u (heq ▸ List.mem_append_left _ hu)

theorem Owner.nodeId_eq {g : Graph} {p : ProcessRef} {q : Vertex} {vs : List Vertex} :
    Owner P g p q vs → q.nodeId? = some p.guid
  | .existing _ _ hid => hid
  | .created _ _ hps _ => nodeId?_of_processProperties hps

theorem exists_addSubProcess [StepIds] (h : t.WellFormed) (p : ProcessRef) {u v : Vertex}
    (hu : u ∈ allVertices t.commit) (hv : v ∈ allVertices t.commit) :
    ∃ s e₁ e₂ t', addSubProcess p u.id v.id t = .ok (s.id, t') ∧ t'.WellFormed ∧ t'.base = t.base
      ∧ allVertices t'.commit = allVertices t.commit ++ [s]
      ∧ allEdges t'.commit = allEdges t.commit ++ [e₁, e₂]
      ∧ s.label = NodeLabel.subProcess.name
      ∧ s.properties = processProperties (StepIds.nodeId s.id) p
      ∧ e₁.Runs .columnAndProcess u s ∧ e₂.Runs .columnAndProcess s v := by
  let s : Vertex := ⟨t.commit.nextVertex, NodeLabel.subProcess.name,
    processProperties (StepIds.nodeId t.overlay.nextVertex) p⟩
  let t₁ := (t.addVertex s.label s.properties).2
  have hcommit₁ : t₁.commit = t.commit.addVertex s.label s.properties := h.commit_addVertex _ _
  have hvertices₁ : allVertices t₁.commit = allVertices t.commit ++ [s] := by
    rw [hcommit₁]
    exact h.coherent_commit.allVertices_addVertex _ _
  have hmem : ∀ {w}, w ∈ allVertices t.commit → w ∈ allVertices t₁.commit := fun hw =>
    hvertices₁ ▸ List.mem_append_left _ hw
  have hs : s ∈ allVertices t₁.commit := hvertices₁ ▸ List.mem_append_right _ List.mem_cons_self
  obtain ⟨t₂, hadd₂, hwf₂, hbase₂, hcommit₂⟩ := (h.addVertex s.label s.properties).addEdge (hmem hu)
    hs EdgeLabel.columnAndProcess.name ∅
  have hvertices₂ : allVertices t₂.commit = allVertices t₁.commit := by
    rw [hcommit₂]
    rfl
  obtain ⟨t₃, hadd₃, hwf₃, hbase₃, hcommit₃⟩ := hwf₂.addEdge (hvertices₂ ▸ hs)
    (hvertices₂ ▸ hmem hv) EdgeLabel.columnAndProcess.name ∅
  refine ⟨s, ⟨t₁.commit.nextEdge, _, u.id, s.id, ∅⟩, ⟨t₂.commit.nextEdge, _, s.id, v.id, ∅⟩, t₃, ?_,
    hwf₃, hbase₃.trans hbase₂, ?_, ?_, rfl, ?_, ⟨rfl, rfl, rfl⟩, ⟨rfl, rfl, rfl⟩⟩
  · have hid : (t.addVertex s.label s.properties).1 = s.id := h.addVertex_fst _ _
    have hpair : t.addVertex s.label s.properties = (s.id, t₁) := Prod.ext hid rfl
    simp only [addSubProcess]
    rw [show t.addVertex NodeLabel.subProcess.name _ = _ from hpair]
    exact (bind_of_ok hadd₂ _).trans (bind_of_ok hadd₃ _)
  · rw [hcommit₃]
    exact hvertices₂.trans hvertices₁
  · rw [hcommit₃, hwf₂.coherent_commit.allEdges_addEdge, hcommit₂,
      ((h.addVertex s.label s.properties).coherent_commit).allEdges_addEdge, hcommit₁,
      Graph.allEdges_addVertex, List.append_assoc]
    rfl
  · show processProperties (StepIds.nodeId t.overlay.nextVertex) p = _
    rw [← h.commit_nextVertex]

/-- A sub-process of a process runs from one vertex to another, and is owned by a third. -/
structure Graph.Passes (g : Graph) (processGuid : String) (s u v q : Vertex) : Prop where
  mem : s ∈ allVertices g
  label_eq : s.label = NodeLabel.subProcess.name
  guid_eq : s.guid? = some processGuid
  joined_in : g.Joined .columnAndProcess u.id s.id
  joined_out : g.Joined .columnAndProcess s.id v.id
  joined_up : g.Joined .subprocessToProcess s.id q.id

theorem Graph.Passes.linked {g : Graph} {n : String} {s u v q : Vertex} (h : g.Passes n s u v q) :
    g.Linked u.id v.id n :=
  ⟨s, h.mem, h.label_eq, h.guid_eq, h.joined_in, h.joined_out⟩

theorem Graph.Grows.passes {g g' : Graph} (hg : g.Grows g') {n : String} {s u v q : Vertex}
    (h : g.Passes n s u v q) : g'.Passes n s u v q where
  mem := hg.mem_vertices h.mem
  label_eq := h.label_eq
  guid_eq := h.guid_eq
  joined_in := hg.joined h.joined_in
  joined_out := hg.joined h.joined_out
  joined_up := hg.joined h.joined_up

/-- The sub-process of a fragment and its three edges are one write, with the process if need be. -/
theorem exists_addStep [StepIds] (h : t.WellFormed) {f : Fragment} {u v : Vertex}
    (hu : vertexWith? t.commit Key.nodeId f.columnIn = some u)
    (hv : vertexWith? t.commit Key.nodeId f.columnOut = some v)
    (hnew : ¬ t.commit.Linked u.id v.id f.process.guid) (hstep : P (.step f))
    (hprocess : P (.process f.process)) :
    ∃ s t₁ q t₂ e t₃, addSubProcess f.process u.id v.id t = .ok (s.id, t₁)
      ∧ ensureProcess f.process t₁ = (q.id, t₂)
      ∧ t₂.addEdge EdgeLabel.subprocessToProcess.name s.id q.id ∅ = .ok (e, t₃)
      ∧ Advances P t t₃ ∧ q ∈ allVertices t₃.commit ∧ q.label = NodeLabel.process.name
      ∧ q.nodeId? = some f.process.guid ∧ t₃.commit.Passes f.process.guid s u v q
      ∧ s ∉ allVertices t.commit
      ∧ s.properties = processProperties (StepIds.nodeId s.id) f.process := by
  have humem := h.coherent_commit.mem_of_vertexWith? hu
  have hvmem := h.coherent_commit.mem_of_vertexWith? hv
  obtain ⟨s, e₁, e₂, t₁, hsub, hwf₁, hbase₁, hvertices₁, hedges₁, hslabel, hsprops, hin, hout⟩ :=
    exists_addSubProcess h f.process humem.1 hvmem.1
  obtain ⟨q, vs, t₂, hproc, hwf₂, hbase₂, hvertices₂, hedges₂, howner⟩ :=
    exists_ensureProcess hwf₁ hprocess
  have hs : s ∈ allVertices t₂.commit := by
    rw [hvertices₂, hvertices₁]
    exact List.mem_append_left _ (List.mem_append_right _ List.mem_cons_self)
  obtain ⟨t₃, hadd, hwf₃, hbase₃, hcommit₃⟩ :=
    hwf₂.addEdge hs (howner.mem hvertices₂) EdgeLabel.subprocessToProcess.name ∅
  have hvertices₃ : allVertices t₃.commit = allVertices t.commit ++ s :: vs := by
    rw [hcommit₃, Graph.allVertices_addEdge, hvertices₂, hvertices₁, List.append_assoc]
    rfl
  have hedges₃ : allEdges t₃.commit = allEdges t.commit ++ [e₁, e₂,
      ⟨t₂.commit.nextEdge, EdgeLabel.subprocessToProcess.name, s.id, q.id, ∅⟩] := by
    rw [hcommit₃, hwf₂.coherent_commit.allEdges_addEdge, hedges₂, hedges₁, List.append_assoc]
    rfl
  have hadded : StepWrite P t.commit t₃.commit f u v s q vs e₁ e₂ _ :=
    ⟨hstep, hu, hv, hnew, hslabel, hsprops, howner.of_append (by simp [hslabel]) hvertices₁, hin,
      hout, ⟨rfl, rfl, rfl⟩, hvertices₃, hedges₃⟩
  refine ⟨s, t₁, q, t₂, _, t₃, hsub, hproc, hadd,
    ⟨hwf₃, hbase₃.trans (hbase₂.trans hbase₁), .single hwf₃.wellFormed_commit (.step hadded)⟩,
    hadded.mem_owner, howner.label_eq, howner.nodeId_eq, ⟨hadded.mem_step, hslabel,
      guid?_of_processProperties hsprops, hadded.joined_in, hadded.joined_out, hadded.joined_up⟩,
    fun hs => hadded.id_ne hwf₃.coherent_commit hs rfl, hsprops⟩

end Lineage
