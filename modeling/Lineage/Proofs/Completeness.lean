import Lineage.Proofs.Content
import Lineage.Proofs.Origins

/-!
# Graphs that say what items say

A graph that is made of some items and has them all (`Complete`) says what the items say, and says
each thing once. So two such graphs have the same content (`Complete.sameContent`).
-/

namespace Lineage

open Std Consolidation

/-! ## The content of items -/

attribute [ext] Fragment

def Fragment.stepName (f : Fragment) : VertexName :=
  .step [some f.columnIn] [some f.columnOut] (some f.process.guid)

inductive VertexContent.From (P : Item → Prop) : VertexContent → Prop
  | node {l : NodeLabel} {n : String} {ps : Properties} (item : P (.node l n ps)) :
      VertexContent.From P (.plain (some n) l.name ps)
  | process {p : ProcessRef} (item : P (.process p)) : VertexContent.From P
      (.plain (some p.guid) NodeLabel.process.name (processProperties p.guid p))
  | step {f : Fragment} (item : P (.step f)) : VertexContent.From P
      (.step [some f.columnIn] [some f.columnOut] (some f.process.guid) f.process.displayName
        [some f.process.guid])

inductive EdgeContent.From (P : Item → Prop) : EdgeContent → Prop
  | item {l : EdgeLabel} {m n : String} (item : P (.edge l m n)) : EdgeContent.From P
      (.between l.name (some (.plain (some m))) (some (.plain (some n))))
  | input {f : Fragment} (item : P (.step f)) : EdgeContent.From P
      (.between EdgeLabel.columnAndProcess.name (some (.plain (some f.columnIn))) (some f.stepName))
  | output {f : Fragment} (item : P (.step f)) : EdgeContent.From P
      (.between EdgeLabel.columnAndProcess.name (some f.stepName)
        (some (.plain (some f.columnOut))))
  | owner {f : Fragment} (item : P (.step f)) : EdgeContent.From P
      (.between EdgeLabel.subprocessToProcess.name (some f.stepName)
        (some (.plain (some f.process.guid))))

/-- Items that do not contradict each other about what goes by a guid. -/
structure Consistent (U : String → Prop) (P : Item → Prop) : Prop where
  within : ∀ i, P i → i.Within U
  node_unique : ∀ {l l' n ps ps'}, P (.node l n ps) → P (.node l' n ps') → l = l' ∧ ps = ps'
  node_ne_process : ∀ {l n ps p}, P (.node l n ps) → P (.process p) → n ≠ p.guid
  process_unique : ∀ {p p'}, P (.process p) → P (.process p') → p.guid = p'.guid → p = p'
  step_process : ∀ {f}, P (.step f) → P (.process f.process)

/-- A graph made of some items that has all of them. -/
structure Complete [StepIds] (U : String → Prop) (P : Item → Prop) (g : Graph) : Prop where
  wellFormed : g.WellFormed
  made : g.Made P
  stepped : g.WellStepped
  named : Named U (allVertices g)
  fresh : g.FreshSteps U
  has : ∀ i, P i → g.Has i

/-- The step of a fragment, with the vertices that it names. -/
structure Graph.StepOf [StepIds] (g : Graph) (f : Fragment) (s u w q : Vertex) : Prop where
  mem : s ∈ allVertices g
  label_eq : s.label = NodeLabel.subProcess.name
  properties_eq : s.properties = processProperties (StepIds.nodeId s.id) f.process
  source_mem : u ∈ allVertices g
  source_id : u.nodeId? = some f.columnIn
  target_mem : w ∈ allVertices g
  target_id : w.nodeId? = some f.columnOut
  owner_mem : q ∈ allVertices g
  owner_id : q.nodeId? = some f.process.guid
  isStep : g.IsStep s u w q

/-- In a graph made of items a sub-process is the step of one. -/
theorem Graph.Made.exists_stepOf [StepIds] {U : String → Prop} {P : Item → Prop} {g : Graph}
    (h : g.Made P) (hP : ∀ i, P i → i.Within U) (hg : g.WellFormed) (hstepped : g.WellStepped)
    {s : Vertex} (hs : s ∈ allVertices g) (hlabel : s.label = NodeLabel.subProcess.name) :
    ∃ f u w q, P (.step f) ∧ g.StepOf f s u w q := by
  cases h.vertex s hs with
  | node hi hl _ =>
    have hsub := ((hP _ hi).shape.resolve_right (by simp)).2
    exact absurd (NodeLabel.name_injective (hl.symm.trans hlabel)) hsub
  | process _ hl _ => simp [hlabel] at hl
  | @step f u w q hi _ hps hu hun hw hwn hq hqn hin hout hup =>
    obtain ⟨a, ha, b, hb, c, hcmem, hstep, -⟩ := hstepped.steps s hs hlabel
    obtain rfl : u = a := hg.eq_of_vertex_id hu ha (hstep.source_eq hg.toCoherent hin)
    obtain rfl : w = b := hg.eq_of_vertex_id hw hb (hstep.target_eq hg.toCoherent hout)
    obtain rfl : q = c := hg.eq_of_vertex_id hq hcmem (hstep.owner_eq hg.toCoherent hup)
    exact ⟨f, u, w, q, hi, hs, hlabel, hps, hu, hun, hw, hwn, hq, hqn, hstep⟩

/-! ## Vertices -/

namespace Complete

variable {U : String → Prop} {P : Item → Prop} {g : Graph}

theorem label_ne [StepIds] (h : Complete U P g) {v : Vertex} {n : String} (hv : v ∈ allVertices g)
    (hn : v.nodeId? = some n) (hU : U n) : v.label ≠ NodeLabel.subProcess.name := fun hlabel =>
  h.fresh v hv hlabel n hn hU

theorem node_label_ne (hc : Consistent U P) {l : NodeLabel} {n : String} {ps : Properties}
    (hi : P (.node l n ps)) :
    l.name ≠ NodeLabel.process.name ∧ l.name ≠ NodeLabel.subProcess.name := by
  obtain ⟨hprocess, hsub⟩ := (hc.within _ hi).shape.resolve_right (by simp)
  exact ⟨fun heq => hprocess (NodeLabel.name_injective heq),
    fun heq => hsub (NodeLabel.name_injective heq)⟩

/-- But for sub-processes, a node id is that of one vertex. -/
theorem eq_of_nodeId [StepIds] (h : Complete U P g) (hc : Consistent U P) {x y : Vertex}
    (hx : x ∈ allVertices g) (hy : y ∈ allVertices g) (hxl : x.label ≠ NodeLabel.subProcess.name)
    (hyl : y.label ≠ NodeLabel.subProcess.name) (heq : x.nodeId? = y.nodeId?) : x = y := by
  have hclash : ∀ {a b : Vertex}, a ∈ allVertices g → b ∈ allVertices g →
      a.label ≠ NodeLabel.subProcess.name → a.nodeId? = b.nodeId? → ¬ a.id < b.id := by
    intro a b ha hb hal heq hlt
    obtain ⟨hblabel, halabel⟩ := h.named.shared a ha b hb hlt heq
    cases h.made.vertex b hb with
    | node hi hl _ => exact (node_label_ne hc hi).1 (hl.symm.trans hblabel)
    | @process p hp _ hps =>
      have hbn : b.nodeId? = some p.guid := nodeId?_of_processProperties hps
      cases h.made.vertex a ha with
      | node hi _ hn =>
        exact hc.node_ne_process hi hp (Option.some.inj (hn.symm.trans (heq.trans hbn)))
      | process _ hl _ => exact halabel hl
      | step _ hl => exact hal hl
    | step _ hl =>
      simp [hl] at hblabel
  rcases Nat.lt_trichotomy x.id y.id with hlt | hid | hlt
  · exact absurd hlt (hclash hx hy hxl heq)
  · exact h.wellFormed.eq_of_vertex_id hx hy hid
  · exact absurd hlt (hclash hy hx hyl heq.symm)

/-- A sub-process is the step of an item. -/
theorem exists_stepOf [StepIds] (h : Complete U P g) (hc : Consistent U P) {s : Vertex}
    (hs : s ∈ allVertices g) (hlabel : s.label = NodeLabel.subProcess.name) :
    ∃ f u w q, P (.step f) ∧ g.StepOf f s u w q :=
  h.made.exists_stepOf hc.within h.wellFormed h.stepped hs hlabel

theorem nodeIdOf_eq [StepIds] (h : Complete U P g) {v : Vertex} (hv : v ∈ allVertices g) :
    g.nodeIdOf v.id = v.nodeId? := by
  unfold Graph.nodeIdOf
  rw [h.wellFormed.vertex?_eq_some_iff.2 ⟨hv, rfl⟩]
  rfl

theorem contentOf_eq_plain {v : Vertex} (hlabel : v.label ≠ NodeLabel.subProcess.name) :
    g.contentOf v = .plain v.nodeId? v.label v.properties := by
  unfold Graph.contentOf
  exact if_neg hlabel

variable [StepIds]

theorem guid?_stepOf {f : Fragment} {s u w q : Vertex} (hstep : g.StepOf f s u w q) :
    s.guid? = some f.process.guid := guid?_of_processProperties hstep.properties_eq

/-- What is said of a sub-process is what the fragment says. -/
theorem contentOf_stepOf (h : Complete U P g) {f : Fragment} {s u w q : Vertex}
    (hstep : g.StepOf f s u w q) : g.contentOf s = .step [some f.columnIn] [some f.columnOut]
      (some f.process.guid) f.process.displayName [some f.process.guid] := by
  have hdisplay : s.property? Key.displayName = f.process.displayName := by
    rw [Vertex.property?, hstep.properties_eq]
    exact processProperties_displayName _ _
  have hu := (h.nodeIdOf_eq hstep.source_mem).trans hstep.source_id
  have hw := (h.nodeIdOf_eq hstep.target_mem).trans hstep.target_id
  have hq := (h.nodeIdOf_eq hstep.owner_mem).trans hstep.owner_id
  obtain ⟨e, ⟨hel, hes, -⟩, hin⟩ := hstep.isStep.inward
  obtain ⟨d, e', ⟨hdl, -, hdt⟩, ⟨hel', -, het'⟩, hout⟩ := hstep.isStep.outward
  have hinputs : g.idsOver s .inward .columnAndProcess Edge.source = [some f.columnIn] := by
    simp [Graph.idsOver, edgesAt, hin, Edge.matches, hel, hes, hu]
  have houtputs : g.idsOver s .outward .columnAndProcess Edge.target = [some f.columnOut] := by
    simp [Graph.idsOver, edgesAt, hout, Edge.matches, hdl, hel', hdt, hw]
  have howners : g.idsOver s .outward .subprocessToProcess Edge.target
      = [some f.process.guid] := by
    simp [Graph.idsOver, edgesAt, hout, Edge.matches, hdl, hel', het', hq]
  unfold Graph.contentOf
  rw [if_pos hstep.label_eq, hinputs, houtputs, howners, guid?_stepOf hstep, hdisplay]

theorem nameAt_plain (h : Complete U P g) {v : Vertex} {n : String} (hv : v ∈ allVertices g)
    (hn : v.nodeId? = some n) (hU : U n) : g.nameAt v.id = some (.plain (some n)) := by
  unfold Graph.nameAt
  rw [h.wellFormed.vertex?_eq_some_iff.2 ⟨hv, rfl⟩, Option.map_some,
    contentOf_eq_plain (h.label_ne hv hn hU), hn]
  rfl

/-- Everything that is said of vertices comes from the items. -/
theorem contentOf_from (h : Complete U P g) (hc : Consistent U P) {v : Vertex}
    (hv : v ∈ allVertices g) : VertexContent.From P (g.contentOf v) := by
  by_cases hlabel : v.label = NodeLabel.subProcess.name
  · obtain ⟨f, u, w, q, hi, hstep⟩ := h.exists_stepOf hc hv hlabel
    rw [h.contentOf_stepOf hstep]
    exact .step hi
  · rw [contentOf_eq_plain hlabel]
    cases h.made.vertex v hv with
    | node hi hl hn =>
      rw [hl, hn]
      exact .node hi
    | @process p hi hl hps =>
      have hn : v.nodeId? = some p.guid := nodeId?_of_processProperties hps
      rw [hl, hn, hps]
      exact .process hi
    | step _ hl => exact absurd hl hlabel

/-- The step of an item is there. -/
theorem exists_stepOf_item (h : Complete U P g) (hc : Consistent U P) {f : Fragment}
    (hi : P (.step f)) : ∃ s u w q, g.StepOf f s u w q := by
  have hg := h.wellFormed
  obtain ⟨u, hu, w, hw, hun, hwn, s, hs, hlabel, hguid, hin, hout⟩ := h.has _ hi
  obtain ⟨f', u', w', q, hi', hstep⟩ := h.exists_stepOf hc hs hlabel
  obtain rfl : u = u' := hg.eq_of_vertex_id hu hstep.source_mem
    (hstep.isStep.source_eq hg.toCoherent hin)
  obtain rfl : w = w' := hg.eq_of_vertex_id hw hstep.target_mem
    (hstep.isStep.target_eq hg.toCoherent hout)
  have hprocess : f.process = f'.process := hc.process_unique (hc.step_process hi)
    (hc.step_process hi') (Option.some.inj (hguid.symm.trans (guid?_stepOf hstep)))
  have hcolumnIn : f.columnIn = f'.columnIn := Option.some.inj (hun.symm.trans hstep.source_id)
  have hcolumnOut : f.columnOut = f'.columnOut := Option.some.inj (hwn.symm.trans hstep.target_id)
  obtain rfl : f = f' := Fragment.ext hcolumnIn hcolumnOut hprocess
  exact ⟨s, u, w, q, hstep⟩

/-- All that the items say of vertices is said in the graph. -/
theorem exists_contentOf (h : Complete U P g) (hc : Consistent U P) {c : VertexContent}
    (hfrom : VertexContent.From P c) : ∃ v ∈ allVertices g, g.contentOf v = c := by
  cases hfrom with
  | @node l n ps hi =>
    obtain ⟨v, hv, hn⟩ := h.has _ hi
    have hlabel := h.label_ne hv hn ((hc.within _ hi).guids n (by simp [Item.guids]))
    refine ⟨v, hv, (contentOf_eq_plain hlabel).trans ?_⟩
    cases h.made.vertex v hv with
    | node hi' hl hn' =>
      obtain rfl := Option.some.inj (hn.symm.trans hn')
      obtain ⟨rfl, hps⟩ := hc.node_unique hi hi'
      rw [hn, hl, hps]
    | @process p hi' _ hps =>
      have hn' : v.nodeId? = some p.guid := nodeId?_of_processProperties hps
      exact absurd (Option.some.inj (hn.symm.trans hn')) (hc.node_ne_process hi hi')
    | step _ hl => exact absurd hl hlabel
  | @process p hi =>
    obtain ⟨v, hv, hlabel, hn⟩ := h.has _ hi
    have hne : v.label ≠ NodeLabel.subProcess.name := by
      simp [hlabel]
    refine ⟨v, hv, (contentOf_eq_plain hne).trans ?_⟩
    cases h.made.vertex v hv with
    | node hi' hl _ => exact absurd (hl.symm.trans hlabel) (node_label_ne hc hi').1
    | @process p' hi' _ hps =>
      have hn' : v.nodeId? = some p'.guid := nodeId?_of_processProperties hps
      obtain rfl := hc.process_unique hi hi' (Option.some.inj (hn.symm.trans hn'))
      rw [hn, hlabel, hps]
    | step _ hl => exact absurd hl hne
  | step hi =>
    obtain ⟨s, u, w, q, hstep⟩ := h.exists_stepOf_item hc hi
    exact ⟨s, hstep.mem, h.contentOf_stepOf hstep⟩

/-- The vertices that steps name are told by their guids. -/
theorem eq_of_column (h : Complete U P g) (hc : Consistent U P) {f f' : Fragment} (hi : P (.step f))
    (hi' : P (.step f')) {x y : Vertex} {m n : String} (hx : x ∈ allVertices g)
    (hy : y ∈ allVertices g) (hm : m ∈ f.guids) (hxm : x.nodeId? = some m) (hn : n ∈ f'.guids)
    (hyn : y.nodeId? = some n) (heq : m = n) : x = y := by
  have hxl := h.label_ne hx hxm ((hc.within _ hi).guids m hm)
  have hyl := h.label_ne hy hyn ((hc.within _ hi').guids n hn)
  exact h.eq_of_nodeId hc hx hy hxl hyl (by rw [hxm, hyn, heq])

/-- No two vertices go by one name. -/
theorem eq_of_name (h : Complete U P g) (hc : Consistent U P) {x y : Vertex}
    (hx : x ∈ allVertices g) (hy : y ∈ allVertices g)
    (heq : (g.contentOf x).name = (g.contentOf y).name) : x = y := by
  by_cases hxl : x.label = NodeLabel.subProcess.name <;>
    by_cases hyl : y.label = NodeLabel.subProcess.name
  · obtain ⟨f, u, w, q, hi, hstep⟩ := h.exists_stepOf hc hx hxl
    obtain ⟨f', u', w', q', hi', hstep'⟩ := h.exists_stepOf hc hy hyl
    rw [h.contentOf_stepOf hstep, h.contentOf_stepOf hstep'] at heq
    simp only [VertexContent.name, VertexName.step.injEq, List.cons.injEq, Option.some.injEq,
      and_true] at heq
    obtain ⟨hin, hout, hprocess⟩ := heq
    obtain rfl : u = u' := h.eq_of_column hc hi hi' hstep.source_mem hstep'.source_mem
      (by simp [Fragment.guids]) hstep.source_id (by simp [Fragment.guids]) hstep'.source_id hin
    obtain rfl : w = w' := h.eq_of_column hc hi hi' hstep.target_mem hstep'.target_mem
      (by simp [Fragment.guids]) hstep.target_id (by simp [Fragment.guids]) hstep'.target_id hout
    have hguid : x.guid? = y.guid? := by rw [guid?_stepOf hstep, guid?_stepOf hstep', hprocess]
    exact h.stepped.unique x hx y hy hxl hyl hguid u w q q' hstep.isStep hstep'.isStep
  · rw [contentOf_eq_plain hyl] at heq
    unfold Graph.contentOf at heq
    rw [if_pos hxl] at heq
    cases heq
  · rw [contentOf_eq_plain hxl] at heq
    unfold Graph.contentOf at heq
    rw [if_pos hyl] at heq
    cases heq
  · rw [contentOf_eq_plain hxl, contentOf_eq_plain hyl] at heq
    exact h.eq_of_nodeId hc hx hy hxl hyl (VertexName.plain.inj heq)

end Complete

/-! ## Edges -/

namespace Complete

variable {U : String → Prop} {P : Item → Prop} {g : Graph}

theorem nameAt_of_mem [StepIds] (h : Complete U P g) {v : Vertex} (hv : v ∈ allVertices g) :
    g.nameAt v.id = some (g.contentOf v).name := by
  unfold Graph.nameAt
  rw [h.wellFormed.vertex?_eq_some_iff.2 ⟨hv, rfl⟩]
  rfl

theorem edgeContentOf_of_runs {e : Edge} {l : EdgeLabel} {u v : Vertex} (hruns : e.Runs l u v) :
    g.edgeContentOf e = .between l.name (g.nameAt u.id) (g.nameAt v.id) := by
  unfold Graph.edgeContentOf
  rw [hruns.1, hruns.2.1, hruns.2.2]

variable [StepIds]

/-- What the edges of a step say is what the fragment says. -/
theorem edgeContentOf_stepOf (h : Complete U P g) (hc : Consistent U P) {f : Fragment}
    (hi : P (.step f)) {s u w q : Vertex} (hstep : g.StepOf f s u w q) :
    (∀ e, e.Runs .columnAndProcess u s → g.edgeContentOf e
      = .between EdgeLabel.columnAndProcess.name (some (.plain (some f.columnIn)))
        (some f.stepName))
    ∧ (∀ e, e.Runs .columnAndProcess s w → g.edgeContentOf e
      = .between EdgeLabel.columnAndProcess.name (some f.stepName)
        (some (.plain (some f.columnOut))))
    ∧ ∀ e, e.Runs .subprocessToProcess s q → g.edgeContentOf e
      = .between EdgeLabel.subprocessToProcess.name (some f.stepName)
        (some (.plain (some f.process.guid))) := by
  have hU : ∀ n ∈ f.guids, U n := (hc.within _ hi).guids
  have hs : g.nameAt s.id = some f.stepName := by
    rw [h.nameAt_of_mem hstep.mem, h.contentOf_stepOf hstep]
    rfl
  have hu := h.nameAt_plain hstep.source_mem hstep.source_id (hU _ (by simp [Fragment.guids]))
  have hw := h.nameAt_plain hstep.target_mem hstep.target_id (hU _ (by simp [Fragment.guids]))
  have hq := h.nameAt_plain hstep.owner_mem hstep.owner_id (hU _ (by simp [Fragment.guids]))
  refine ⟨fun e he => ?_, fun e he => ?_, fun e he => ?_⟩
  · rw [edgeContentOf_of_runs he, hs, hu]
  · rw [edgeContentOf_of_runs he, hs, hw]
  · rw [edgeContentOf_of_runs he, hs, hq]

/-- Everything that is said of edges comes from the items. -/
theorem edgeContentOf_from (h : Complete U P g) (hc : Consistent U P) {e : Edge}
    (he : e ∈ allEdges g) : EdgeContent.From P (g.edgeContentOf e) := by
  have hcoh := h.wellFormed.toCoherent
  cases h.made.edge e he with
  | @item l m n u v hi hu hm hv hn hruns =>
    have hU := (hc.within _ hi).guids
    rw [edgeContentOf_of_runs hruns, h.nameAt_plain hu hm (hU m (by simp [Item.guids])),
      h.nameAt_plain hv hn (hU n (by simp [Item.guids]))]
    exact .item hi
  | @step s hs hlabel htouches =>
    obtain ⟨f, u, w, q, hi, hstep⟩ := h.exists_stepOf hc hs hlabel
    obtain ⟨hinput, houtput, howner⟩ := h.edgeContentOf_stepOf hc hi hstep
    obtain ⟨e₁, hin, hinward⟩ := hstep.isStep.inward
    obtain ⟨e₂, e₃, hout, hup, houtward⟩ := hstep.isStep.outward
    rcases htouches with hsource | htarget
    · have hmem := hcoh.mem_incident_outward.2 ⟨he, hsource⟩
      rw [houtward, List.mem_cons, List.mem_singleton] at hmem
      rcases hmem with rfl | rfl
      · rw [houtput _ hout]
        exact .output hi
      · rw [howner _ hup]
        exact .owner hi
    · have hmem := hcoh.mem_incident_inward.2 ⟨he, htarget⟩
      rw [hinward, List.mem_singleton] at hmem
      rw [hmem, hinput _ hin]
      exact .input hi

/-- All that the items say of edges is said in the graph. -/
theorem exists_edgeContentOf (h : Complete U P g) (hc : Consistent U P) {c : EdgeContent}
    (hfrom : EdgeContent.From P c) : ∃ e ∈ allEdges g, g.edgeContentOf e = c := by
  have hcoh := h.wellFormed.toCoherent
  cases hfrom with
  | @item l m n hi =>
    have hU := (hc.within _ hi).guids
    obtain ⟨u, hu, v, hv, hm, hn, hjoined⟩ := h.has _ hi
    have hnu := h.nameAt_plain hu hm (hU m (by simp [Item.guids]))
    have hnv := h.nameAt_plain hv hn (hU n (by simp [Item.guids]))
    rcases hjoined with ⟨e, he, hsource, hl, htarget⟩ | ⟨rfl, e, he, hsource, hl, htarget⟩
    · refine ⟨e, he, ?_⟩
      rw [edgeContentOf_of_runs ⟨hl, hsource, htarget⟩, hnu, hnv]
    · refine ⟨e, he, ?_⟩
      rw [edgeContentOf_of_runs ⟨hl, hsource, htarget⟩, hnu, hnv]
      exact EdgeContent.between_synonym _ _
  | input hi =>
    obtain ⟨s, u, w, q, hstep⟩ := h.exists_stepOf_item hc hi
    obtain ⟨e, hruns, hinward⟩ := hstep.isStep.inward
    exact ⟨e, hcoh.mem_incident (hinward ▸ List.mem_cons_self),
      (h.edgeContentOf_stepOf hc hi hstep).1 e hruns⟩
  | output hi =>
    obtain ⟨s, u, w, q, hstep⟩ := h.exists_stepOf_item hc hi
    obtain ⟨e, e', hruns, -, houtward⟩ := hstep.isStep.outward
    exact ⟨e, hcoh.mem_incident (houtward ▸ List.mem_cons_self),
      (h.edgeContentOf_stepOf hc hi hstep).2.1 e hruns⟩
  | owner hi =>
    obtain ⟨s, u, w, q, hstep⟩ := h.exists_stepOf_item hc hi
    obtain ⟨e', e, -, hruns, houtward⟩ := hstep.isStep.outward
    exact ⟨e, hcoh.mem_incident (houtward ▸ List.mem_cons_of_mem _ List.mem_cons_self),
      (h.edgeContentOf_stepOf hc hi hstep).2.2 e hruns⟩

/-- No two edges say the same. -/
theorem eq_of_edgeContentOf (h : Complete U P g) (hc : Consistent U P) {d e : Edge}
    (hd : d ∈ allEdges g) (he : e ∈ allEdges g) (heq : g.edgeContentOf d = g.edgeContentOf e) :
    d = e := by
  have hnames : ∀ {a b : Vertex}, a ∈ allVertices g → b ∈ allVertices g →
      g.nameAt a.id = g.nameAt b.id → a.id = b.id := by
    intro a b ha hb heq
    rw [h.nameAt_of_mem ha, h.nameAt_of_mem hb] at heq
    rw [h.eq_of_name hc ha hb (Option.some.inj heq)]
  obtain ⟨a, ha, hda⟩ := h.wellFormed.exists_source hd
  obtain ⟨b, hb, hdb⟩ := h.wellFormed.exists_target hd
  obtain ⟨a', ha', hea⟩ := h.wellFormed.exists_source he
  obtain ⟨b', hb', heb⟩ := h.wellFormed.exists_target he
  unfold Graph.edgeContentOf at heq
  rw [← hda, ← hdb, ← hea, ← heb] at heq
  refine h.made.edge_unique d hd e he ?_
  unfold Graph.SameEdge
  rw [← hda, ← hdb, ← hea, ← heb]
  obtain ⟨hlabel, ⟨hs, ht⟩ | ⟨hsyn, hs, ht⟩⟩ := EdgeContent.between_inj heq
  · exact ⟨hlabel, .inl ⟨hnames ha ha' hs, hnames hb hb' ht⟩⟩
  · exact ⟨hlabel, .inr ⟨hsyn, hnames ha hb' hs, hnames hb ha' ht⟩⟩

/-! ## The whole content -/

theorem sameContent {g' : Graph} (h : Complete U P g) (h' : Complete U P g')
    (hc : Consistent U P) : g.SameContent g' := by
  have hvertices : ∀ {g : Graph}, Complete U P g →
      ((allVertices g).map g.contentOf).Nodup ∧ ∀ c, c ∈ (allVertices g).map g.contentOf ↔
        VertexContent.From P c := by
    intro g h
    refine ⟨List.Nodup.map_on (fun x hx y hy heq => h.eq_of_name hc hx hy (congrArg _ heq))
      (h.wellFormed.vertices_ascending.imp fun hlt heq => ?_), fun c => ?_⟩
    · rw [heq] at hlt
      exact Nat.lt_irrefl _ hlt
    · rw [List.mem_map]
      constructor
      · rintro ⟨v, hv, rfl⟩
        exact h.contentOf_from hc hv
      · exact h.exists_contentOf hc
  have hedges : ∀ {g : Graph}, Complete U P g →
      ((allEdges g).map g.edgeContentOf).Nodup ∧ ∀ c, c ∈ (allEdges g).map g.edgeContentOf ↔
        EdgeContent.From P c := by
    intro g h
    refine ⟨List.Nodup.map_on (fun d hd e he heq => h.eq_of_edgeContentOf hc hd he heq)
      (h.wellFormed.edges_ascending.imp fun hlt heq => ?_), fun c => ?_⟩
    · rw [heq] at hlt
      exact Nat.lt_irrefl _ hlt
    · rw [List.mem_map]
      constructor
      · rintro ⟨e, he, rfl⟩
        exact h.edgeContentOf_from hc he
      · exact h.exists_edgeContentOf hc
  refine ⟨?_, ?_⟩
  · obtain ⟨hnodup, hmem⟩ := hvertices h
    obtain ⟨hnodup', hmem'⟩ := hvertices h'
    exact (List.perm_ext_iff_of_nodup hnodup hnodup').2 fun c => (hmem c).trans (hmem' c).symm
  · obtain ⟨hnodup, hmem⟩ := hedges h
    obtain ⟨hnodup', hmem'⟩ := hedges h'
    exact (List.perm_ext_iff_of_nodup hnodup hnodup').2 fun c => (hmem c).trans (hmem' c).symm

end Complete

end Lineage
