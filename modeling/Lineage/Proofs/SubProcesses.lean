import Lineage.Proofs.Runs

/-!
# The shape of sub-processes

A sub-process has one edge from its input column, one to its output column and one to its process,
and no other (`Graph.IsStep`). Every write keeps it so (`Write.wellStepped`): an edge that is added
between vertices found by a guid in use cannot touch a sub-process, whose node id is no such guid.
-/

namespace Lineage

open Std

namespace Graph

/-! ## Steps of a process -/

/-- A sub-process between two vertices and owned by a third, with no other edges. -/
structure IsStep (g : Graph) (s u v q : Vertex) : Prop where
  inward : ∃ e, e.Runs .columnAndProcess u s ∧ Readable.incident g s.id .inward = [e]
  outward : ∃ d e, d.Runs .columnAndProcess s v ∧ e.Runs .subprocessToProcess s q
    ∧ Readable.incident g s.id .outward = [d, e]

structure WellStepped (g : Graph) : Prop where
  steps : ∀ s ∈ allVertices g, s.label = NodeLabel.subProcess.name →
    ∃ u ∈ allVertices g, ∃ v ∈ allVertices g, ∃ q ∈ allVertices g, g.IsStep s u v q
      ∧ q.label = NodeLabel.process.name ∧ s.guid? = q.guid?
  unique : ∀ s ∈ allVertices g, ∀ s' ∈ allVertices g, s.label = NodeLabel.subProcess.name →
    s'.label = NodeLabel.subProcess.name → s.guid? = s'.guid? →
      ∀ u v q q', g.IsStep s u v q → g.IsStep s' u v q' → s = s'
  identity : ∀ q ∈ allVertices g, q.label = NodeLabel.process.name →
    ∃ n, q.nodeId? = some n ∧ q.guid? = some n
  process_unique : ∀ q ∈ allVertices g, ∀ q' ∈ allVertices g, q.label = NodeLabel.process.name →
    q'.label = NodeLabel.process.name → q.guid? = q'.guid? → q = q'

/-- No sub-process goes by a guid in use. -/
def FreshSteps (U : String → Prop) (g : Graph) : Prop :=
  ∀ s ∈ allVertices g, s.label = NodeLabel.subProcess.name → ∀ n ∈ s.nodeId?, ¬ U n

instance {U : String → Prop} [DecidablePred U] {g : Graph} : Decidable (g.FreshSteps U) :=
  inferInstanceAs (Decidable (∀ s ∈ allVertices g, s.label = NodeLabel.subProcess.name →
    ∀ n ∈ s.nodeId?, ¬ U n))

theorem wellStepped_empty (name : String) : (empty name).WellStepped where
  steps s hs := by simp at hs
  unique s hs := by simp at hs
  identity q hq := by simp at hq
  process_unique q hq := by simp at hq

variable {U : String → Prop} {g g' : Graph}

theorem Grows.freshSteps (h : g.Grows g') (hf : g'.FreshSteps U) : g.FreshSteps U :=
  fun s hs => hf s (h.mem_vertices hs)

theorem FreshSteps.ne (h : g.FreshSteps U) {s u : Vertex} {n : String} (hs : s ∈ allVertices g)
    (hlabel : s.label = NodeLabel.subProcess.name) (hu : u.nodeId? = some n) (hn : U n) :
    u ≠ s := by
  rintro rfl
  exact h u hs hlabel n hu hn

/-- Edges that do not touch a vertex leave what is met there alone. -/
theorem incident_eq_of_append (h : g.Coherent) (h' : g'.Coherent) {es : List Edge} {x : VertexId}
    (heq : allEdges g' = allEdges g ++ es) (hes : ∀ e ∈ es, e.source ≠ x ∧ e.target ≠ x) :
    Readable.incident g' x .inward = Readable.incident g x .inward
      ∧ Readable.incident g' x .outward = Readable.incident g x .outward := by
  have hin : es.filter (·.target == x) = [] := by
    simp only [List.filter_eq_nil_iff, beq_iff_eq]
    exact fun e he => (hes e he).2
  have hout : es.filter (·.source == x) = [] := by
    simp only [List.filter_eq_nil_iff, beq_iff_eq]
    exact fun e he => (hes e he).1
  rw [h'.incident_inward, h.incident_inward, h'.incident_outward, h.incident_outward, heq,
    List.filter_append, List.filter_append, hin, hout, List.append_nil, List.append_nil]
  exact ⟨rfl, rfl⟩

/-- A vertex that is not in the graph is met by the added edges alone. -/
theorem incident_eq_of_new (h : g.WellFormed) (h' : g'.Coherent) {es : List Edge} {x : VertexId}
    (heq : allEdges g' = allEdges g ++ es) (hx : ∀ u ∈ allVertices g, u.id ≠ x) :
    Readable.incident g' x .inward = es.filter (·.target == x)
      ∧ Readable.incident g' x .outward = es.filter (·.source == x) := by
  have hin : (allEdges g).filter (·.target == x) = [] := by
    simp only [List.filter_eq_nil_iff, beq_iff_eq]
    intro e he heq
    obtain ⟨u, hu, hid⟩ := h.exists_target he
    exact hx u hu (hid.trans heq)
  have hout : (allEdges g).filter (·.source == x) = [] := by
    simp only [List.filter_eq_nil_iff, beq_iff_eq]
    intro e he heq
    obtain ⟨u, hu, hid⟩ := h.exists_source he
    exact hx u hu (hid.trans heq)
  rw [h'.incident_inward, h'.incident_outward, heq, List.filter_append, List.filter_append, hin,
    hout, List.nil_append, List.nil_append]
  exact ⟨rfl, rfl⟩

theorem IsStep.of_incident_eq {s u v q : Vertex} (h : g.IsStep s u v q)
    (heq : Readable.incident g' s.id .inward = Readable.incident g s.id .inward
      ∧ Readable.incident g' s.id .outward = Readable.incident g s.id .outward) :
    g'.IsStep s u v q where
  inward := heq.1.symm ▸ h.inward
  outward := heq.2.symm ▸ h.outward

/-- A sub-process has one input and one output. -/
theorem IsStep.ends_eq {s u v q u' v' q' : Vertex} (h : g.IsStep s u v q)
    (h' : g.IsStep s u' v' q') : u.id = u'.id ∧ v.id = v'.id := by
  obtain ⟨e, he, hin⟩ := h.inward
  obtain ⟨e', he', hin'⟩ := h'.inward
  obtain ⟨d, _, hd, -, hout⟩ := h.outward
  obtain ⟨d', _, hd', -, hout'⟩ := h'.outward
  rw [hin, List.cons.injEq] at hin'
  rw [hout, List.cons.injEq] at hout'
  exact ⟨by rw [← he.2.1, hin'.1, he'.2.1], by rw [← hd.2.2, hout'.1, hd'.2.2]⟩

theorem IsStep.source_eq (hg : g.Coherent) {s u v q : Vertex} (h : g.IsStep s u v q) {x : VertexId}
    (hx : g.Joined .columnAndProcess x s.id) : x = u.id := by
  obtain ⟨e, he, hin⟩ := h.inward
  obtain ⟨d, hd, hsource, -, htarget⟩ := hx
  have hmem := hg.mem_incident_inward.2 ⟨hd, htarget⟩
  rw [hin, List.mem_singleton] at hmem
  rw [← hsource, hmem, he.2.1]

theorem IsStep.target_eq (hg : g.Coherent) {s u v q : Vertex} (h : g.IsStep s u v q) {y : VertexId}
    (hy : g.Joined .columnAndProcess s.id y) : y = v.id := by
  obtain ⟨e, e', he, he', hout⟩ := h.outward
  obtain ⟨d, hd, hsource, hlabel, htarget⟩ := hy
  have hmem := hg.mem_incident_outward.2 ⟨hd, hsource⟩
  rw [hout, List.mem_cons, List.mem_singleton] at hmem
  rcases hmem with rfl | rfl
  · rw [← htarget, he.2.2]
  · simp [he'.1] at hlabel

theorem IsStep.owner_eq (hg : g.Coherent) {s u v q : Vertex} (h : g.IsStep s u v q) {y : VertexId}
    (hy : g.Joined .subprocessToProcess s.id y) : y = q.id := by
  obtain ⟨e, e', he, he', hout⟩ := h.outward
  obtain ⟨d, hd, hsource, hlabel, htarget⟩ := hy
  have hmem := hg.mem_incident_outward.2 ⟨hd, hsource⟩
  rw [hout, List.mem_cons, List.mem_singleton] at hmem
  rcases hmem with rfl | rfl
  · simp [he.1] at hlabel
  · rw [← htarget, he'.2.2]

theorem IsStep.joined_in (hg : g.Coherent) {s u v q : Vertex} (h : g.IsStep s u v q) :
    g.Joined .columnAndProcess u.id s.id := by
  obtain ⟨e, he, hin⟩ := h.inward
  exact ⟨e, hg.mem_incident (hin ▸ List.mem_cons_self), he.2.1, he.1, he.2.2⟩

theorem IsStep.joined_out (hg : g.Coherent) {s u v q : Vertex} (h : g.IsStep s u v q) :
    g.Joined .columnAndProcess s.id v.id := by
  obtain ⟨d, _, hd, -, hout⟩ := h.outward
  exact ⟨d, hg.mem_incident (hout ▸ List.mem_cons_self), hd.2.1, hd.1, hd.2.2⟩

theorem IsStep.joined_up (hg : g.Coherent) {s u v q : Vertex} (h : g.IsStep s u v q) :
    g.Joined .subprocessToProcess s.id q.id := by
  obtain ⟨_, e, -, he, hout⟩ := h.outward
  exact ⟨e, hg.mem_incident (hout ▸ List.mem_cons_of_mem _ List.mem_cons_self), he.2.1, he.1,
    he.2.2⟩

/-- The ends of a step are linked through it. -/
theorem IsStep.linked (hg : g.Coherent) {s u v q : Vertex} {n : String} (h : g.IsStep s u v q)
    (hs : s ∈ allVertices g) (hlabel : s.label = NodeLabel.subProcess.name)
    (hguid : s.guid? = some n) : g.Linked u.id v.id n :=
  ⟨s, hs, hlabel, hguid, h.joined_in hg, h.joined_out hg⟩

/-- Sub-processes of one process that have an input and an output in common are one. -/
theorem WellStepped.eq_of_joined (h : g.WellStepped) (hg : g.WellFormed) {s s' : Vertex}
    (hs : s ∈ allVertices g) (hs' : s' ∈ allVertices g)
    (hlabel : s.label = NodeLabel.subProcess.name) (hlabel' : s'.label = NodeLabel.subProcess.name)
    (hguid : s.guid? = s'.guid?) {u v : VertexId} (hu : g.Joined .columnAndProcess u s.id)
    (hv : g.Joined .columnAndProcess s.id v) (hu' : g.Joined .columnAndProcess u s'.id)
    (hv' : g.Joined .columnAndProcess s'.id v) : s = s' := by
  obtain ⟨a, ha, b, hb, q, -, hstep, -⟩ := h.steps s hs hlabel
  obtain ⟨a', ha', b', hb', q', -, hstep', -⟩ := h.steps s' hs' hlabel'
  have hc := hg.toCoherent
  obtain rfl : a = a' := hg.eq_of_vertex_id ha ha'
    ((hstep.source_eq hc hu).symm.trans (hstep'.source_eq hc hu'))
  obtain rfl : b = b' := hg.eq_of_vertex_id hb hb'
    ((hstep.target_eq hc hv).symm.trans (hstep'.target_eq hc hv'))
  exact h.unique s hs s' hs' hlabel hlabel' hguid a b q q' hstep hstep'

/-! ## Writes that leave sub-processes alone -/

theorem WellStepped.of_beside (h : g.WellStepped) (hg : g.Coherent) (hg' : g'.Coherent)
    {vs : List Vertex} {es : List Edge} (hvs : allVertices g' = allVertices g ++ vs)
    (hes : allEdges g' = allEdges g ++ es)
    (hvertex : ∀ v ∈ vs, v.label ≠ NodeLabel.subProcess.name ∧ v.label ≠ NodeLabel.process.name)
    (hedge : ∀ e ∈ es, ∀ s ∈ allVertices g, s.label = NodeLabel.subProcess.name →
      e.source ≠ s.id ∧ e.target ≠ s.id) : g'.WellStepped := by
  have hmem : ∀ {v}, v ∈ allVertices g → v ∈ allVertices g' := fun hv =>
    hvs ▸ List.mem_append_left _ hv
  have hstep : ∀ {s}, s ∈ allVertices g' → s.label = NodeLabel.subProcess.name →
      s ∈ allVertices g := by
    intro s hs hlabel
    rw [hvs] at hs
    exact (List.mem_append.1 hs).resolve_right fun hs => (hvertex s hs).1 hlabel
  have hprocess : ∀ {q}, q ∈ allVertices g' → q.label = NodeLabel.process.name →
      q ∈ allVertices g := by
    intro q hq hlabel
    rw [hvs] at hq
    exact (List.mem_append.1 hq).resolve_right fun hq => (hvertex q hq).2 hlabel
  have hincident : ∀ {s}, s ∈ allVertices g → s.label = NodeLabel.subProcess.name → _ :=
    fun {s} hs hlabel => incident_eq_of_append hg hg' hes fun e he => hedge e he s hs hlabel
  refine ⟨fun s hs hlabel => ?_, fun s hs s' hs' hlabel hlabel' hguid u v q q' hq hq' => ?_,
    fun q hq hlabel => h.identity q (hprocess hq hlabel) hlabel,
    fun q hq q' hq' hlabel hlabel' =>
      h.process_unique q (hprocess hq hlabel) q' (hprocess hq' hlabel') hlabel hlabel'⟩
  · have hs := hstep hs hlabel
    obtain ⟨u, hu, v, hv, q, hq, hisstep, hrest⟩ := h.steps s hs hlabel
    exact ⟨u, hmem hu, v, hmem hv, q, hmem hq, hisstep.of_incident_eq (hincident hs hlabel), hrest⟩
  · have hs := hstep hs hlabel
    have hs' := hstep hs' hlabel'
    have heq := hincident hs hlabel
    have heq' := hincident hs' hlabel'
    exact h.unique s hs s' hs' hlabel hlabel' hguid u v q q'
      (hq.of_incident_eq ⟨heq.1.symm, heq.2.symm⟩) (hq'.of_incident_eq ⟨heq'.1.symm, heq'.2.symm⟩)

end Graph

open Lineage.Graph

/-! ## A new sub-process -/

section Step

variable {U : String → Prop} {g g' : Graph} {P : Item → Prop} {f : Fragment} {u v s q w : Vertex}
  {vs : List Vertex} {e₁ e₂ e₃ : Edge}

theorem Owner.guid_eq (h : g.WellStepped) {p : ProcessRef} (howner : Owner P g p q vs) :
    q.guid? = some p.guid := by
  cases howner with
  | existing hq hlabel hid =>
    obtain ⟨n, hid', hguid⟩ := h.identity q hq hlabel
    rw [hguid, ← hid', hid]
  | created _ _ hps _ => exact guid?_of_processProperties hps

/-- An owner that has to be added is the first process with its guid. -/
theorem Owner.new (h : g.WellStepped) {p : ProcessRef} (howner : Owner P g p q vs)
    (hw : w ∈ vs) : ∀ q' ∈ allVertices g, q'.label = NodeLabel.process.name →
      q'.guid? ≠ some p.guid := by
  cases howner with
  | existing _ _ _ => cases hw
  | created _ _ _ hnew =>
    intro q' hq' hlabel hguid
    obtain ⟨n, hid, hguid'⟩ := h.identity q' hq' hlabel
    exact hnew q' hq' hlabel (by rw [hid, ← hguid', hguid])

variable [StepIds]

namespace StepWrite

/-- A new sub-process is a step from its input to its output. -/
theorem isStep (h : StepWrite P g g' f u v s q vs e₁ e₂ e₃) (hg : g.WellFormed)
    (hg' : g'.Coherent) : g'.IsStep s u v q := by
  have hu : u.id ≠ s.id := h.id_ne hg' (hg.mem_of_vertexWith? h.source_eq).1
  have hv : v.id ≠ s.id := h.id_ne hg' (hg.mem_of_vertexWith? h.target_eq).1
  have hq := h.owner_ne hg'
  obtain ⟨hinward, houtward⟩ :=
    incident_eq_of_new hg hg' h.edges_eq fun w hw => h.id_ne hg' hw
  refine ⟨⟨e₁, h.runs_in, ?_⟩, e₂, e₃, h.runs_out, h.runs_up, ?_⟩
  · rw [hinward]
    simp [h.runs_in.2.2, h.runs_out.2.2, h.runs_up.2.2, hv, hq]
  · rw [houtward]
    simp [h.runs_in.2.1, h.runs_out.2.1, h.runs_up.2.1, hu]

theorem guid_eq (h : StepWrite P g g' f u v s q vs e₁ e₂ e₃) :
    s.guid? = some f.process.guid :=
  guid?_of_processProperties h.properties_eq

theorem mem_of_subProcess (h : StepWrite P g g' f u v s q vs e₁ e₂ e₃) (hw : w ∈ allVertices g')
    (hlabel : w.label = NodeLabel.subProcess.name) : w ∈ allVertices g ∨ w = s := by
  rcases h.mem_cases hw with hw | hw | hw
  · exact .inl hw
  · exact .inr hw
  · simp [h.owner.eq_of_mem hw, h.owner.label_eq] at hlabel

theorem mem_of_process (h : StepWrite P g g' f u v s q vs e₁ e₂ e₃) (hw : w ∈ allVertices g')
    (hlabel : w.label = NodeLabel.process.name) : w ∈ allVertices g ∨ w ∈ vs := by
  rcases h.mem_cases hw with hw | rfl | hw
  · exact .inl hw
  · simp [h.label_eq] at hlabel
  · exact .inr hw

/-- No edge of the new sub-process touches one that was there before: its columns are found by guids
in use, and its owner is a process. -/
theorem incident_eq (h : StepWrite P g g' f u v s q vs e₁ e₂ e₃) (hg : g.WellFormed)
    (hg' : g'.WellFormed) (hf : g'.FreshSteps U) (hU : ∀ n ∈ f.guids, U n)
    (hw : w ∈ allVertices g) (hlabel : w.label = NodeLabel.subProcess.name) :
    Readable.incident g' w.id .inward = Readable.incident g w.id .inward
      ∧ Readable.incident g' w.id .outward = Readable.incident g w.id .outward := by
  have hmem : ∀ {a}, a ∈ allVertices g → a ∈ allVertices g' := fun ha =>
    h.vertices_eq ▸ List.mem_append_left _ ha
  have hne : ∀ {a : Vertex}, a ∈ allVertices g' → a ≠ w → a.id ≠ w.id := fun ha hne heq =>
    hne (hg'.eq_of_vertex_id ha (hmem hw) heq)
  obtain ⟨hu, hun⟩ := hg.mem_of_vertexWith? h.source_eq
  obtain ⟨hv, hvn⟩ := hg.mem_of_vertexWith? h.target_eq
  have hsw : s.id ≠ w.id := (h.id_ne hg'.toCoherent hw).symm
  have huw : u.id ≠ w.id := hne (hmem hu)
    (hf.ne (hmem hw) hlabel hun (hU _ (by simp [Fragment.guids])))
  have hvw : v.id ≠ w.id := hne (hmem hv)
    (hf.ne (hmem hw) hlabel hvn (hU _ (by simp [Fragment.guids])))
  have hqw : q.id ≠ w.id := hne h.mem_owner fun heq => by
    have hqlabel := h.owner.label_eq
    simp [heq, hlabel] at hqlabel
  refine incident_eq_of_append hg.toCoherent hg'.toCoherent h.edges_eq fun e he => ?_
  simp only [List.mem_cons, List.not_mem_nil, or_false] at he
  rcases he with rfl | rfl | rfl
  · exact ⟨h.runs_in.2.1 ▸ huw, h.runs_in.2.2 ▸ hsw⟩
  · exact ⟨h.runs_out.2.1 ▸ hsw, h.runs_out.2.2 ▸ hvw⟩
  · exact ⟨h.runs_up.2.1 ▸ hsw, h.runs_up.2.2 ▸ hqw⟩

theorem isStep_before (h : StepWrite P g g' f u v s q vs e₁ e₂ e₃) (hg : g.WellFormed)
    (hg' : g'.WellFormed) (hf : g'.FreshSteps U) (hU : ∀ n ∈ f.guids, U n)
    (hw : w ∈ allVertices g) (hlabel : w.label = NodeLabel.subProcess.name) {a b c : Vertex}
    (hstep : g'.IsStep w a b c) : g.IsStep w a b c := by
  obtain ⟨hin, hout⟩ := h.incident_eq hg hg' hf hU hw hlabel
  exact hstep.of_incident_eq ⟨hin.symm, hout.symm⟩

/-- A sub-process from before with the ends and the guid of the new one would have linked the
columns, and the new one were not there. -/
theorem not_same_ends (h : StepWrite P g g' f u v s q vs e₁ e₂ e₃) (hg : g.WellFormed)
    (hg' : g'.WellFormed) (hf : g'.FreshSteps U) (hU : ∀ n ∈ f.guids, U n)
    (hw : w ∈ allVertices g) (hlabel : w.label = NodeLabel.subProcess.name)
    (hguid : w.guid? = s.guid?) {a b c d : Vertex} (hstep : g'.IsStep s a b c) :
    ¬ g'.IsStep w a b d := by
  intro hstep'
  have hl := (h.isStep_before hg hg' hf hU hw hlabel hstep').linked hg.toCoherent hw hlabel
    (hguid.trans h.guid_eq)
  obtain ⟨ha, hb⟩ := (h.isStep hg hg'.toCoherent).ends_eq hstep
  rw [← ha, ← hb] at hl
  exact h.new hl

end StepWrite

theorem Graph.WellStepped.of_step (h : g.WellStepped) (hg : g.WellFormed) (hg' : g'.WellFormed)
    (hf : g'.FreshSteps U) (hU : ∀ n ∈ f.guids, U n)
    (hadded : StepWrite P g g' f u v s q vs e₁ e₂ e₃) : g'.WellStepped := by
  have hqguid := hadded.owner.guid_eq h
  have hmem : ∀ {w}, w ∈ allVertices g → w ∈ allVertices g' := fun hw =>
    hadded.vertices_eq ▸ List.mem_append_left _ hw
  refine ⟨fun w hw hlabel => ?_, fun w hw w' hw' hlabel hlabel' heq a b c d hstep hstep' => ?_,
    fun w hw hlabel => ?_, fun w hw w' hw' hlabel hlabel' heq => ?_⟩
  · rcases hadded.mem_of_subProcess hw hlabel with hw | rfl
    · obtain ⟨a, ha, b, hb, c, hc, hstep, hrest⟩ := h.steps w hw hlabel
      exact ⟨a, hmem ha, b, hmem hb, c, hmem hc,
        hstep.of_incident_eq (hadded.incident_eq hg hg' hf hU hw hlabel), hrest⟩
    · exact ⟨u, hmem (hg.mem_of_vertexWith? hadded.source_eq).1, v,
        hmem (hg.mem_of_vertexWith? hadded.target_eq).1, q, hadded.mem_owner,
        hadded.isStep hg hg'.toCoherent, hadded.owner.label_eq, hadded.guid_eq.trans hqguid.symm⟩
  · rcases hadded.mem_of_subProcess hw hlabel with hw | rfl <;>
      rcases hadded.mem_of_subProcess hw' hlabel' with hw' | rfl
    · exact h.unique w hw w' hw' hlabel hlabel' heq a b c d
        (hadded.isStep_before hg hg' hf hU hw hlabel hstep)
        (hadded.isStep_before hg hg' hf hU hw' hlabel' hstep')
    · exact absurd hstep (hadded.not_same_ends hg hg' hf hU hw hlabel heq hstep')
    · exact absurd hstep' (hadded.not_same_ends hg hg' hf hU hw' hlabel' heq.symm hstep)
    · rfl
  · rcases hadded.mem_of_process hw hlabel with hw | hw
    · exact h.identity w hw hlabel
    · rw [hadded.owner.eq_of_mem hw]
      exact ⟨_, hadded.owner.nodeId_eq, hqguid⟩
  · rcases hadded.mem_of_process hw hlabel with hw | hw <;>
      rcases hadded.mem_of_process hw' hlabel' with hw' | hw'
    · exact h.process_unique w hw w' hw' hlabel hlabel' heq
    · rw [hadded.owner.eq_of_mem hw', hqguid] at heq
      exact absurd heq (hadded.owner.new h hw' w hw hlabel)
    · rw [hadded.owner.eq_of_mem hw, hqguid] at heq
      exact absurd heq.symm (hadded.owner.new h hw w' hw' hlabel')
    · rw [hadded.owner.eq_of_mem hw, hadded.owner.eq_of_mem hw']

end Step

theorem Write.wellStepped [StepIds] {U : String → Prop} {g g' : Graph} (hg : g.WellFormed)
    (hg' : g'.WellFormed) (hf : g'.FreshSteps U) (hw : Write (Item.Within U) g g')
    (h : g.WellStepped) : g'.WellStepped := by
  have hgrows := hw.grows
  cases hw with
  | @node label n w hitem hlabel hid hnew hvs hes =>
    obtain ⟨hprocess, hsub⟩ := hitem.shape.resolve_right (by simp)
    have hname : ∀ l : NodeLabel, label ≠ l → w.label ≠ l.name := fun l hne heq =>
      hne (NodeLabel.name_injective (hlabel.symm.trans heq))
    have hes' : allEdges g' = allEdges g ++ [] := by simpa using hes
    refine h.of_beside hg.toCoherent hg'.toCoherent hvs hes' (fun v hv => ?_) (by simp)
    rw [List.mem_singleton.1 hv]
    exact ⟨hname _ hsub, hname _ hprocess⟩
  | @edge label m n u v e hitem hu hm hv hn hnew hback hruns hvs hes =>
    have hvs' : allVertices g' = allVertices g ++ [] := by simpa using hvs
    refine h.of_beside hg.toCoherent hg'.toCoherent hvs' hes (by simp) fun e' he' s hs hlabel => ?_
    have hne : ∀ {w : Vertex} {k}, w ∈ allVertices g → w.nodeId? = some k → U k → w.id ≠ s.id := by
      intro w k hw hk hU heq
      have hs' := hgrows.mem_vertices hs
      exact hf.ne hs' hlabel hk hU (hg'.eq_of_vertex_id (hgrows.mem_vertices hw) hs' heq)
    rw [List.mem_singleton.1 he', hruns.2.1, hruns.2.2]
    exact ⟨hne hu hm (hitem.guids m (by simp [Item.guids])),
      hne hv hn (hitem.guids n (by simp [Item.guids]))⟩
  | step hadded => exact h.of_step hg hg' hf hadded.item.guids hadded

theorem Writes.wellStepped [StepIds] {U : String → Prop} {name : String} {g : Graph}
    (hw : Writes (Item.Within U) (Graph.empty name) g) (hf : g.FreshSteps U) : g.WellStepped :=
  hw.invariant (fun hgrows hf => hgrows.freshSteps hf)
    (fun hg hg' hf hw hinv => hw.wellStepped hg hg' hf hinv) (wellFormed_empty name) hf
    (wellStepped_empty name)

/-! ## Runs -/

/-- In every graph that a run leads to, where no sub-process goes by a guid used in the run: a
sub-process is met by three edges alone, from its input, to its output and to the one process that
has its guid, and no other sub-process has the same ends and the same guid. -/
theorem subProcesses_run [StepIds] (settings : Settings) (ops : List Operation)
    (hfresh : ((Service.initial settings).run ops).graphs.main.FreshSteps
      (· ∈ ops.flatMap Operation.guids)) :
    let g := ((Service.initial settings).run ops).graphs.main
    (∀ s ∈ allVertices g, s.label = NodeLabel.subProcess.name →
      ∃ u ∈ allVertices g, ∃ v ∈ allVertices g, ∃ q ∈ allVertices g, ∃ n e₁ e₂ e₃,
        Readable.incident g s.id .inward = [e₁] ∧ Readable.incident g s.id .outward = [e₂, e₃]
          ∧ e₁.Runs .columnAndProcess u s ∧ e₂.Runs .columnAndProcess s v
          ∧ e₃.Runs .subprocessToProcess s q ∧ q.label = NodeLabel.process.name
          ∧ s.guid? = some n ∧ q.nodeId? = some n ∧ q.guid? = some n)
    ∧ (∀ q ∈ allVertices g, ∀ q' ∈ allVertices g, q.label = NodeLabel.process.name →
      q'.label = NodeLabel.process.name → q.guid? = q'.guid? → q = q')
    ∧ ∀ s ∈ allVertices g, ∀ s' ∈ allVertices g, s.label = NodeLabel.subProcess.name →
      s'.label = NodeLabel.subProcess.name → s.guid? = s'.guid? →
      ∀ u v, g.Joined .columnAndProcess u s.id → g.Joined .columnAndProcess s.id v →
        g.Joined .columnAndProcess u s'.id → g.Joined .columnAndProcess s'.id v → s = s' := by
  intro g
  have hreg := Service.regular_run (U := (· ∈ ops.flatMap Operation.guids)) ops
    (Service.regular_initial settings) fun op hop n hn => List.mem_flatMap.2 ⟨op, hop, hn⟩
  have hstepped : g.WellStepped := hreg.writes.wellStepped hfresh
  have hg := hreg.main
  refine ⟨fun s hs hlabel => ?_, hstepped.process_unique,
    fun s hs s' hs' hlabel hlabel' hguid u v hu hv hu' hv' => ?_⟩
  · obtain ⟨u, hu, v, hv, q, hq, hstep, hqlabel, hguid⟩ := hstepped.steps s hs hlabel
    obtain ⟨n, hid, hqguid⟩ := hstepped.identity q hq hqlabel
    obtain ⟨e₁, hin, hinward⟩ := hstep.inward
    obtain ⟨e₂, e₃, hout, hup, houtward⟩ := hstep.outward
    exact ⟨u, hu, v, hv, q, hq, n, e₁, e₂, e₃, hinward, houtward, hin, hout, hup, hqlabel,
      hguid.trans hqguid, hid, hqguid⟩
  · exact hstepped.eq_of_joined hg hs hs' hlabel hlabel' hguid hu hv hu' hv'

theorem subProcesses_run_sampleRun :
    let g := ((Service.initial {}).run sampleRun).graphs.main
    g.FreshSteps (· ∈ sampleRun.flatMap Operation.guids)
    ∧ ((allVertices g).filter (·.label == NodeLabel.subProcess.name)).length = 3
    ∧ ∀ s ∈ allVertices g, s.label = NodeLabel.subProcess.name →
      ∃ u ∈ allVertices g, ∃ v ∈ allVertices g, ∃ q ∈ allVertices g, ∃ n e₁ e₂ e₃,
        Readable.incident g s.id .inward = [e₁] ∧ Readable.incident g s.id .outward = [e₂, e₃]
          ∧ e₁.Runs .columnAndProcess u s ∧ e₂.Runs .columnAndProcess s v
          ∧ e₃.Runs .subprocessToProcess s q ∧ q.label = NodeLabel.process.name
          ∧ s.guid? = some n ∧ q.nodeId? = some n ∧ q.guid? = some n := by
  have hfresh : ((Service.initial {}).run sampleRun).graphs.main.FreshSteps
      (· ∈ sampleRun.flatMap Operation.guids) := by decide +kernel
  exact ⟨hfresh, by decide +kernel, (subProcesses_run {} sampleRun hfresh).1⟩

end Lineage
