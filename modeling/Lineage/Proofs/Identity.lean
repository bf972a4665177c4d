import Lineage.Proofs.SubProcesses

/-!
# Who goes by a node id

The look-ups before each write keep node ids apart, with one exception: the vertex of a process is
looked for among processes alone. So a node id is shared exactly when a process came to have the
guid of a vertex that was there before, and then by these two alone (`nodeId_unique_iff`).
-/

namespace Lineage

open Std Consolidation

/-- Vertices all of which have a node id: that of a sub-process is made from its id, any other is
its guid and in use. Two share one only where the later is a process and the earlier is not. -/
structure Named [StepIds] (U : String → Prop) (vs : List Vertex) : Prop where
  generated : ∀ s ∈ vs, s.label = NodeLabel.subProcess.name →
    s.nodeId? = some (StepIds.nodeId s.id)
  used : ∀ v ∈ vs, v.label ≠ NodeLabel.subProcess.name →
    ∃ n, v.nodeId? = some n ∧ v.guid? = some n ∧ U n
  shared : ∀ x ∈ vs, ∀ y ∈ vs, x.id < y.id → x.nodeId? = y.nodeId? →
    y.label = NodeLabel.process.name ∧ x.label ≠ NodeLabel.process.name

namespace Named

variable [StepIds] {U : String → Prop} {vs : List Vertex} {w : Vertex}

theorem nil : Named U [] := ⟨by simp, by simp, by simp⟩

theorem append (h : Named U vs) (hlt : ∀ x ∈ vs, x.id < w.id)
    (hgenerated : w.label = NodeLabel.subProcess.name → w.nodeId? = some (StepIds.nodeId w.id))
    (hused : w.label ≠ NodeLabel.subProcess.name →
      ∃ n, w.nodeId? = some n ∧ w.guid? = some n ∧ U n)
    (hshared : ∀ x ∈ vs, x.nodeId? = w.nodeId? →
      w.label = NodeLabel.process.name ∧ x.label ≠ NodeLabel.process.name) :
    Named U (vs ++ [w]) := by
  refine ⟨fun s hs hlabel => ?_, fun v hv hlabel => ?_, fun x hx y hy hxy heq => ?_⟩
  · rcases List.mem_append.1 hs with hs | hs
    · exact h.generated s hs hlabel
    · obtain rfl := List.mem_singleton.1 hs
      exact hgenerated hlabel
  · rcases List.mem_append.1 hv with hv | hv
    · exact h.used v hv hlabel
    · obtain rfl := List.mem_singleton.1 hv
      exact hused hlabel
  · rcases List.mem_append.1 hx with hx | hx <;> rcases List.mem_append.1 hy with hy | hy
    · exact h.shared x hx y hy hxy heq
    · rw [List.mem_singleton.1 hy] at heq ⊢
      exact hshared x hx heq
    · rw [List.mem_singleton.1 hx] at hxy
      exact absurd (hlt y hy) (Nat.lt_asymm hxy)
    · rw [List.mem_singleton.1 hx, List.mem_singleton.1 hy] at hxy
      exact absurd hxy (Nat.lt_irrefl _)

/-- The node id made for a sub-process is that of no vertex before it. -/
theorem ne_generated (h : Named U vs) (hlt : ∀ x ∈ vs, x.id < w.id)
    (hfresh : ¬ U (StepIds.nodeId w.id)) {x : Vertex} (hx : x ∈ vs) :
    x.nodeId? ≠ some (StepIds.nodeId w.id) := by
  intro heq
  by_cases hlabel : x.label = NodeLabel.subProcess.name
  · rw [h.generated x hx hlabel, Option.some.injEq] at heq
    exact Nat.ne_of_lt (hlt x hx) (StepIds.injective heq)
  · obtain ⟨n, hn, -, hU⟩ := h.used x hx hlabel
    rw [hn, Option.some.injEq] at heq
    exact hfresh (heq ▸ hU)

end Named

/-- A new sub-process goes by a node id of its own, and only its owner may share one. -/
theorem StepWrite.named [StepIds] {U : String → Prop} {P : Item → Prop} {g g' : Graph}
    {f : Fragment} {u v s q : Vertex} {vs : List Vertex} {e₁ e₂ e₃ : Edge}
    (hadded : StepWrite P g g' f u v s q vs e₁ e₂ e₃) (hg' : g'.Coherent) (hf : g'.FreshSteps U)
    (hguid : U f.process.guid) (h : Named U (allVertices g)) : Named U (allVertices g') := by
  obtain ⟨hbefore, hafter⟩ := hadded.id_lt hg'
  have hlt : ∀ x ∈ allVertices g, x.id < s.id := fun x hx => hbefore x hx s List.mem_cons_self
  have hid : s.nodeId? = some (StepIds.nodeId s.id) :=
    nodeId?_of_processProperties hadded.properties_eq
  have hfresh : ¬ U (StepIds.nodeId s.id) := hf s hadded.mem_step hadded.label_eq _ hid
  have hstep : Named U (allVertices g ++ [s]) := by
    refine h.append hlt (fun _ => hid) (fun hne => absurd hadded.label_eq hne) fun x hx heq => ?_
    exact absurd (heq.trans hid) (h.ne_generated hlt hfresh hx)
  have hvs := hadded.vertices_eq
  cases hadded.owner with
  | existing _ _ _ => exact hvs ▸ hstep
  | created _ hqlabel hqps hqnew =>
    have hqid : q.nodeId? = some f.process.guid := nodeId?_of_processProperties hqps
    have hqguid : q.guid? = some f.process.guid := guid?_of_processProperties hqps
    have hne : q.label ≠ NodeLabel.subProcess.name := by simp [hqlabel]
    rw [hvs, List.append_cons]
    refine hstep.append (fun x hx => ?_) (fun heq => absurd heq hne)
      (fun _ => ⟨_, hqid, hqguid, hguid⟩) fun x hx heq => ⟨hqlabel, ?_⟩
    · rcases List.mem_append.1 hx with hx | hx
      · exact hbefore x hx q (by simp)
      · rw [List.mem_singleton.1 hx]
        exact hafter q List.mem_cons_self
    · rw [hqid] at heq
      rcases List.mem_append.1 hx with hx | hx
      · exact fun hxlabel => hqnew x hx hxlabel heq
      · simp [List.mem_singleton.1 hx, hadded.label_eq]

theorem Write.named [StepIds] {U : String → Prop} {g g' : Graph} (hg' : g'.Coherent)
    (hf : g'.FreshSteps U) (hw : Write (Item.Within U) g g') (h : Named U (allVertices g)) :
    Named U (allVertices g') := by
  cases hw with
  | @node label n w hitem hlabel hid hnew hvs hes =>
    have hascending := hg'.vertices_ascending
    rw [hvs, List.pairwise_append] at hascending
    have hlt := fun x hx => hascending.2.2 x hx w List.mem_cons_self
    have hsub := (hitem.shape.resolve_right (by simp)).2
    rw [hvs]
    refine h.append hlt (fun heq => ?_)
      (fun _ => ⟨n, hid, hitem.identity rfl, hitem.guids n (by simp [Item.guids])⟩)
      fun x hx heq => absurd (heq.trans hid) (hnew x hx)
    exact absurd (NodeLabel.name_injective (hlabel.symm.trans heq)) hsub
  | edge _ _ _ _ _ _ _ _ hvs _ => exact hvs ▸ h
  | step hadded =>
    exact hadded.named hg' hf (hadded.item.guids _ (by simp [Item.guids, Fragment.guids])) h

theorem Writes.named [StepIds] {U : String → Prop} {name : String} {g : Graph}
    (hw : Writes (Item.Within U) (.empty name) g) (hf : g.FreshSteps U) :
    Named U (allVertices g) := by
  refine hw.invariant (fun hgrows hf => hgrows.freshSteps hf)
    (fun _ hg' hf hw hinv => hw.named hg'.toCoherent hf hinv) (Graph.wellFormed_empty name) hf ?_
  rw [Graph.allVertices_empty]
  exact .nil

/-- Where no sub-process goes by a guid used in the run, a node id is shared by one process and one
vertex before it that is none, if at all. So node ids are unique exactly when no process has the
node id of another vertex. -/
theorem nodeId_unique_iff [StepIds] (settings : Settings) (ops : List Operation)
    (hfresh : ((Service.initial settings).run ops).graphs.main.FreshSteps
      (· ∈ ops.flatMap Operation.guids)) :
    let g := ((Service.initial settings).run ops).graphs.main
    ((∀ x ∈ allVertices g, ∀ y ∈ allVertices g, x.nodeId? = y.nodeId? → x = y)
      ↔ ∀ q ∈ allVertices g, q.label = NodeLabel.process.name →
        ∀ x ∈ allVertices g, x.nodeId? = q.nodeId? → x.label = NodeLabel.process.name)
    ∧ ∀ x ∈ allVertices g, ∀ y ∈ allVertices g, x.id < y.id → x.nodeId? = y.nodeId? →
      y.label = NodeLabel.process.name ∧ x.label ≠ NodeLabel.process.name := by
  intro g
  have hreg := Service.regular_run (U := (· ∈ ops.flatMap Operation.guids)) ops
    (Service.regular_initial settings) fun op hop n hn => List.mem_flatMap.2 ⟨op, hop, hn⟩
  have hnamed := hreg.writes.named hfresh
  refine ⟨⟨fun hunique q hq hlabel x hx heq => hunique x hx q hq heq ▸ hlabel,
    fun hroles x hx y hy heq => ?_⟩, hnamed.shared⟩
  rcases Nat.lt_trichotomy x.id y.id with hlt | hid | hlt
  · obtain ⟨hy', hx'⟩ := hnamed.shared x hx y hy hlt heq
    exact absurd (hroles y hy hy' x hx heq) hx'
  · exact hreg.main.eq_of_vertex_id hx hy hid
  · obtain ⟨hx', hy'⟩ := hnamed.shared y hy x hx hlt heq.symm
    exact absurd (hroles x hx hx' y hy heq.symm) hy'

theorem nodeId_unique_iff_sampleRun :
    let g := ((Service.initial {}).run sampleRun).graphs.main
    g.FreshSteps (· ∈ sampleRun.flatMap Operation.guids)
    ∧ ((∀ x ∈ allVertices g, ∀ y ∈ allVertices g, x.nodeId? = y.nodeId? → x = y)
      ↔ ∀ q ∈ allVertices g, q.label = NodeLabel.process.name →
        ∀ x ∈ allVertices g, x.nodeId? = q.nodeId? → x.label = NodeLabel.process.name)
    ∧ ∀ x ∈ allVertices g, ∀ y ∈ allVertices g, x.id < y.id → x.nodeId? = y.nodeId? →
      y.label = NodeLabel.process.name ∧ x.label ≠ NodeLabel.process.name := by
  have hfresh : ((Service.initial {}).run sampleRun).graphs.main.FreshSteps
      (· ∈ sampleRun.flatMap Operation.guids) := by decide +kernel
  exact ⟨hfresh, nodeId_unique_iff {} sampleRun hfresh⟩

/-- A column and the process of a later context share a node id where they share a guid. -/
theorem nodeId_shared_sampleRun :
    let g := ((Service.initial {}).run sampleRun).graphs.main
    g.FreshSteps (· ∈ sampleRun.flatMap Operation.guids)
    ∧ ∃ x ∈ allVertices g, ∃ y ∈ allVertices g, x ≠ y ∧ x.nodeId? = some "a"
      ∧ y.nodeId? = some "a" := by
  decide +kernel

end Lineage
