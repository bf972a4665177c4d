import Lineage.Proofs.Identity

/-!
# Where vertices and edges come from

In a graph made by writes from nothing, every vertex and edge comes from an item that was to be
written (`Writes.made`), and no edge was added twice.
-/

namespace Lineage

open Std Consolidation

/-- The item that a vertex was written for. -/
inductive Origin [StepIds] (P : Item → Prop) (g : Graph) (v : Vertex) : Prop
  | node {l : NodeLabel} {n : String} (item : P (.node l n v.properties))
      (label_eq : v.label = l.name) (nodeId_eq : v.nodeId? = some n) : Origin P g v
  | process {p : ProcessRef} (item : P (.process p)) (label_eq : v.label = NodeLabel.process.name)
      (properties_eq : v.properties = processProperties p.guid p) : Origin P g v
  | step {f : Fragment} {u w q : Vertex} (item : P (.step f))
      (label_eq : v.label = NodeLabel.subProcess.name)
      (properties_eq : v.properties = processProperties (StepIds.nodeId v.id) f.process)
      (source_mem : u ∈ allVertices g) (source_id : u.nodeId? = some f.columnIn)
      (target_mem : w ∈ allVertices g) (target_id : w.nodeId? = some f.columnOut)
      (owner_mem : q ∈ allVertices g) (owner_id : q.nodeId? = some f.process.guid)
      (joined_in : g.Joined .columnAndProcess u.id v.id)
      (joined_out : g.Joined .columnAndProcess v.id w.id)
      (joined_up : g.Joined .subprocessToProcess v.id q.id) : Origin P g v

/-- The item that an edge was written for, or the sub-process it was written with. -/
inductive EdgeOrigin (P : Item → Prop) (g : Graph) (e : Edge) : Prop
  | item {l : EdgeLabel} {m n : String} {u v : Vertex} (item : P (.edge l m n))
      (source_mem : u ∈ allVertices g) (source_id : u.nodeId? = some m)
      (target_mem : v ∈ allVertices g) (target_id : v.nodeId? = some n) (runs : e.Runs l u v) :
      EdgeOrigin P g e
  | step {s : Vertex} (mem : s ∈ allVertices g) (label_eq : s.label = NodeLabel.subProcess.name)
      (touches : e.source = s.id ∨ e.target = s.id) : EdgeOrigin P g e

namespace Graph

/-- Two edges say the same: they have one label and the same ends, which for synonyms may be
swapped. -/
def SameEdge (d e : Edge) : Prop :=
  d.label = e.label ∧ (d.source = e.source ∧ d.target = e.target
    ∨ d.label = EdgeLabel.synonym.name ∧ d.source = e.target ∧ d.target = e.source)

structure Made [StepIds] (P : Item → Prop) (g : Graph) : Prop where
  vertex : ∀ v ∈ allVertices g, Origin P g v
  edge : ∀ e ∈ allEdges g, EdgeOrigin P g e
  edge_unique : ∀ d ∈ allEdges g, ∀ e ∈ allEdges g, SameEdge d e → d = e

end Graph

section Made

variable {P : Item → Prop} {g g' : Graph}

theorem Graph.SameEdge.symm {d e : Edge} (h : Graph.SameEdge d e) : Graph.SameEdge e d := by
  obtain ⟨hlabel, ⟨hs, ht⟩ | ⟨hsyn, hs, ht⟩⟩ := h
  · exact ⟨hlabel.symm, .inl ⟨hs.symm, ht.symm⟩⟩
  · exact ⟨hlabel.symm, .inr ⟨hlabel ▸ hsyn, ht.symm, hs.symm⟩⟩

theorem Origin.mono [StepIds] (h : g.Grows g') {v : Vertex} : Origin P g v → Origin P g' v
  | .node hi hl hn => .node hi hl hn
  | .process hi hl hp => .process hi hl hp
  | .step hi hl hp hu hun hw hwn hq hqn hin hout hup =>
    .step hi hl hp (h.mem_vertices hu) hun (h.mem_vertices hw) hwn (h.mem_vertices hq) hqn
      (h.joined hin) (h.joined hout) (h.joined hup)

theorem EdgeOrigin.mono (h : g.Grows g') {e : Edge} : EdgeOrigin P g e → EdgeOrigin P g' e
  | .item hi hu hm hv hn hruns => .item hi (h.mem_vertices hu) hm (h.mem_vertices hv) hn hruns
  | .step hs hl ht => .step (h.mem_vertices hs) hl ht

variable [StepIds]

theorem Graph.made_empty (name : String) : (Graph.empty name).Made P where
  vertex v hv := by simp at hv
  edge e he := by simp at he
  edge_unique d hd := by simp at hd

/-- New vertices and edges with origins keep a graph made, where no new edge says what another
does. -/
theorem Graph.Made.append (h : g.Made P) (hgrows : g.Grows g') {vs : List Vertex} {es : List Edge}
    (hvs : allVertices g' = allVertices g ++ vs) (hes : allEdges g' = allEdges g ++ es)
    (hvertex : ∀ v ∈ vs, Origin P g' v) (hedge : ∀ e ∈ es, EdgeOrigin P g' e)
    (hold : ∀ d ∈ allEdges g, ∀ e ∈ es, ¬ SameEdge d e)
    (hnew : ∀ d ∈ es, ∀ e ∈ es, SameEdge d e → d = e) : g'.Made P := by
  refine ⟨fun v hv => ?_, fun e he => ?_, fun d hd e he hsame => ?_⟩
  · rw [hvs] at hv
    rcases List.mem_append.1 hv with hv | hv
    · exact (h.vertex v hv).mono hgrows
    · exact hvertex v hv
  · rw [hes] at he
    rcases List.mem_append.1 he with he | he
    · exact (h.edge e he).mono hgrows
    · exact hedge e he
  · rw [hes] at hd he
    rcases List.mem_append.1 hd with hd | hd <;> rcases List.mem_append.1 he with he | he
    · exact h.edge_unique d hd e he hsame
    · exact absurd hsame (hold d hd e he)
    · exact absurd hsame.symm (hold e he d hd)
    · exact hnew d hd e he hsame

section Step

variable {f : Fragment} {u v s q : Vertex} {vs : List Vertex} {d e e₁ e₂ e₃ : Edge}

/-- The edges of a new sub-process say nothing that an edge before it does. -/
theorem StepWrite.not_sameEdge (h : StepWrite P g g' f u v s q vs e₁ e₂ e₃) (hg : g.WellFormed)
    (hg' : g'.Coherent) (hd : d ∈ allEdges g) (he : e ∈ [e₁, e₂, e₃]) :
    ¬ Graph.SameEdge d e := by
  intro hsame
  obtain ⟨a, ha, has⟩ := hg.exists_source hd
  obtain ⟨b, hb, hbt⟩ := hg.exists_target hd
  have hds : d.source ≠ s.id := has ▸ h.id_ne hg' ha
  have hdt : d.target ≠ s.id := hbt ▸ h.id_ne hg' hb
  obtain ⟨-, ⟨h₁, h₂⟩ | ⟨-, h₁, h₂⟩⟩ := hsame <;> rcases h.touches he with he | he
  · exact hds (h₁.trans he)
  · exact hdt (h₂.trans he)
  · exact hdt (h₂.trans he)
  · exact hds (h₁.trans he)

/-- Nor does one of them say what another does. -/
theorem StepWrite.eq_of_sameEdge (h : StepWrite P g g' f u v s q vs e₁ e₂ e₃) (hg : g.WellFormed)
    (hg' : g'.Coherent) (hd : d ∈ [e₁, e₂, e₃]) (he : e ∈ [e₁, e₂, e₃])
    (hsame : Graph.SameEdge d e) : d = e := by
  have hcolumn : ∀ {a b : Edge}, a.label = EdgeLabel.columnAndProcess.name →
      Graph.SameEdge a b → b.label = EdgeLabel.columnAndProcess.name ∧ a.source = b.source := by
    rintro a b ha ⟨hl, ⟨hs, -⟩ | ⟨hsyn, -⟩⟩
    · exact ⟨hl ▸ ha, hs⟩
    · simp [ha] at hsyn
  have hups : e₃.label ≠ EdgeLabel.columnAndProcess.name := by simp [h.runs_up.1]
  have hsource : e₁.source ≠ e₂.source := by
    rw [h.runs_in.2.1, h.runs_out.2.1]
    exact h.id_ne hg' (hg.mem_of_vertexWith? h.source_eq).1
  simp only [List.mem_cons, List.not_mem_nil, or_false] at hd he
  rcases hd with rfl | rfl | rfl <;> rcases he with rfl | rfl | rfl
  · rfl
  · exact absurd (hcolumn h.runs_in.1 hsame).2 hsource
  · exact absurd (hcolumn h.runs_in.1 hsame).1 hups
  · exact absurd (hcolumn h.runs_out.1 hsame).2 hsource.symm
  · rfl
  · exact absurd (hcolumn h.runs_out.1 hsame).1 hups
  · exact absurd (hcolumn h.runs_in.1 hsame.symm).1 hups
  · exact absurd (hcolumn h.runs_out.1 hsame.symm).1 hups
  · rfl

theorem StepWrite.origin (h : StepWrite P g g' f u v s q vs e₁ e₂ e₃) (hg : g.WellFormed)
    {w : Vertex} (hw : w ∈ s :: vs) : Origin P g' w := by
  have hmem : ∀ {a}, a ∈ allVertices g → a ∈ allVertices g' := fun ha =>
    h.vertices_eq ▸ List.mem_append_left _ ha
  obtain ⟨hu, hun⟩ := hg.mem_of_vertexWith? h.source_eq
  obtain ⟨hv, hvn⟩ := hg.mem_of_vertexWith? h.target_eq
  rcases List.mem_cons.1 hw with rfl | hw
  · exact .step h.item h.label_eq h.properties_eq (hmem hu) hun (hmem hv) hvn h.mem_owner
      h.owner.nodeId_eq h.joined_in h.joined_out h.joined_up
  · cases h.owner with
    | existing _ _ _ => cases hw
    | created hp hqlabel hqps _ =>
      rw [List.mem_singleton.1 hw]
      exact .process hp hqlabel hqps

end Step

theorem Write.made (hg : g.WellFormed) (hg' : g'.WellFormed) (hw : Write P g g') (h : g.Made P) :
    g'.Made P := by
  have hgrows := hw.grows
  cases hw with
  | @node l n w hitem hlabel hid hnew hvs hes =>
    have hes' : allEdges g' = allEdges g ++ [] := by simpa using hes
    refine h.append hgrows hvs hes' (fun v hv => ?_) (by simp) (by simp) (by simp)
    rw [List.mem_singleton.1 hv]
    exact .node hitem hlabel hid
  | @edge l m n u v e hitem hu hm hv hn hnew hback hruns hvs hes =>
    have hvs' : allVertices g' = allVertices g ++ [] := by simpa using hvs
    refine h.append hgrows hvs' hes (by simp) (fun d hd => ?_) (fun d hd e' he' hsame => ?_) ?_
    · rw [List.mem_singleton.1 hd]
      exact .item hitem (hgrows.mem_vertices hu) hm (hgrows.mem_vertices hv) hn hruns
    · rw [List.mem_singleton.1 he'] at hsame
      obtain ⟨hlabel, ⟨hs, ht⟩ | ⟨hsyn, hs, ht⟩⟩ := hsame
      · exact hnew ⟨d, hd, hs.trans hruns.2.1, hlabel.trans hruns.1, ht.trans hruns.2.2⟩
      · have hl : l = .synonym :=
          EdgeLabel.name_injective (hruns.1.symm.trans (hlabel.symm.trans hsyn))
        exact hback hl ⟨d, hd, hs.trans hruns.2.2, hlabel.trans hruns.1, ht.trans hruns.2.1⟩
    · intro d hd e' he' _
      rw [List.mem_singleton.1 hd, List.mem_singleton.1 he']
  | step hadded =>
    have hc := hg'.toCoherent
    exact h.append hgrows hadded.vertices_eq hadded.edges_eq (fun w hw => hadded.origin hg hw)
      (fun e he => .step hadded.mem_step hadded.label_eq (hadded.touches he))
      (fun d hd e he => hadded.not_sameEdge hg hc hd he)
      fun d hd e he hsame => hadded.eq_of_sameEdge hg hc hd he hsame

theorem Writes.made {name : String} (hw : Writes P (.empty name) g) : g.Made P :=
  hw.invariant (fun _ _ => trivial)
    (fun hg hg' _ hw h => hw.made hg hg' h) (Graph.wellFormed_empty name) trivial
    (Graph.made_empty name)

/-- No two edges have one label and the same ends. -/
theorem Graph.Made.edges_nodup (h : g.Made P) (hg : g.Coherent) :
    ((allEdges g).map fun e => (e.label, e.source, e.target)).Nodup := by
  refine List.Nodup.map_on (fun d hd e he heq => ?_) hg.edges_nodup
  simp only [Prod.mk.injEq] at heq
  exact h.edge_unique d hd e he ⟨heq.1, .inl heq.2⟩

theorem Graph.Made.synonym_oneWay (h : g.Made P) {i j : VertexId} (hij : g.Joined .synonym i j)
    (hji : g.Joined .synonym j i) : i = j := by
  obtain ⟨d, hd, hds, hdl, hdt⟩ := hij
  obtain ⟨e, he, hes, hel, het⟩ := hji
  have hde : d = e := h.edge_unique d hd e he
    ⟨hdl.trans hel.symm, .inr ⟨hdl, hds.trans het.symm, hdt.trans hes.symm⟩⟩
  rw [← hds, hde, hes]

end Made

/-- Whatever is asked of a service on empty graphs, no edge of its main graph is doubled: not with
the same ends, and of a synonym not the other way round either. -/
theorem Service.edges_nodup_run [StepIds] (settings : Settings) (ops : List Operation) :
    let main := ((initial settings).run ops).graphs.main
    ((allEdges main).map fun e => (e.label, e.source, e.target)).Nodup
      ∧ ∀ u ∈ allVertices main, ∀ v ∈ allVertices main, u ≠ v →
        ¬ (main.Joined .synonym u.id v.id ∧ main.Joined .synonym v.id u.id) := by
  intro main
  have hreg := regular_run (U := fun _ => True) ops (regular_initial settings)
    fun _ _ _ _ => trivial
  have hmade : main.Made (Item.Within fun _ => True) := hreg.writes.made
  refine ⟨hmade.edges_nodup hreg.main.toCoherent, fun u hu v hv hne hboth => hne ?_⟩
  exact hreg.main.eq_of_vertex_id hu hv (hmade.synonym_oneWay hboth.1 hboth.2)

end Lineage
