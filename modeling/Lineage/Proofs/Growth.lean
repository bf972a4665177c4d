import Lineage.Consolidation
import Lineage.Proofs.Overlay
import Mathlib.Logic.Relation

/-!
# Growing graphs

Consolidation never takes anything back: a graph grows by vertices and edges behind those it has
(`Graph.Grows`), so the first vertex with a node id stays the first (`Grows.vertexWith?`), and two
columns once linked through a sub-process stay linked (`Grows.linked`).
-/

namespace Lineage

open Std

namespace Graph

variable {g g' : Graph}

/-! ## One vertex or edge more -/

theorem Coherent.allVertices_addVertex (h : g.Coherent) (label : String) (ps : Properties) :
    allVertices (g.addVertex label ps) = allVertices g ++ [⟨g.nextVertex, label, ps⟩] :=
  h.allVertices_insertVertex (Nat.le_refl _)

theorem allEdges_addVertex (g : Graph) (label : String) (ps : Properties) :
    allEdges (g.addVertex label ps) = allEdges g := rfl

theorem allVertices_addEdge (g : Graph) (label : String) (u v : VertexId) (ps : Properties) :
    allVertices (g.addEdge label u v ps) = allVertices g := rfl

theorem Coherent.allEdges_addEdge (h : g.Coherent) (label : String) (u v : VertexId)
    (ps : Properties) :
    allEdges (g.addEdge label u v ps) = allEdges g ++ [⟨g.nextEdge, label, u, v, ps⟩] :=
  h.allEdges_attach (Nat.le_refl _)

theorem WellFormed.addVertex (h : g.WellFormed) (label : String) (ps : Properties) :
    (g.addVertex label ps).WellFormed where
  toCoherent := h.insertVertex _
  closed e he := by
    obtain ⟨⟨u, hu, hus⟩, ⟨v, hv, hvt⟩⟩ := h.closed e he
    rw [h.allVertices_addVertex]
    exact ⟨⟨u, List.mem_append_left _ hu, hus⟩, ⟨v, List.mem_append_left _ hv, hvt⟩⟩

theorem WellFormed.addEdge (h : g.WellFormed) {u v : Vertex} (hu : u ∈ allVertices g)
    (hv : v ∈ allVertices g) (label : String) (ps : Properties) :
    (g.addEdge label u.id v.id ps).WellFormed where
  toCoherent := h.attach (Nat.le_refl _)
  closed e he := by
    rw [h.allEdges_addEdge] at he
    rcases List.mem_append.1 he with he | he
    · exact h.closed e he
    · rw [List.mem_singleton.1 he]
      exact ⟨⟨u, hu, rfl⟩, ⟨v, hv, rfl⟩⟩

/-! ## Looking up by a property -/

theorem Coherent.mem_of_vertexWith? (h : g.Coherent) {key value : String} {v : Vertex}
    (hv : vertexWith? g key value = some v) :
    v ∈ allVertices g ∧ v.property? key = some value := by
  rw [h.vertexWith?_eq] at hv
  exact ⟨List.mem_of_find?_eq_some hv, by simpa using List.find?_some hv⟩

theorem Coherent.vertexWith?_eq_none_iff (h : g.Coherent) {key value : String} :
    vertexWith? g key value = none ↔ ∀ v ∈ allVertices g, v.property? key ≠ some value :=
  h.filed.vertexWith?_eq_none_iff

theorem Coherent.exists_vertexWith? (h : g.Coherent) {key value : String} {v : Vertex}
    (hv : v ∈ allVertices g) (hk : v.property? key = some value) :
    ∃ u, vertexWith? g key value = some u := by
  rcases hu : vertexWith? g key value with _ | u
  · exact absurd hk (h.vertexWith?_eq_none_iff.1 hu v hv)
  · exact ⟨u, rfl⟩

/-- A vertex put behind the others is found where none was before. -/
theorem Coherent.vertexWith?_addVertex (h : g.Coherent) {key value : String} {label : String}
    {ps : Properties} (hnone : vertexWith? g key value = none) (hk : ps[key]? = some value) :
    vertexWith? (g.addVertex label ps) key value = some ⟨g.nextVertex, label, ps⟩ := by
  have h' : (g.addVertex label ps).Coherent := h.insertVertex _
  rw [h.vertexWith?_eq] at hnone
  rw [h'.vertexWith?_eq, h.allVertices_addVertex, List.find?_append, hnone]
  simp [Vertex.property?, hk]

/-! ## Edges between vertices -/

def Joined (g : Graph) (label : EdgeLabel) (source target : VertexId) : Prop :=
  ∃ e ∈ allEdges g, e.source = source ∧ e.label = label.name ∧ e.target = target

instance {g : Graph} {label : EdgeLabel} {source target : VertexId} :
    Decidable (g.Joined label source target) :=
  inferInstanceAs (Decidable (∃ e ∈ allEdges g, _))

theorem Coherent.hasEdge_iff_joined (h : g.Coherent) {label : EdgeLabel}
    {source target : VertexId} :
    hasEdge g source label.name target = true ↔ g.Joined label source target :=
  h.hasEdge_iff

/-- One vertex feeds another through a sub-process of a process. -/
def Linked (g : Graph) (source target : VertexId) (processGuid : String) : Prop :=
  ∃ s ∈ allVertices g, s.label = NodeLabel.subProcess.name ∧ s.guid? = some processGuid
    ∧ g.Joined .columnAndProcess source s.id ∧ g.Joined .columnAndProcess s.id target

/-- A fragment is in a graph: its columns, as they are looked up, are linked. -/
def Present (g : Graph) (columnIn columnOut processGuid : String) : Prop :=
  ∃ u v, vertexWith? g Key.nodeId columnIn = some u ∧ vertexWith? g Key.nodeId columnOut = some v
    ∧ g.Linked u.id v.id processGuid

/-! ## Growth -/

structure Grows (g g' : Graph) : Prop where
  vertices : allVertices g <+: allVertices g'
  edges : allEdges g <+: allEdges g'

namespace Grows

theorem refl (g : Graph) : Grows g g := ⟨List.prefix_rfl, List.prefix_rfl⟩

theorem trans {g'' : Graph} (h : Grows g g') (h' : Grows g' g'') : Grows g g'' :=
  ⟨h.vertices.trans h'.vertices, h.edges.trans h'.edges⟩

theorem mem_vertices (h : Grows g g') {v : Vertex} (hv : v ∈ allVertices g) :
    v ∈ allVertices g' :=
  h.vertices.subset hv

theorem mem_edges (h : Grows g g') {e : Edge} (he : e ∈ allEdges g) : e ∈ allEdges g' :=
  h.edges.subset he

theorem vertexWith? (h : Grows g g') (hg : g.Coherent) (hg' : g'.Coherent) {key value : String}
    {v : Vertex} (hv : Lineage.vertexWith? g key value = some v) :
    Lineage.vertexWith? g' key value = some v := by
  obtain ⟨vs, hvs⟩ := h.vertices
  rw [hg.vertexWith?_eq] at hv
  rw [hg'.vertexWith?_eq, ← hvs, List.find?_append, hv]
  rfl

/-- A vertex from before that is found now was found before. -/
theorem vertexWith?_of_mem (h : Grows g g') (hg : g.Coherent) (hg' : g'.Coherent)
    {key value : String} {v : Vertex} (hv : v ∈ allVertices g)
    (hfound : Lineage.vertexWith? g' key value = some v) :
    Lineage.vertexWith? g key value = some v := by
  obtain ⟨w, hw⟩ := hg.exists_vertexWith? hv (hg'.mem_of_vertexWith? hfound).2
  rw [hw, ← hfound]
  exact (h.vertexWith? hg hg' hw).symm

theorem joined (h : Grows g g') {label : EdgeLabel} {source target : VertexId}
    (hj : g.Joined label source target) : g'.Joined label source target := by
  obtain ⟨e, he, hst⟩ := hj
  exact ⟨e, h.mem_edges he, hst⟩

theorem linked (h : Grows g g') {source target : VertexId} {processGuid : String}
    (hl : g.Linked source target processGuid) : g'.Linked source target processGuid := by
  obtain ⟨s, hs, hlabel, hguid, hin, hout⟩ := hl
  exact ⟨s, h.mem_vertices hs, hlabel, hguid, h.joined hin, h.joined hout⟩

theorem present (h : Grows g g') (hg : g.Coherent) (hg' : g'.Coherent)
    {columnIn columnOut processGuid : String} (hp : g.Present columnIn columnOut processGuid) :
    g'.Present columnIn columnOut processGuid := by
  obtain ⟨u, v, hu, hv, hl⟩ := hp
  exact ⟨u, v, h.vertexWith? hg hg' hu, h.vertexWith? hg hg' hv, h.linked hl⟩

theorem addVertex (h : g.Coherent) (label : String) (ps : Properties) :
    Grows g (g.addVertex label ps) where
  vertices := by
    rw [h.allVertices_addVertex]
    exact List.prefix_append _ _
  edges := List.prefix_rfl

theorem addEdge (h : g.Coherent) (label : String) (u v : VertexId) (ps : Properties) :
    Grows g (g.addEdge label u v ps) where
  vertices := List.prefix_rfl
  edges := by
    rw [h.allEdges_addEdge]
    exact List.prefix_append _ _

end Grows

end Graph

end Lineage
