import Lineage.Proofs.Distinct

/-!
# Numbering does not show

A store numbers vertices and edges as they are inserted, and it searches in the order of these
numbers. Two graphs that differ in nothing but their numbers (`Graph.Renumbered`) look the same by
response ids (`Renumbered.seen_joined`), so where node ids tell the vertices apart every query is
answered alike, be it with an answer or with an error (`answer_eq_of_renumbered`).
-/

namespace Lineage

open Std Query

/-- A vertex under another number. -/
def Vertex.renumber (φ : VertexId → VertexId) (v : Vertex) : Vertex := { v with id := φ v.id }

namespace Graph

/-- Every vertex has a node id, and no two have the same. -/
structure Named (g : Graph) : Prop where
  isSome_nodeId : ∀ v ∈ allVertices g, v.nodeId?.isSome
  nodeIds_nodup : ((allVertices g).map Vertex.nodeId?).Nodup

/-- Two graphs have the same vertices and edges under different numbers: the vertices correspond
with their labels and properties, the edges with their labels and ends. -/
structure Renumbered (φ : VertexId → VertexId) (g g' : Graph) : Prop where
  vertices : ((allVertices g).map (Vertex.renumber φ)).Perm (allVertices g')
  edges : ((allEdges g).map fun e => (e.label, φ e.source, φ e.target)).Perm
    ((allEdges g').map fun e => (e.label, e.source, e.target))

namespace Named

variable {g : Graph} {u v : Vertex} {text : String}

theorem nodeId?_eq (h : g.Named) (hv : v ∈ allVertices g) : v.nodeId? = some v.responseId := by
  obtain ⟨n, hn⟩ := Option.isSome_iff_exists.1 (h.isSome_nodeId v hv)
  rw [Vertex.responseId, hn]
  rfl

theorem eq_of_nodeId? (h : g.Named) (hu : u ∈ allVertices g) (hv : v ∈ allVertices g)
    (heq : u.nodeId? = v.nodeId?) : u = v :=
  List.inj_on_of_nodup_map h.nodeIds_nodup hu hv heq

theorem distinct (h : g.Named) : g.Distinct := fun u hu v hv heq =>
  h.eq_of_nodeId? hu hv (by rw [h.nodeId?_eq hu, h.nodeId?_eq hv, heq])

theorem findNode?_of_nodeId? (h : g.Named) (hg : g.Coherent) (hv : v ∈ allVertices g)
    (ht : v.nodeId? = some text) : findNode? g text = some v := by
  obtain ⟨u, hu⟩ := hg.exists_vertexWith? hv ht
  obtain ⟨humem, hut⟩ := hg.mem_of_vertexWith? hu
  obtain rfl := h.eq_of_nodeId? humem hv (hut.trans ht.symm)
  rw [findNode?, hu, Option.some_or]

end Named

namespace Renumbered

variable {φ : VertexId → VertexId} {g g' : Graph} {u v : Vertex} {label : EdgeLabel}

theorem mem_renumber (h : Renumbered φ g g') (hv : v ∈ allVertices g) :
    v.renumber φ ∈ allVertices g' :=
  h.vertices.mem_iff.1 (List.mem_map_of_mem hv)

theorem exists_renumber (h : Renumbered φ g g') (hv : v ∈ allVertices g') :
    ∃ u ∈ allVertices g, u.renumber φ = v :=
  List.mem_map.1 (h.vertices.mem_iff.2 hv)

theorem named (h : Renumbered φ g g') (hg : g.Named) : g'.Named where
  isSome_nodeId v hv := by
    obtain ⟨u, hu, rfl⟩ := h.exists_renumber hv
    exact hg.isSome_nodeId u hu
  nodeIds_nodup := by
    refine ((h.vertices.map Vertex.nodeId?).nodup_iff).1 ?_
    rw [List.map_map]
    exact hg.nodeIds_nodup

theorem exists_edge (h : Renumbered φ g g') {e : Edge} (he : e ∈ allEdges g) :
    ∃ f ∈ allEdges g', f.label = e.label ∧ f.source = φ e.source ∧ f.target = φ e.target := by
  obtain ⟨f, hf, heq⟩ := List.mem_map.1 (h.edges.mem_iff.1 (List.mem_map_of_mem he))
  simp only [Prod.mk.injEq] at heq
  exact ⟨f, hf, heq⟩

theorem exists_edge_of_mem (h : Renumbered φ g g') {f : Edge} (hf : f ∈ allEdges g') :
    ∃ e ∈ allEdges g, f.label = e.label ∧ f.source = φ e.source ∧ f.target = φ e.target := by
  obtain ⟨e, he, heq⟩ := List.mem_map.1 (h.edges.mem_iff.2 (List.mem_map_of_mem hf))
  simp only [Prod.mk.injEq] at heq
  exact ⟨e, he, heq.1.symm, heq.2.1.symm, heq.2.2.symm⟩

theorem responseId_renumber (hnamed : g.Named) (hv : v ∈ allVertices g) :
    (v.renumber φ).responseId = v.responseId := by
  have hnode : (v.renumber φ).nodeId? = some v.responseId := hnamed.nodeId?_eq hv
  rw [Vertex.responseId, hnode]
  rfl

/-- What is read under the new number of a vertex is that vertex. -/
theorem responseId_eq (h : Renumbered φ g g') (hg' : g'.Coherent) (hnamed : g.Named)
    (hu : u ∈ allVertices g) (hv : v ∈ allVertices g') (hid : v.id = φ u.id) :
    u.responseId = v.responseId := by
  rw [← responseId_renumber hnamed hu, hg'.eq_of_vertex_id (h.mem_renumber hu) hv hid.symm]

/-- Edges run between the same response ids. -/
theorem seen_joined (h : Renumbered φ g g') (hg : g.WellFormed) (hg' : g'.WellFormed)
    (hnamed : g.Named) (label : EdgeLabel) :
    g.Seen (g.Joined label) = g'.Seen (g'.Joined label) := by
  funext a b
  refine propext ⟨?_, ?_⟩
  · rintro ⟨u, hu, v, hv, ⟨e, he, hsource, hlabel, htarget⟩, rfl, rfl⟩
    obtain ⟨f, hf, hfl, hfs, hft⟩ := h.exists_edge he
    refine ⟨u.renumber φ, h.mem_renumber hu, v.renumber φ, h.mem_renumber hv,
      ⟨f, hf, ?_, hfl.trans hlabel, ?_⟩, responseId_renumber hnamed hu,
      responseId_renumber hnamed hv⟩
    · rw [hfs, hsource]
      rfl
    · rw [hft, htarget]
      rfl
  · rintro ⟨u', hu', v', hv', ⟨f, hf, hsource, hlabel, htarget⟩, rfl, rfl⟩
    obtain ⟨e, he, hfl, hfs, hft⟩ := h.exists_edge_of_mem hf
    obtain ⟨u, hu, hus⟩ := hg.exists_source he
    obtain ⟨v, hv, hvt⟩ := hg.exists_target he
    refine ⟨u, hu, v, hv, ⟨e, he, hus.symm, hfl.symm.trans hlabel, hvt.symm⟩, ?_, ?_⟩
    · exact h.responseId_eq hg'.toCoherent hnamed hu hu' (by rw [← hsource, hfs, hus])
    · exact h.responseId_eq hg'.toCoherent hnamed hv hv' (by rw [← htarget, hft, hvt])

theorem twins (h : Renumbered φ g g') (hg : g.WellFormed) (hg' : g'.WellFormed)
    (hnamed : g.Named) (hv : v ∈ allVertices g) : g.Twins g' v (v.renumber φ) where
  wellFormed := hg
  wellFormed' := hg'
  distinct := hnamed.distinct
  distinct' := (h.named hnamed).distinct
  seen := h.seen_joined hg hg' hnamed
  mem := hv
  mem' := h.mem_renumber hv
  responseId_eq := (responseId_renumber hnamed hv).symm

/-- A vertex is shown alike under either number. -/
theorem abstract_eq (h : Renumbered φ g g') (hnamed : g.Named) (w : Whitelist)
    (hu : u ∈ allVertices g) (hv : v ∈ allVertices g') (heq : u.responseId = v.responseId) :
    u.abstract w = v.abstract w := by
  obtain ⟨u', hu', rfl⟩ := h.exists_renumber hv
  have hid := responseId_renumber (φ := φ) hnamed hu'
  obtain rfl := hnamed.distinct hu hu' (heq.trans hid)
  rw [Vertex.abstract, Vertex.abstract, hid]
  rfl

end Renumbered

end Graph

/-- Whatever the histories of two graphs, one with the vertices and the edges of the other under
different numbers answers every query as the other does. -/
theorem answer_eq_of_renumbered (name name' : String) (history history' : List Episode)
    (φ : VertexId → VertexId) (w : Whitelist) (graph : GraphName) (scope : Scope) (view : View)
    (text : String)
    (h : Graph.Renumbered φ ((Graph.empty name).after history)
      ((Graph.empty name').after history'))
    (hnamed : ((Graph.empty name).after history).Named)
    (htext : (∃ v ∈ allVertices ((Graph.empty name).after history), v.nodeId? = some text)
      ∨ ∀ v ∈ allVertices ((Graph.empty name).after history),
        v.nodeId? ≠ some text ∧ v.guid? ≠ some text) :
    answer ((Graph.empty name).after history) w graph scope view text
      = answer ((Graph.empty name').after history') w graph scope view text := by
  have hg := wellFormed_after_empty name history
  have hg' := wellFormed_after_empty name' history'
  rcases htext with ⟨q, hq, ht⟩ | hnone
  · exact answer_congr (h.twins hg hg' hnamed hq)
      (hnamed.findNode?_of_nodeId? hg.toCoherent hq ht)
      ((h.named hnamed).findNode?_of_nodeId? hg'.toCoherent (h.mem_renumber hq) ht)
      fun u hu v hv heq => h.abstract_eq hnamed w hu hv heq
  · have hnone' : ∀ v ∈ allVertices ((Graph.empty name').after history'),
        v.nodeId? ≠ some text ∧ v.guid? ≠ some text := by
      intro v hv
      obtain ⟨u, hu, rfl⟩ := h.exists_renumber hv
      exact hnone u hu
    rw [answer, answer, hg.filed.findNode?_eq_none_iff.2 hnone,
      hg'.filed.findNode?_eq_none_iff.2 hnone']

/-- The same fork, its vertices and edges inserted the other way round. -/
def reversedFork : List Episode :=
  [⟨(["d", "c", "b", "a"].map fun n => .addVertex "Column" (ExtTreeMap.ofList [(Key.nodeId, n)]))
    ++ ([(1, 0), (2, 1), (3, 1)].map fun (s, t) => .addEdge "ColumnAndProcess" s t ∅), .commit⟩]

theorem answer_eq_of_renumbered_sampleFork :
    let g := (Graph.empty "main").after sampleFork
    let g' := (Graph.empty "other").after reversedFork
    g.Renumbered (fun i => 3 - i) g' ∧ g.Named
    ∧ (∃ v ∈ allVertices g, v.nodeId? = some "c")
    ∧ ∀ scope view, answer g .standard .main scope view "c" = answer g' .standard .main scope view
      "c" := by
  intro g g'
  have h : g.Renumbered (fun i => 3 - i) g' := ⟨by decide +kernel, by decide +kernel⟩
  have hnamed : g.Named := ⟨by decide +kernel, by decide +kernel⟩
  have htext : ∃ v ∈ allVertices g, v.nodeId? = some "c" := by decide +kernel
  exact ⟨h, hnamed, htext, fun scope view => answer_eq_of_renumbered "main" "other" sampleFork
    reversedFork (fun i => 3 - i) .standard .main scope view "c" h hnamed (.inl htext)⟩

end Lineage
