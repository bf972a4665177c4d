import Lineage.Graph.Read
import Lineage.Proofs.Index

/-!
# Coherent graphs

In a coherent graph the indexes say what the vertices and edges say, so every look-up is the scan it
stands for (`verticesWith_eq`, `incident_outward`, `incident_inward`, `hasEdge_iff`), and two lists,
the vertices and the edges by id, tell all there is to read. Inserting a vertex and attaching an
edge under a new id keep a graph coherent.
-/

namespace Lineage

open Std

theorem vertex?_of_requireVertex {γ : Type} [Readable γ] {g : γ} {id : VertexId} {v : Vertex}
    (h : requireVertex g id = .ok v) : vertex? g id = some v := by
  unfold requireVertex at h
  split at h
  · next u hu => rw [hu, Except.ok.inj h]
  · cases h

namespace Graph

/-- Vertices are under their own ids, and the property index holds what they hold. -/
structure Filed (g : Graph) : Prop where
  vertex_id : ∀ {i : VertexId} {v}, g.vertices[i]? = some v → v.id = i
  holders : ∀ key value (i : VertexId), i ∈ g.index.holders key value
    ↔ ∃ v, g.vertices[i]? = some v ∧ v.properties[key]? = some value

namespace Filed

variable {g : Graph}

theorem mem_allVertices (h : g.Filed) {v : Vertex} :
    v ∈ allVertices g ↔ vertex? g v.id = some v := by
  show v ∈ g.vertices.values ↔ g.vertices[v.id]? = some v
  rw [mem_values]
  refine ⟨fun ⟨i, hi⟩ => ?_, fun hv => ⟨v.id, hv⟩⟩
  rw [h.vertex_id hi]
  exact hi

theorem vertex?_eq_some_iff (h : g.Filed) {i : VertexId} {v : Vertex} :
    vertex? g i = some v ↔ v ∈ allVertices g ∧ v.id = i := by
  rw [h.mem_allVertices]
  constructor
  · intro hv
    have hid : v.id = i := h.vertex_id hv
    exact ⟨by rw [hid]; exact hv, hid⟩
  · rintro ⟨hv, rfl⟩
    exact hv

theorem vertices_ascending (h : g.Filed) : (allVertices g).Pairwise fun u v => u.id < v.id :=
  values_ascending fun _ _ hv => h.vertex_id hv

/-- The index finds what a scan of all vertices finds. -/
theorem verticesWith_eq (h : g.Filed) (key value : String) :
    Readable.verticesWith g key value
      = (allVertices g).filter fun v => v.property? key == some value := by
  have hmem : ∀ v, v ∈ g.verticesWith key value
      ↔ v ∈ allVertices g ∧ v.property? key = some value := by
    intro v
    simp only [Graph.verticesWith, List.mem_filterMap, ExtTreeSet.mem_toList, h.holders]
    constructor
    · rintro ⟨i, ⟨u, hu, hk⟩, hv⟩
      obtain rfl : u = v := Option.some.inj (hu.symm.trans hv)
      exact ⟨(h.vertex?_eq_some_iff.1 hv).1, hk⟩
    · rintro ⟨hv, hk⟩
      have hv := h.mem_allVertices.1 hv
      exact ⟨v.id, ⟨v, hv, hk⟩, hv⟩
  refine eq_of_ascending Vertex.id ?_ (h.vertices_ascending.filter _) fun v => ?_
  · have hids : (g.index.holders key value).toList.Pairwise fun i j => i < j :=
      ExtTreeSet.ordered_toList.imp fun hij => Nat.compare_eq_lt.1 hij
    refine List.pairwise_filterMap.2 (hids.imp fun {i j} hij u hu v hv => ?_)
    rw [h.vertex_id hu, h.vertex_id hv]
    exact hij
  · rw [List.mem_filter, beq_iff_eq]
    exact hmem v

theorem vertexWith?_eq (h : g.Filed) (key value : String) :
    vertexWith? g key value = (allVertices g).find? fun v => v.property? key == some value := by
  rw [vertexWith?, h.verticesWith_eq, List.head?_filter]

theorem vertexWith?_eq_none_iff (h : g.Filed) {key value : String} :
    vertexWith? g key value = none ↔ ∀ v ∈ allVertices g, v.property? key ≠ some value := by
  rw [h.vertexWith?_eq, List.find?_eq_none]
  simp only [beq_iff_eq]

theorem insertVertex (h : g.Filed) (v : Vertex) : (g.insertVertex v).Filed where
  vertex_id {i u} hu := by
    simp only [Graph.insertVertex, ExtTreeMap.getElem?_insert, Nat.compare_eq_eq] at hu
    split_ifs at hu with hi
    · rw [← Option.some.inj hu, hi]
    · exact h.vertex_id hu
  holders key value i := by
    simp only [Graph.insertVertex, PropertyIndex.mem_holders_add, ExtTreeMap.getElem?_insert,
      Nat.compare_eq_eq]
    rcases hold : g.vertices[v.id]? with _ | old
    · simp only [h.holders]
      split_ifs with hi
      · subst hi
        simp [hold]
      · simp [Ne.symm hi]
    · simp only [PropertyIndex.mem_holders_remove, h.holders, h.vertex_id hold]
      split_ifs with hi
      · subst hi
        simp [hold]
      · simp [Ne.symm hi]

end Filed

/-- The indexes agree with the vertices and edges, and the counters are above every id. -/
structure Coherent (g : Graph) : Prop where
  vertex_id : ∀ {i : VertexId} {v}, g.vertices[i]? = some v → v.id = i
  vertex_lt : ∀ {i : VertexId} {v}, g.vertices[i]? = some v → i < g.nextVertex
  edge_id : ∀ {i : EdgeId} {e}, g.edges[i]? = some e → e.id = i
  edge_lt : ∀ {i : EdgeId} {e}, g.edges[i]? = some e → i < g.nextEdge
  occupied : g.index.Occupied
  holders : ∀ key value (i : VertexId), i ∈ g.index.holders key value
    ↔ ∃ v, g.vertices[i]? = some v ∧ v.properties[key]? = some value
  leaving : ∀ x : VertexId, g.leaving[x]?.getD []
    = ((allEdges g).filter (·.source == x)).map Edge.id
  entering : ∀ x : VertexId, g.entering[x]?.getD []
    = ((allEdges g).filter (·.target == x)).map Edge.id
  links : ∀ l, l ∈ g.links ↔ ∃ e ∈ allEdges g, (⟨e.source, e.target, e.label⟩ : Link) = l

@[simp]
theorem allVertices_empty (name : String) : allVertices (empty name) = [] := by
  simp [empty, allVertices, values_eq_map_toList]

@[simp]
theorem allEdges_empty (name : String) : allEdges (empty name) = [] := by
  simp [empty, allEdges, values_eq_map_toList]

theorem coherent_empty (name : String) : (empty name).Coherent where
  vertex_id h := by simp [empty] at h
  vertex_lt h := by simp [empty] at h
  edge_id h := by simp [empty] at h
  edge_lt h := by simp [empty] at h
  occupied := PropertyIndex.occupied_empty
  holders key value i := by simp [empty, PropertyIndex.holders]
  leaving x := by
    rw [allEdges_empty]
    simp [empty]
  entering x := by
    rw [allEdges_empty]
    simp [empty]
  links l := by
    rw [allEdges_empty]
    simp [empty]

namespace Coherent

variable {g : Graph}

/-! ## Reads -/

theorem filed (h : g.Coherent) : g.Filed := ⟨h.vertex_id, h.holders⟩

theorem mem_allVertices (h : g.Coherent) {v : Vertex} :
    v ∈ allVertices g ↔ vertex? g v.id = some v :=
  h.filed.mem_allVertices

theorem mem_allEdges (h : g.Coherent) {e : Edge} : e ∈ allEdges g ↔ g.edges[e.id]? = some e := by
  show e ∈ g.edges.values ↔ g.edges[e.id]? = some e
  rw [mem_values]
  refine ⟨fun ⟨i, hi⟩ => ?_, fun he => ⟨e.id, he⟩⟩
  rw [h.edge_id hi]
  exact hi

theorem vertex?_eq_some_iff (h : g.Coherent) {i : VertexId} {v : Vertex} :
    vertex? g i = some v ↔ v ∈ allVertices g ∧ v.id = i :=
  h.filed.vertex?_eq_some_iff

theorem requireVertex_of_mem (h : g.Coherent) {v : Vertex} (hv : v ∈ allVertices g) :
    requireVertex g v.id = .ok v := by
  simp only [requireVertex, h.mem_allVertices.1 hv]

theorem mem_of_requireVertex (h : g.Coherent) {i : VertexId} {v : Vertex}
    (hv : requireVertex g i = .ok v) : v ∈ allVertices g ∧ v.id = i :=
  h.vertex?_eq_some_iff.1 (vertex?_of_requireVertex hv)

theorem vertices_ascending (h : g.Coherent) :
    (allVertices g).Pairwise fun u v => u.id < v.id :=
  h.filed.vertices_ascending

theorem edges_ascending (h : g.Coherent) : (allEdges g).Pairwise fun d e => d.id < e.id :=
  values_ascending fun _ _ he => h.edge_id he

theorem vertices_nodup (h : g.Coherent) : (allVertices g).Nodup :=
  h.vertices_ascending.imp fun hlt heq => Nat.ne_of_lt hlt (congrArg Vertex.id heq)

theorem edges_nodup (h : g.Coherent) : (allEdges g).Nodup :=
  h.edges_ascending.imp fun hlt heq => Nat.ne_of_lt hlt (congrArg Edge.id heq)

theorem eq_of_vertex_id (h : g.Coherent) {u v : Vertex} (hu : u ∈ allVertices g)
    (hv : v ∈ allVertices g) (heq : u.id = v.id) : u = v := by
  rw [h.mem_allVertices, heq] at hu
  rw [h.mem_allVertices, hu] at hv
  exact Option.some.inj hv

theorem eq_of_edge_id (h : g.Coherent) {d e : Edge} (hd : d ∈ allEdges g) (he : e ∈ allEdges g)
    (heq : d.id = e.id) : d = e := by
  rw [h.mem_allEdges, heq] at hd
  rw [h.mem_allEdges, hd] at he
  exact Option.some.inj he

theorem vertex_id_lt (h : g.Coherent) {v : Vertex} (hv : v ∈ allVertices g) :
    v.id < g.nextVertex :=
  h.vertex_lt (h.mem_allVertices.1 hv)

theorem edge_id_lt (h : g.Coherent) {e : Edge} (he : e ∈ allEdges g) : e.id < g.nextEdge :=
  h.edge_lt (h.mem_allEdges.1 he)

theorem verticesWith_eq (h : g.Coherent) (key value : String) :
    Readable.verticesWith g key value
      = (allVertices g).filter fun v => v.property? key == some value :=
  h.filed.verticesWith_eq key value

theorem vertexWith?_eq (h : g.Coherent) (key value : String) :
    vertexWith? g key value = (allVertices g).find? fun v => v.property? key == some value :=
  h.filed.vertexWith?_eq key value

theorem filterMap_edges (h : g.Coherent) (p : Edge → Bool) :
    (((allEdges g).filter p).map Edge.id).filterMap (fun i => g.edges[i]?)
      = (allEdges g).filter p := by
  rw [List.filterMap_map]
  suffices ∀ es : List Edge, (∀ e ∈ es, e ∈ allEdges g) →
      es.filterMap ((fun i => g.edges[i]?) ∘ Edge.id) = es from
    this _ fun e he => (List.mem_filter.1 he).1
  intro es hes
  induction es with
  | nil => rfl
  | cons e es ih =>
    have he : ((fun i => g.edges[i]?) ∘ Edge.id) e = some e :=
      h.mem_allEdges.1 (hes e List.mem_cons_self)
    rw [List.filterMap_cons_some he, ih fun d hd => hes d (List.mem_cons_of_mem _ hd)]

theorem incident_outward (h : g.Coherent) (x : VertexId) :
    Readable.incident g x .outward = (allEdges g).filter (·.source == x) := by
  show List.filterMap (fun i => g.edges[i]?) (g.leaving[x]?.getD []) = _
  rw [h.leaving, h.filterMap_edges]

theorem incident_inward (h : g.Coherent) (x : VertexId) :
    Readable.incident g x .inward = (allEdges g).filter (·.target == x) := by
  show List.filterMap (fun i => g.edges[i]?) (g.entering[x]?.getD []) = _
  rw [h.entering, h.filterMap_edges]

theorem mem_incident_outward (h : g.Coherent) {x : VertexId} {e : Edge} :
    e ∈ Readable.incident g x .outward ↔ e ∈ allEdges g ∧ e.source = x := by
  rw [h.incident_outward, List.mem_filter, beq_iff_eq]

theorem mem_incident_inward (h : g.Coherent) {x : VertexId} {e : Edge} :
    e ∈ Readable.incident g x .inward ↔ e ∈ allEdges g ∧ e.target = x := by
  rw [h.incident_inward, List.mem_filter, beq_iff_eq]

theorem incident_both (h : g.Coherent) (x : VertexId) :
    Readable.incident g x .both
      = (allEdges g).filter (·.source == x) ++ (allEdges g).filter (·.target == x) := by
  show List.filterMap (fun i => g.edges[i]?) (g.leaving[x]?.getD [] ++ g.entering[x]?.getD []) = _
  rw [List.filterMap_append, h.leaving, h.entering, h.filterMap_edges, h.filterMap_edges]

theorem mem_incident_both (h : g.Coherent) {x : VertexId} {e : Edge} :
    e ∈ Readable.incident g x .both ↔ e ∈ allEdges g ∧ (e.source = x ∨ e.target = x) := by
  rw [h.incident_both, List.mem_append, List.mem_filter, List.mem_filter, beq_iff_eq, beq_iff_eq,
    ← and_or_left]

theorem hasEdge_iff (h : g.Coherent) {source target : VertexId} {label : String} :
    hasEdge g source label target = true
      ↔ ∃ e ∈ allEdges g, e.source = source ∧ e.label = label ∧ e.target = target := by
  show g.links.contains ⟨source, target, label⟩ = true ↔ _
  rw [← ExtTreeSet.mem_iff_contains, h.links]
  refine exists_congr fun e => and_congr_right fun _ => ?_
  rw [Link.mk.injEq]
  exact ⟨fun ⟨hs, ht, hl⟩ => ⟨hs, hl, ht⟩, fun ⟨hs, hl, ht⟩ => ⟨hs, ht, hl⟩⟩

/-! ## Writes -/

theorem insertVertex (h : g.Coherent) (v : Vertex) : (g.insertVertex v).Coherent where
  vertex_id hu := (h.filed.insertVertex v).vertex_id hu
  vertex_lt {i u} hu := by
    simp only [Graph.insertVertex, ExtTreeMap.getElem?_insert, Nat.compare_eq_eq] at hu ⊢
    split_ifs at hu with hi
    · exact hi ▸ Nat.lt_of_lt_of_le (Nat.lt_succ_self _) (Nat.le_max_right _ _)
    · exact Nat.lt_of_lt_of_le (h.vertex_lt hu) (Nat.le_max_left _ _)
  edge_id hi := h.edge_id hi
  edge_lt hi := h.edge_lt hi
  occupied := by
    simp only [Graph.insertVertex]
    split
    · exact (h.occupied.remove _).add v
    · exact h.occupied.add v
  holders := (h.filed.insertVertex v).holders
  leaving := h.leaving
  entering := h.entering
  links := h.links

theorem allVertices_insertVertex (h : g.Coherent) {v : Vertex} (hv : g.nextVertex ≤ v.id) :
    allVertices (g.insertVertex v) = allVertices g ++ [v] :=
  values_insert_of_forall_lt fun _ _ hu => Nat.lt_of_lt_of_le (h.vertex_lt hu) hv

theorem allEdges_attach (h : g.Coherent) {e : Edge} (he : g.nextEdge ≤ e.id) :
    allEdges (g.attach e) = allEdges g ++ [e] :=
  values_insert_of_forall_lt fun _ _ hd => Nat.lt_of_lt_of_le (h.edge_lt hd) he

theorem attach (h : g.Coherent) {e : Edge} (he : g.nextEdge ≤ e.id) : (g.attach e).Coherent where
  vertex_id hi := h.vertex_id hi
  vertex_lt hi := h.vertex_lt hi
  edge_id {i d} hd := by
    simp only [Graph.attach, ExtTreeMap.getElem?_insert, Nat.compare_eq_eq] at hd
    split_ifs at hd with hi
    · rw [← Option.some.inj hd, hi]
    · exact h.edge_id hd
  edge_lt {i d} hd := by
    simp only [Graph.attach, ExtTreeMap.getElem?_insert, Nat.compare_eq_eq] at hd ⊢
    split_ifs at hd with hi
    · exact hi ▸ Nat.lt_of_lt_of_le (Nat.lt_succ_self _) (Nat.le_max_right _ _)
    · exact Nat.lt_of_lt_of_le (h.edge_lt hd) (Nat.le_max_left _ _)
  occupied := h.occupied
  holders := h.holders
  leaving x := by
    rw [h.allEdges_attach he, List.filter_append, List.map_append, ← h.leaving]
    simp only [Graph.attach, ExtTreeMap.getElem?_alter, Nat.compare_eq_eq]
    split_ifs with hx
    · simp [hx]
    · simp [hx]
  entering x := by
    rw [h.allEdges_attach he, List.filter_append, List.map_append, ← h.entering]
    simp only [Graph.attach, ExtTreeMap.getElem?_alter, Nat.compare_eq_eq]
    split_ifs with hx
    · simp [hx]
    · simp [hx]
  links l := by
    rw [h.allEdges_attach he]
    simp only [Graph.attach, ExtTreeSet.mem_insert, Std.compare_eq_iff_eq, h.links, List.mem_append,
      List.mem_singleton]
    constructor
    · rintro (rfl | ⟨d, hd, rfl⟩)
      · exact ⟨e, .inr rfl, rfl⟩
      · exact ⟨d, .inl hd, rfl⟩
    · rintro ⟨d, hd | rfl, rfl⟩
      · exact .inr ⟨d, hd, rfl⟩
      · exact .inl rfl

end Coherent

/-- The property index of a coherent graph follows from the vertices. -/
theorem index_eq_of_coherent {g g' : Graph} (h : g.Coherent) (h' : g'.Coherent)
    (heq : g.vertices = g'.vertices) : g.index = g'.index := by
  refine PropertyIndex.eq_of_holders h.occupied h'.occupied fun key value i => ?_
  rw [h.holders, h'.holders, heq]

/-! ## Closed graphs -/

/-- Every edge joins vertices of the graph. -/
def Closed (g : Graph) : Prop :=
  ∀ e ∈ allEdges g, (∃ u ∈ allVertices g, u.id = e.source) ∧ ∃ v ∈ allVertices g, v.id = e.target

structure WellFormed (g : Graph) : Prop extends Coherent g where
  closed : g.Closed

theorem wellFormed_empty (name : String) : (empty name).WellFormed where
  toCoherent := coherent_empty name
  closed e he := by simp at he

namespace WellFormed

variable {g : Graph}

theorem exists_source (h : g.WellFormed) {e : Edge} (he : e ∈ allEdges g) :
    ∃ u ∈ allVertices g, u.id = e.source :=
  (h.closed e he).1

theorem exists_target (h : g.WellFormed) {e : Edge} (he : e ∈ allEdges g) :
    ∃ v ∈ allVertices g, v.id = e.target :=
  (h.closed e he).2

/-- An edge met at a vertex has a vertex at its other end. -/
theorem exists_other (h : g.WellFormed) {e : Edge} (he : e ∈ allEdges g) (x : VertexId) :
    ∃ v ∈ allVertices g, v.id = e.other x := by
  unfold Edge.other
  split_ifs
  · exact h.exists_target he
  · exact h.exists_source he

end WellFormed

end Graph

end Lineage
