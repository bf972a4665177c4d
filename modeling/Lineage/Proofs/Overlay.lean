import Lineage.Graph.Transaction
import Lineage.Proofs.Coherence

/-!
# Reading before the commit

An open transaction answers as the graph that committing it would give: every look-up of a
well-formed transaction is the same look-up of its commit (`verticesWith_commit`,
`incident_commit`, `hasEdge_commit`), and each write of the transaction is that write of the commit
(`commit_addVertex`, `commit_setProperty`, `commit_addEdge`). So whatever is done in a transaction
can be followed on the graph `t.commit` alone.
-/

namespace Lineage

open Std

namespace Graph

/-! ## Folding an overlay in -/

section Fold

theorem foldl_insertVertex_name : ∀ (vs : List Vertex) (g : Graph),
    (vs.foldl insertVertex g).name = g.name
  | [], _ => rfl
  | v :: vs, g => foldl_insertVertex_name vs (g.insertVertex v)

theorem foldl_insertVertex_vertices : ∀ (vs : List Vertex) (g : Graph),
    (vs.foldl insertVertex g).vertices = vs.foldl (fun m v => m.insert v.id v) g.vertices
  | [], _ => rfl
  | v :: vs, g => foldl_insertVertex_vertices vs (g.insertVertex v)

theorem foldl_insertVertex_edges : ∀ (vs : List Vertex) (g : Graph),
    (vs.foldl insertVertex g).edges = g.edges ∧ (vs.foldl insertVertex g).leaving = g.leaving
      ∧ (vs.foldl insertVertex g).entering = g.entering
      ∧ (vs.foldl insertVertex g).links = g.links
      ∧ (vs.foldl insertVertex g).nextEdge = g.nextEdge
  | [], _ => ⟨rfl, rfl, rfl, rfl, rfl⟩
  | v :: vs, g => foldl_insertVertex_edges vs (g.insertVertex v)

theorem foldl_attach_name : ∀ (es : List Edge) (g : Graph), (es.foldl attach g).name = g.name
  | [], _ => rfl
  | e :: es, g => foldl_attach_name es (g.attach e)

theorem foldl_attach_vertices : ∀ (es : List Edge) (g : Graph),
    (es.foldl attach g).vertices = g.vertices ∧ (es.foldl attach g).nextVertex = g.nextVertex
  | [], _ => ⟨rfl, rfl⟩
  | e :: es, g => foldl_attach_vertices es (g.attach e)

theorem foldl_attach_leaving : ∀ (es : List Edge) (g : Graph),
    (es.foldl attach g).leaving
      = es.foldl (fun m e => m.alter e.source fun ids => some (ids.getD [] ++ [e.id])) g.leaving
  | [], _ => rfl
  | e :: es, g => foldl_attach_leaving es (g.attach e)

theorem foldl_attach_entering : ∀ (es : List Edge) (g : Graph),
    (es.foldl attach g).entering
      = es.foldl (fun m e => m.alter e.target fun ids => some (ids.getD [] ++ [e.id])) g.entering
  | [], _ => rfl
  | e :: es, g => foldl_attach_entering es (g.attach e)

theorem foldl_attach_links : ∀ (es : List Edge) (g : Graph),
    (es.foldl attach g).links
      = es.foldl (fun ls e => ls.insert ⟨e.source, e.target, e.label⟩) g.links
  | [], _ => rfl
  | e :: es, g => foldl_attach_links es (g.attach e)

theorem foldl_attach_edges : ∀ (es : List Edge) (g : Graph),
    (es.foldl attach g).edges = es.foldl (fun m e => m.insert e.id e) g.edges
  | [], _ => rfl
  | e :: es, g => foldl_attach_edges es (g.attach e)

theorem coherent_foldl_insertVertex : ∀ (vs : List Vertex) {g : Graph}, g.Coherent →
    (vs.foldl insertVertex g).Coherent
  | [], _, h => h
  | v :: vs, _, h => coherent_foldl_insertVertex vs (h.insertVertex v)

theorem foldl_insertVertex_nextVertex_le {n : Nat} : ∀ (vs : List Vertex) {g : Graph},
    g.nextVertex ≤ n → (∀ v ∈ vs, v.id + 1 ≤ n) → (vs.foldl insertVertex g).nextVertex ≤ n
  | [], _, hg, _ => hg
  | v :: vs, _, hg, hvs => foldl_insertVertex_nextVertex_le vs
      (Nat.max_le.2 ⟨hg, hvs v List.mem_cons_self⟩) fun u hu => hvs u (List.mem_cons_of_mem _ hu)

theorem foldl_insertVertex_getElem? (i : VertexId) : ∀ (vs : List Vertex) (g : Graph),
    vs.Pairwise (fun u v => u.id < v.id) →
      (vs.foldl insertVertex g).vertices[i]? = (vs.find? (·.id == i)).or g.vertices[i]?
  | [], _, _ => by simp
  | v :: vs, g, h => by
    obtain ⟨hv, hvs⟩ := List.pairwise_cons.1 h
    rw [List.foldl_cons, foldl_insertVertex_getElem? i vs _ hvs]
    simp only [insertVertex, ExtTreeMap.getElem?_insert, Nat.compare_eq_eq, List.find?_cons]
    by_cases hi : v.id = i
    · have hnone : vs.find? (·.id == i) = none := by
        rw [List.find?_eq_none]
        intro u hu heq
        have := hv u hu
        rw [hi, beq_iff_eq.1 heq] at this
        exact Nat.lt_irrefl _ this
      simp [hi, hnone]
    · have hb : (v.id == i) = false := beq_eq_false_iff_ne.2 hi
      simp [hi, hb]

/-- Edges under new, ascending ids are put behind those of the graph. -/
theorem coherent_foldl_attach {n : Nat} : ∀ (es : List Edge) {g : Graph}, g.Coherent →
    es.Pairwise (fun d e => d.id < e.id) → (∀ e ∈ es, g.nextEdge ≤ e.id) → g.nextEdge ≤ n →
      (∀ e ∈ es, e.id + 1 ≤ n) → (es.foldl attach g).Coherent
        ∧ allEdges (es.foldl attach g) = allEdges g ++ es ∧ (es.foldl attach g).nextEdge ≤ n
  | [], g, h, _, _, hg, _ => ⟨h, by simp, hg⟩
  | e :: es, g, h, hes, hge, hg, hn => by
    obtain ⟨he, hes⟩ := List.pairwise_cons.1 hes
    have hege := hge e List.mem_cons_self
    obtain ⟨h1, h2, h3⟩ := coherent_foldl_attach es (h.attach hege) hes
      (fun d hd => Nat.max_le.2 ⟨hge d (List.mem_cons_of_mem _ hd), he d hd⟩)
      (Nat.max_le.2 ⟨hg, hn e List.mem_cons_self⟩) fun d hd => hn d (List.mem_cons_of_mem _ hd)
    refine ⟨h1, ?_, h3⟩
    rw [List.foldl_cons, h2, h.allEdges_attach hege, List.append_assoc]
    rfl

end Fold

/-! ## Writes on a graph -/

def addVertex (g : Graph) (label : String) (properties : Properties) : Graph :=
  g.insertVertex ⟨g.nextVertex, label, properties⟩

def addEdge (g : Graph) (label : String) (source target : VertexId) (properties : Properties) :
    Graph :=
  g.attach ⟨g.nextEdge, label, source, target, properties⟩

def setProperty (g : Graph) (v : Vertex) (key value : String) : Graph :=
  g.insertVertex { v with properties := v.properties.insert key value }

/-- The counters may be moved up. -/
theorem Coherent.raise {g : Graph} (h : g.Coherent) {n m : Nat} (hn : g.nextVertex ≤ n)
    (hm : g.nextEdge ≤ m) : { g with nextVertex := n, nextEdge := m }.Coherent :=
  { h with
    vertex_lt := fun hv => Nat.lt_of_lt_of_le (h.vertex_lt hv) hn
    edge_lt := fun he => Nat.lt_of_lt_of_le (h.edge_lt he) hm }

theorem ext_of_coherent {g g' : Graph} (h : g.Coherent) (h' : g'.Coherent)
    (hname : g.name = g'.name) (hnv : g.nextVertex = g'.nextVertex)
    (hne : g.nextEdge = g'.nextEdge) (hv : g.vertices = g'.vertices) (he : g.edges = g'.edges)
    (hl : g.leaving = g'.leaving) (hen : g.entering = g'.entering) (hli : g.links = g'.links) :
    g = g' := by
  have hix := index_eq_of_coherent h h' hv
  cases g
  cases g'
  simp only [mk.injEq]
  exact ⟨hname, hnv, hne, hv, he, hl, hen, hli, hix⟩

end Graph

namespace Transaction

/-- The overlay is coherent on its own, numbers on from the graph, and its edges join vertices of
either part. -/
structure WellFormed (t : Transaction) : Prop where
  base : t.base.WellFormed
  overlay : t.overlay.Coherent
  name_eq : t.overlay.name = t.base.name
  nextVertex_le : t.base.nextVertex ≤ t.overlay.nextVertex
  nextEdge_le : t.base.nextEdge ≤ t.overlay.nextEdge
  edge_ge : ∀ e ∈ allEdges t.overlay, t.base.nextEdge ≤ e.id
  closed : ∀ e ∈ allEdges t.overlay, (∃ u, Readable.vertex? t e.source = some u)
    ∧ ∃ v, Readable.vertex? t e.target = some v

/-- The vertices that hold a property, the changed ones as they are in the overlay. -/
def holding (t : Transaction) (key value : String) : List Vertex :=
  (t.base.verticesWith key value).filter (fun v => !t.overlay.vertices.contains v.id)
    ++ t.overlay.verticesWith key value

namespace WellFormed

variable {t : Transaction}

/-! ## Committing -/

/-- Committing puts the vertices of the overlay in place of those that had their ids, and its edges
behind all others. -/
theorem commit_spec (h : t.WellFormed) :
    t.commit.Coherent ∧ allEdges t.commit = allEdges t
      ∧ (∀ i, Readable.vertex? t.commit i = Readable.vertex? t i)
      ∧ t.commit.nextVertex = t.overlay.nextVertex ∧ t.commit.nextEdge = t.overlay.nextEdge := by
  let g := t.overlay.vertices.values.foldl Graph.insertVertex t.base
  have hgc : g.Coherent := Graph.coherent_foldl_insertVertex _ h.base.toCoherent
  obtain ⟨hedges, -, -, -, hne⟩ :=
    Graph.foldl_insertVertex_edges t.overlay.vertices.values t.base
  have hnv : g.nextVertex ≤ t.overlay.nextVertex :=
    Graph.foldl_insertVertex_nextVertex_le _ h.nextVertex_le fun v hv =>
      h.overlay.vertex_id_lt hv
  obtain ⟨hc, hall, hle⟩ := Graph.coherent_foldl_attach (n := t.overlay.nextEdge)
    t.overlay.edges.values hgc h.overlay.edges_ascending
    (fun e he => le_of_eq_of_le hne (h.edge_ge e he)) (le_of_eq_of_le hne h.nextEdge_le)
    fun e he => h.overlay.edge_id_lt he
  obtain ⟨hvs, hvn⟩ := Graph.foldl_attach_vertices t.overlay.edges.values g
  have hnv' : t.commit.nextVertex = t.overlay.nextVertex :=
    Nat.max_eq_right (le_of_eq_of_le hvn hnv)
  have hne' : t.commit.nextEdge = t.overlay.nextEdge := Nat.max_eq_right hle
  refine ⟨?_, ?_, fun i => ?_, hnv', hne'⟩
  · exact hc.raise (Nat.le_max_left _ _) (Nat.le_max_left _ _)
  · show allEdges (t.overlay.edges.values.foldl Graph.attach g) = _
    rw [hall]
    show g.edges.values ++ _ = _
    rw [hedges]
    rfl
  · show (t.overlay.edges.values.foldl Graph.attach g).vertices[i]? = _
    rw [hvs]
    show (t.overlay.vertices.values.foldl Graph.insertVertex t.base).vertices[i]? = _
    rw [Graph.foldl_insertVertex_getElem? i t.overlay.vertices.values _
        h.overlay.vertices_ascending,
      find?_values fun _ _ hv => h.overlay.vertex_id hv]
    rfl

theorem coherent_commit (h : t.WellFormed) : t.commit.Coherent := h.commit_spec.1

theorem allEdges_commit (h : t.WellFormed) : allEdges t.commit = allEdges t := h.commit_spec.2.1

theorem vertex?_commit (h : t.WellFormed) (i : VertexId) :
    Readable.vertex? t.commit i = Readable.vertex? t i :=
  h.commit_spec.2.2.1 i

theorem commit_nextVertex (h : t.WellFormed) : t.commit.nextVertex = t.overlay.nextVertex :=
  h.commit_spec.2.2.2.1

theorem commit_nextEdge (h : t.WellFormed) : t.commit.nextEdge = t.overlay.nextEdge :=
  h.commit_spec.2.2.2.2

theorem commit_name (t : Transaction) : t.commit.name = t.base.name := by
  show (t.overlay.edges.values.foldl Graph.attach _).name = _
  rw [Graph.foldl_attach_name, Graph.foldl_insertVertex_name]

theorem exists_mem_of_vertex? (h : t.WellFormed) {i : VertexId} {v : Vertex}
    (hv : Readable.vertex? t i = some v) : ∃ u ∈ allVertices t.commit, u.id = i := by
  rw [← h.vertex?_commit] at hv
  exact ⟨v, h.coherent_commit.vertex?_eq_some_iff.1 hv⟩

theorem wellFormed_commit (h : t.WellFormed) : t.commit.WellFormed where
  toCoherent := h.coherent_commit
  closed e he := by
    have hbase : ∀ {i : VertexId} {u : Vertex}, u ∈ allVertices t.base → u.id = i →
        ∃ v, Readable.vertex? t i = some v := by
      rintro i u hu rfl
      rcases ho : t.overlay.vertices[u.id]? with _ | v
      · exact ⟨u, by
          show (t.overlay.vertices[u.id]?).or t.base.vertices[u.id]? = some u
          rw [ho]
          exact h.base.mem_allVertices.1 hu⟩
      · exact ⟨v, by
          show (t.overlay.vertices[u.id]?).or t.base.vertices[u.id]? = some v
          rw [ho]
          rfl⟩
    rw [h.allEdges_commit] at he
    rcases List.mem_append.1 he with he | he
    · obtain ⟨⟨u, hu, hus⟩, ⟨v, hv, hvt⟩⟩ := h.base.closed e he
      obtain ⟨u', hu'⟩ := hbase hu hus
      obtain ⟨v', hv'⟩ := hbase hv hvt
      exact ⟨h.exists_mem_of_vertex? hu', h.exists_mem_of_vertex? hv'⟩
    · obtain ⟨⟨u, hu⟩, ⟨v, hv⟩⟩ := h.closed e he
      exact ⟨h.exists_mem_of_vertex? hu, h.exists_mem_of_vertex? hv⟩

/-! ## Reads -/

theorem requireVertex_commit (h : t.WellFormed) (i : VertexId) :
    requireVertex t.commit i = requireVertex t i := by
  unfold requireVertex
  rw [h.vertex?_commit]
  split
  · rfl
  · exact congrArg (fun n => Except.error (StoreError.vertexNotFound n i)) (commit_name t)

theorem allVertices_commit (h : t.WellFormed) : allVertices t.commit = allVertices t := by
  refine congrArg ExtTreeMap.values (ExtTreeMap.ext_getElem? fun {i} => ?_)
  rw [ExtTreeMap.getElem?_union]
  exact h.vertex?_commit i

theorem hasEdge_commit (h : t.WellFormed) (source : VertexId) (label : String)
    (target : VertexId) :
    Readable.hasEdge t.commit source label target = Readable.hasEdge t source label target := by
  rw [Bool.eq_iff_iff, h.coherent_commit.hasEdge_iff, h.allEdges_commit]
  show _ ↔ (Readable.hasEdge t.base source label target
    || Readable.hasEdge t.overlay source label target) = true
  rw [Bool.or_eq_true, h.base.hasEdge_iff, h.overlay.hasEdge_iff]
  show (∃ e ∈ allEdges t.base ++ allEdges t.overlay, _) ↔ _
  simp only [List.mem_append, or_and_right, exists_or]

theorem incident_outward_commit (h : t.WellFormed) (x : VertexId) :
    Readable.incident t.commit x .outward = Readable.incident t x .outward := by
  rw [h.coherent_commit.incident_outward, h.allEdges_commit]
  show _ = Readable.incident t.base x .outward ++ Readable.incident t.overlay x .outward
  rw [h.base.incident_outward, h.overlay.incident_outward, ← List.filter_append]
  rfl

theorem incident_inward_commit (h : t.WellFormed) (x : VertexId) :
    Readable.incident t.commit x .inward = Readable.incident t x .inward := by
  rw [h.coherent_commit.incident_inward, h.allEdges_commit]
  show _ = Readable.incident t.base x .inward ++ Readable.incident t.overlay x .inward
  rw [h.base.incident_inward, h.overlay.incident_inward, ← List.filter_append]
  rfl

theorem mem_holding (h : t.WellFormed) {key value : String} {v : Vertex} :
    v ∈ t.holding key value ↔ v ∈ allVertices t.commit ∧ v.property? key = some value := by
  have hb : ∀ u, u ∈ t.base.verticesWith key value ↔ u ∈ allVertices t.base
      ∧ u.property? key = some value := fun u => by
    rw [show t.base.verticesWith key value = Readable.verticesWith t.base key value from rfl,
      h.base.verticesWith_eq, List.mem_filter, beq_iff_eq]
  have ho : ∀ u, u ∈ t.overlay.verticesWith key value ↔ u ∈ allVertices t.overlay
      ∧ u.property? key = some value := fun u => by
    rw [show t.overlay.verticesWith key value = Readable.verticesWith t.overlay key value from rfl,
      h.overlay.verticesWith_eq, List.mem_filter, beq_iff_eq]
  have hv : Readable.vertex? t v.id = (t.overlay.vertices[v.id]?).or t.base.vertices[v.id]? := rfl
  unfold holding
  rw [List.mem_append, List.mem_filter, hb, ho, h.coherent_commit.mem_allVertices,
    h.vertex?_commit, hv, h.base.mem_allVertices, h.overlay.mem_allVertices]
  show (t.base.vertices[v.id]? = some v ∧ _) ∧ _ ∨ t.overlay.vertices[v.id]? = some v ∧ _ ↔ _
  rw [ExtTreeMap.contains_eq_isSome_getElem?]
  rcases t.overlay.vertices[v.id]? with _ | u
  · simp
  · simp

/-- No id is held twice: what the overlay has is left out of the base. -/
theorem holding_distinct (h : t.WellFormed) (key value : String) :
    (t.holding key value).Pairwise fun u v => u.id ≠ v.id := by
  have hbase : (t.base.verticesWith key value).Pairwise fun u v => u.id < v.id := by
    rw [show t.base.verticesWith key value = Readable.verticesWith t.base key value from rfl,
      h.base.verticesWith_eq]
    exact h.base.vertices_ascending.filter _
  have hover : t.overlay.verticesWith key value
      = (allVertices t.overlay).filter fun v => v.property? key == some value :=
    h.overlay.verticesWith_eq key value
  unfold holding
  refine List.pairwise_append.2 ⟨(hbase.filter _).imp Nat.ne_of_lt, ?_, ?_⟩
  · rw [hover]
    exact (h.overlay.vertices_ascending.filter _).imp Nat.ne_of_lt
  · intro u hu v hv heq
    rw [hover] at hv
    have hv := h.overlay.mem_allVertices.1 (List.mem_filter.1 hv).1
    have hu := (List.mem_filter.1 hu).2
    rw [heq, ExtTreeMap.contains_eq_isSome_getElem?,
      show t.overlay.vertices[v.id]? = some v from hv] at hu
    simp at hu

theorem verticesWith_commit (h : t.WellFormed) (key value : String) :
    Readable.verticesWith t.commit key value = Readable.verticesWith t key value := by
  have hget : ∀ (i : VertexId) v, (ExtTreeMap.ofList ((t.holding key value).map
      fun v => (v.id, v)))[i]? = some v ↔ v ∈ t.holding key value ∧ v.id = i := fun i v =>
    getElem?_ofList_eq_some_iff (h.holding_distinct key value)
  refine eq_of_ascending Vertex.id ?_ (values_ascending fun i v hv => ((hget i v).1 hv).2)
    fun v => ?_
  · rw [h.coherent_commit.verticesWith_eq]
    exact h.coherent_commit.vertices_ascending.filter _
  · rw [h.coherent_commit.verticesWith_eq, List.mem_filter, beq_iff_eq, ← h.mem_holding]
    constructor
    · intro hv
      exact mem_values.2 ⟨v.id, (hget _ _).2 ⟨hv, rfl⟩⟩
    · intro (hv : v ∈ (ExtTreeMap.ofList ((t.holding key value).map fun v => (v.id, v))).values)
      obtain ⟨i, hi⟩ := mem_values.1 hv
      exact ((hget i v).1 hi).1

theorem vertexWith?_commit (h : t.WellFormed) (key value : String) :
    Lineage.vertexWith? t.commit key value = Lineage.vertexWith? t key value := by
  unfold Lineage.vertexWith?
  rw [h.verticesWith_commit]

/-! ## Writes -/

theorem insertVertex (h : t.WellFormed) (v : Vertex) :
    { t with overlay := t.overlay.insertVertex v : Transaction }.WellFormed where
  base := h.base
  overlay := h.overlay.insertVertex v
  name_eq := h.name_eq
  nextVertex_le := Nat.le_trans h.nextVertex_le (Nat.le_max_left _ _)
  nextEdge_le := h.nextEdge_le
  edge_ge := h.edge_ge
  closed e he := by
    have hkeep : ∀ i : VertexId, (∃ u, Readable.vertex? t i = some u) →
        ∃ u, Readable.vertex? { t with overlay := t.overlay.insertVertex v : Transaction } i
          = some u := by
      rintro i ⟨u, hu⟩
      show ∃ u, ((t.overlay.vertices.insert v.id v)[i]?).or t.base.vertices[i]? = some u
      rw [ExtTreeMap.getElem?_insert]
      split_ifs
      · exact ⟨v, rfl⟩
      · exact ⟨u, hu⟩
    exact ⟨hkeep _ (h.closed e he).1, hkeep _ (h.closed e he).2⟩

/-- Writing a vertex into the overlay is writing it into the commit. -/
theorem commit_insertVertex (h : t.WellFormed) (v : Vertex) :
    { t with overlay := t.overlay.insertVertex v : Transaction }.commit
      = t.commit.insertVertex v := by
  have h' := h.insertVertex v
  have hbase := Graph.foldl_insertVertex_edges t.overlay.vertices.values t.base
  have hbase' := Graph.foldl_insertVertex_edges
    (t.overlay.insertVertex v).vertices.values t.base
  refine Graph.ext_of_coherent h'.coherent_commit (h.coherent_commit.insertVertex v) ?_ ?_ ?_ ?_
    ?_ ?_ ?_ ?_
  · rw [commit_name]
    exact (commit_name t).symm
  · rw [h'.commit_nextVertex]
    show max _ _ = max t.commit.nextVertex _
    rw [h.commit_nextVertex]
  · rw [h'.commit_nextEdge]
    exact h.commit_nextEdge.symm
  · refine ExtTreeMap.ext_getElem? fun {i} => ?_
    refine (h'.vertex?_commit i).trans ?_
    show ((t.overlay.vertices.insert v.id v)[i]?).or t.base.vertices[i]?
      = (t.commit.vertices.insert v.id v)[i]?
    rw [ExtTreeMap.getElem?_insert, ExtTreeMap.getElem?_insert]
    split_ifs
    · rfl
    · exact (h.vertex?_commit i).symm
  · show (t.overlay.edges.values.foldl Graph.attach _).edges
      = (t.overlay.edges.values.foldl Graph.attach _).edges
    rw [Graph.foldl_attach_edges, Graph.foldl_attach_edges, hbase.1, hbase'.1]
  · show (t.overlay.edges.values.foldl Graph.attach _).leaving
      = (t.overlay.edges.values.foldl Graph.attach _).leaving
    rw [Graph.foldl_attach_leaving, Graph.foldl_attach_leaving, hbase.2.1, hbase'.2.1]
  · show (t.overlay.edges.values.foldl Graph.attach _).entering
      = (t.overlay.edges.values.foldl Graph.attach _).entering
    rw [Graph.foldl_attach_entering, Graph.foldl_attach_entering, hbase.2.2.1, hbase'.2.2.1]
  · show (t.overlay.edges.values.foldl Graph.attach _).links
      = (t.overlay.edges.values.foldl Graph.attach _).links
    rw [Graph.foldl_attach_links, Graph.foldl_attach_links, hbase.2.2.2.1, hbase'.2.2.2.1]

theorem addVertex (h : t.WellFormed) (label : String) (properties : Properties) :
    (t.addVertex label properties).2.WellFormed :=
  h.insertVertex _

theorem addVertex_fst (h : t.WellFormed) (label : String) (properties : Properties) :
    (t.addVertex label properties).1 = t.commit.nextVertex :=
  h.commit_nextVertex.symm

theorem commit_addVertex (h : t.WellFormed) (label : String) (properties : Properties) :
    (t.addVertex label properties).2.commit = t.commit.addVertex label properties := by
  refine (h.commit_insertVertex _).trans ?_
  rw [Graph.addVertex, h.commit_nextVertex]

/-- Setting a property fails for a missing vertex only. -/
theorem setProperty (h : t.WellFormed) {v : Vertex} (hv : v ∈ allVertices t.commit)
    (key value : String) : ∃ t', t.setProperty v.id key value = .ok t' ∧ t'.WellFormed
      ∧ t'.base = t.base ∧ t'.commit = t.commit.setProperty v key value := by
  have hreq : requireVertex t v.id = .ok v := by
    rw [← h.requireVertex_commit]
    exact h.coherent_commit.requireVertex_of_mem hv
  refine ⟨_, ?_, h.insertVertex { v with properties := v.properties.insert key value }, rfl,
    h.commit_insertVertex _⟩
  simp only [Transaction.setProperty, hreq]
  rfl

theorem attach (h : t.WellFormed) (label : String) {source target : VertexId}
    (properties : Properties) (hs : ∃ u, Readable.vertex? t source = some u)
    (ht : ∃ v, Readable.vertex? t target = some v) :
    { t with overlay := t.overlay.attach ⟨t.overlay.nextEdge, label, source, target, properties⟩ :
      Transaction }.WellFormed where
  base := h.base
  overlay := h.overlay.attach (Nat.le_refl _)
  name_eq := h.name_eq
  nextVertex_le := h.nextVertex_le
  nextEdge_le := Nat.le_trans h.nextEdge_le (Nat.le_max_left _ _)
  edge_ge e he := by
    rw [h.overlay.allEdges_attach (Nat.le_refl _)] at he
    rcases List.mem_append.1 he with he | he
    · exact h.edge_ge e he
    · rw [List.mem_singleton.1 he]
      exact h.nextEdge_le
  closed e he := by
    rw [h.overlay.allEdges_attach (Nat.le_refl _)] at he
    rcases List.mem_append.1 he with he | he
    · exact h.closed e he
    · rw [List.mem_singleton.1 he]
      exact ⟨hs, ht⟩

theorem commit_attach (h : t.WellFormed) {label : String} {source target : VertexId}
    {properties : Properties} (hs : ∃ u, Readable.vertex? t source = some u)
    (ht : ∃ v, Readable.vertex? t target = some v) :
    { t with overlay := t.overlay.attach ⟨t.overlay.nextEdge, label, source, target, properties⟩ :
      Transaction }.commit = t.commit.addEdge label source target properties := by
  have h' := h.attach label properties hs ht
  rw [Graph.addEdge, h.commit_nextEdge]
  generalize he : Edge.mk t.overlay.nextEdge label source target properties = e at h' ⊢
  have hle : t.overlay.nextEdge ≤ e.id := he ▸ Nat.le_refl _
  have hvalues : (t.overlay.attach e).edges.values = t.overlay.edges.values ++ [e] :=
    h.overlay.allEdges_attach hle
  have hfold : (t.overlay.attach e).edges.values.foldl Graph.attach
        (t.overlay.vertices.values.foldl Graph.insertVertex t.base)
      = (t.overlay.edges.values.foldl Graph.attach
        (t.overlay.vertices.values.foldl Graph.insertVertex t.base)).attach e := by
    rw [hvalues, List.foldl_append]
    rfl
  refine Graph.ext_of_coherent h'.coherent_commit
    (h.coherent_commit.attach (le_of_eq_of_le h.commit_nextEdge hle)) ?_ ?_ ?_ ?_
    ?_ ?_ ?_ ?_
  · rw [commit_name]
    exact (commit_name t).symm
  · rw [h'.commit_nextVertex]
    exact h.commit_nextVertex.symm
  · rw [h'.commit_nextEdge]
    show max _ _ = max t.commit.nextEdge _
    rw [h.commit_nextEdge]
  · refine ExtTreeMap.ext_getElem? fun {i} => ?_
    exact (h'.vertex?_commit i).trans (h.vertex?_commit i).symm
  · have hedges := congrArg Graph.edges hfold
    exact hedges
  · have hleaving := congrArg Graph.leaving hfold
    exact hleaving
  · have hentering := congrArg Graph.entering hfold
    exact hentering
  · have hlinks := congrArg Graph.links hfold
    exact hlinks

/-- Adding an edge fails for a missing end only. -/
theorem addEdge (h : t.WellFormed) {u v : Vertex} (hu : u ∈ allVertices t.commit)
    (hv : v ∈ allVertices t.commit) (label : String) (properties : Properties) :
    ∃ t', t.addEdge label u.id v.id properties = .ok (t.commit.nextEdge, t') ∧ t'.WellFormed
      ∧ t'.base = t.base ∧ t'.commit = t.commit.addEdge label u.id v.id properties := by
  have hreq : ∀ {x : Vertex}, x ∈ allVertices t.commit → requireVertex t x.id = .ok x := by
    intro x hx
    rw [← h.requireVertex_commit]
    exact h.coherent_commit.requireVertex_of_mem hx
  have hread : ∀ {x : Vertex}, x ∈ allVertices t.commit →
      ∃ y, Readable.vertex? t x.id = some y := by
    intro x hx
    exact ⟨x, by rw [← h.vertex?_commit]; exact h.coherent_commit.mem_allVertices.1 hx⟩
  refine ⟨_, ?_, h.attach _ _ (hread hu) (hread hv), rfl, h.commit_attach (hread hu) (hread hv)⟩
  simp only [Transaction.addEdge, hreq hu, hreq hv, h.commit_nextEdge]
  rfl

end WellFormed

theorem wellFormed_begin {g : Graph} (h : g.WellFormed) : g.begin.WellFormed where
  base := h
  overlay := (Graph.coherent_empty g.name).raise (Nat.zero_le _) (Nat.zero_le _)
  name_eq := rfl
  nextVertex_le := Nat.le_refl _
  nextEdge_le := Nat.le_refl _
  edge_ge e he := by simp [Graph.begin, allEdges, values_eq_map_toList] at he
  closed e he := by simp [Graph.begin, allEdges, values_eq_map_toList] at he

/-- A transaction that wrote nothing commits to the graph it began on. -/
theorem commit_begin (g : Graph) : g.begin.commit = g := by
  have hnil : ∀ {β : Type}, (∅ : ExtTreeMap Nat β).values = [] := by
    intro β
    rw [values_eq_map_toList]
    simp
  simp [commit, Graph.begin, hnil]

end Transaction

end Lineage
