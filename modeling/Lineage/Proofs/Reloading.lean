import Lineage.Proofs.Histories
import Lineage.Proofs.JsonText
import Lineage.Proofs.Loading
import Lineage.Proofs.Recording

/-!
# Graphs that come back as they were

A document whose ids fit into 64 bits is read back from its text (`Document.read_write`). A graph
with a history keeps no more than its records tell (`Graph.Tight`): the counters are as low as the
ids let them be, and adjacency has no empty lists. So it is rebuilt from its captured records, ids,
counters, indexes and all (`Graph.toGraph_capture`), and reloading its export makes no difference
(`load_exportText`).
-/

namespace Lineage

open Std

/-! ## Documents -/

namespace Json

theorem foldl_insert_toList (ps : Properties) :
    ps.toList.foldl (fun ps p => ps.insert p.1 p.2) ∅ = ps := by
  have hfold : ps.toList.foldl (fun ps p => ps.insert p.1 p.2) (∅ : Properties)
      = ExtTreeMap.ofList ps.toList := ExtTreeMap.ofList_eq_foldl.symm
  rw [hfold]
  refine ExtTreeMap.ext_getElem? fun k => ?_
  rcases hk : ps[k]? with _ | v
  · refine ExtTreeMap.getElem?_ofList_of_contains_eq_false ?_
    rw [← Bool.not_eq_true, List.contains_iff_mem, List.mem_map]
    rintro ⟨⟨k, v⟩, hmem, rfl⟩
    rw [ExtTreeMap.mem_toList_iff_getElem?_eq_some.1 hmem] at hk
    cases hk
  · exact ExtTreeMap.getElem?_ofList_of_mem compare_self ExtTreeMap.distinct_keys_toList
      (ExtTreeMap.mem_toList_iff_getElem?_eq_some.2 hk)

theorem mapM_of_forall {α β : Type} {read : β → Option α} {write : α → β} : ∀ {xs : List α},
    (∀ x ∈ xs, read (write x) = some x) → (xs.map write).mapM read = some xs
  | [], _ => rfl
  | x :: xs, h => by
    rw [List.map_cons, List.mapM_cons, h x List.mem_cons_self,
      mapM_of_forall fun y hy => h y (List.mem_cons_of_mem _ hy)]
    rfl

theorem asProperties?_ofProperties (ps : Properties) :
    (ofProperties ps).asProperties? = some ps := by
  have hpairs : (ps.toList.map fun p => (p.1, Json.str p.2)).mapM
      (fun m => m.2.asString?.map (m.1, ·)) = some ps.toList := mapM_of_forall fun _ _ => rfl
  unfold asProperties? ofProperties
  simp only [asObject?, Option.bind_eq_bind, Option.bind_some]
  rw [hpairs]
  exact congrArg some (foldl_insert_toList ps)

theorem asNat?_ofNat {limit n : Nat} (h : n < limit) : (Json.ofNat n).asNat? limit = some n := by
  simp [ofNat, asNat?, Decimal.ofNat, Decimal.toNat?, Option.filter, h]

end Json

namespace Document

theorem vertexOfJson?_vertexToJson {v : Vertex} (h : v.id < idLimit) :
    vertexOfJson? (vertexToJson v) = some v := by
  have hps := Json.asProperties?_ofProperties v.properties
  have hid := Json.asNat?_ofNat h
  simp [vertexOfJson?, vertexToJson, Json.fields?, Json.nat?, Json.string?, Json.properties?,
    Json.required?, Json.member?, hps, hid, Json.asString?]

theorem edgeOfJson?_edgeToJson {e : Edge} (h : e.id < idLimit) (hs : e.source < idLimit)
    (ht : e.target < idLimit) : edgeOfJson? (edgeToJson e) = some e := by
  have hps := Json.asProperties?_ofProperties e.properties
  have hid := Json.asNat?_ofNat h
  have hsource := Json.asNat?_ofNat hs
  have htarget := Json.asNat?_ofNat ht
  simp [edgeOfJson?, edgeToJson, Json.fields?, Json.nat?, Json.string?, Json.properties?,
    Json.required?, Json.member?, hps, hid, hsource, htarget, Json.asString?]

/-- All ids of a document fit into 64 bits. -/
structure Fits (d : Document) : Prop where
  vertices : ∀ v ∈ d.vertices, v.id < idLimit
  edges : ∀ e ∈ d.edges, e.id < idLimit ∧ e.source < idLimit ∧ e.target < idLimit

theorem ofJson?_toJson {d : Document} (h : d.Fits) (hversion : d.version < versionLimit) :
    ofJson? d.toJson = some d := by
  have hvs := Json.mapM_of_forall fun v hv => vertexOfJson?_vertexToJson (h.vertices v hv)
  have hes := Json.mapM_of_forall fun e he =>
    edgeOfJson?_edgeToJson (h.edges e he).1 (h.edges e he).2.1 (h.edges e he).2.2
  have hv := Json.asNat?_ofNat hversion
  simp [ofJson?, toJson, Json.fields?, Json.nat?, Json.string?, Json.list?, Json.required?,
    Json.member?, hvs, hes, hv, Json.asString?, Json.asArray?]

/-- A document is read back from its text. -/
theorem read_write {d : Document} (h : d.Fits) (hversion : d.version = documentVersion) :
    read d.write = .ok d := by
  have hlimit : d.version < versionLimit := by
    rw [hversion]
    decide
  unfold read write
  rw [Json.parse_pretty]
  simp only [Option.bind_some, ofJson?_toJson h hlimit, hversion, ↓reduceIte]

end Document

/-! ## Graphs without slack -/

namespace Graph

/-- No counter is higher than the ids ask for, and no vertex has an empty list of edges. -/
structure Tight (g : Graph) : Prop where
  nextVertex_le : ∀ n, (∀ v ∈ allVertices g, v.id < n) → g.nextVertex ≤ n
  nextEdge_le : ∀ n, (∀ e ∈ allEdges g, e.id < n) → g.nextEdge ≤ n
  leaving : ∀ x : VertexId, g.leaving[x]? ≠ some []
  entering : ∀ x : VertexId, g.entering[x]? ≠ some []

theorem tight_empty (name : String) : (empty name).Tight where
  nextVertex_le _ _ := Nat.zero_le _
  nextEdge_le _ _ := Nat.zero_le _
  leaving x := by simp [empty]
  entering x := by simp [empty]

variable {g g' : Graph}

namespace Tight

theorem insertVertex (h : g.Tight) (hg : g.Coherent) (v : Vertex) : (g.insertVertex v).Tight where
  nextVertex_le n hn := by
    have hv : v.id < n := hn v (hg.mem_insertVertex.2 (.inl rfl))
    refine Nat.max_le.2 ⟨h.nextVertex_le n fun u hu => ?_, hv⟩
    by_cases huv : u.id = v.id
    · exact huv ▸ hv
    · exact hn u (hg.mem_insertVertex.2 (.inr ⟨hu, huv⟩))
  nextEdge_le := h.nextEdge_le
  leaving := h.leaving
  entering := h.entering

theorem attach (h : g.Tight) (hg : g.Coherent) {e : Edge} (he : g.nextEdge ≤ e.id) :
    (g.attach e).Tight where
  nextVertex_le := h.nextVertex_le
  nextEdge_le n hn := by
    rw [hg.allEdges_attach he] at hn
    exact Nat.max_le.2 ⟨h.nextEdge_le n fun d hd => hn d (List.mem_append_left _ hd),
      hn e (List.mem_append_right _ List.mem_cons_self)⟩
  leaving x := by
    simp only [Graph.attach, ExtTreeMap.getElem?_alter, Nat.compare_eq_eq]
    split_ifs with hx
    · simp
    · exact h.leaving x
  entering x := by
    simp only [Graph.attach, ExtTreeMap.getElem?_alter, Nat.compare_eq_eq]
    split_ifs with hx
    · simp
    · exact h.entering x

theorem foldl_insertVertex : ∀ (vs : List Vertex) {g : Graph}, g.Tight → g.Coherent →
    (vs.foldl Graph.insertVertex g).Tight
  | [], _, h, _ => h
  | v :: vs, _, h, hg => foldl_insertVertex vs (h.insertVertex hg v) (hg.insertVertex v)

theorem foldl_attach : ∀ (es : List Edge) {g : Graph}, g.Tight → g.Coherent →
    es.Pairwise (fun d e => d.id < e.id) → (∀ e ∈ es, g.nextEdge ≤ e.id) →
      (es.foldl Graph.attach g).Tight
  | [], _, h, _, _, _ => h
  | e :: es, _, h, hg, hes, hge => by
    obtain ⟨he, hes⟩ := List.pairwise_cons.1 hes
    have hege := hge e List.mem_cons_self
    exact foldl_attach es (h.attach hg hege) (hg.attach hege) hes fun d hd =>
      Nat.max_le.2 ⟨hge d (List.mem_cons_of_mem _ hd), he d hd⟩

end Tight

/-- Adjacency without empty lists follows from the edges. -/
theorem eq_of_getD_eq {m m' : ExtTreeMap VertexId (List EdgeId)}
    (h : ∀ x : VertexId, m[x]? ≠ some []) (h' : ∀ x : VertexId, m'[x]? ≠ some [])
    (heq : ∀ x : VertexId, m[x]?.getD [] = m'[x]?.getD []) : m = m' := by
  refine ExtTreeMap.ext_getElem? fun x => ?_
  have heqx := heq x
  rcases hm : m[x]? with _ | ids
  · rcases hm' : m'[x]? with _ | ids'
    · rfl
    · rw [hm, hm'] at heqx
      have hnil : [] = ids' := heqx
      exact absurd (hnil ▸ hm') (h' x)
  · rcases hm' : m'[x]? with _ | ids'
    · rw [hm, hm'] at heqx
      have hnil : ids = [] := heqx
      exact absurd (hnil ▸ hm) (h x)
    · rw [hm, hm'] at heqx
      exact congrArg some heqx

theorem edges_eq_of_coherent (h : g.Coherent) (h' : g'.Coherent)
    (heq : allEdges g = allEdges g') : g.edges = g'.edges :=
  eq_of_values_eq (fun _ _ he => h.edge_id he) (fun _ _ he => h'.edge_id he) heq

theorem vertices_eq_of_coherent (h : g.Coherent) (h' : g'.Coherent)
    (heq : allVertices g = allVertices g') : g.vertices = g'.vertices :=
  eq_of_values_eq (fun _ _ hv => h.vertex_id hv) (fun _ _ hv => h'.vertex_id hv) heq

/-- A coherent graph without slack is told by its name, its vertices and its edges. -/
theorem ext_of_tight (h : g.Coherent) (h' : g'.Coherent) (ht : g.Tight) (ht' : g'.Tight)
    (hname : g.name = g'.name) (hv : g.vertices = g'.vertices)
    (he : allEdges g = allEdges g') : g = g' := by
  have hvs : allVertices g = allVertices g' := congrArg ExtTreeMap.values hv
  refine ext_of_coherent h h' hname ?_ ?_ hv (edges_eq_of_coherent h h' he) ?_ ?_ ?_
  · refine Nat.le_antisymm (ht.nextVertex_le _ fun v hmem => ?_)
      (ht'.nextVertex_le _ fun v hmem => ?_)
    · exact h'.vertex_id_lt (hvs ▸ hmem)
    · exact h.vertex_id_lt (hvs ▸ hmem)
  · refine Nat.le_antisymm (ht.nextEdge_le _ fun e hmem => ?_)
      (ht'.nextEdge_le _ fun e hmem => ?_)
    · exact h'.edge_id_lt (he ▸ hmem)
    · exact h.edge_id_lt (he ▸ hmem)
  · exact eq_of_getD_eq ht.leaving ht'.leaving fun x => by rw [h.leaving, h'.leaving, he]
  · exact eq_of_getD_eq ht.entering ht'.entering fun x => by rw [h.entering, h'.entering, he]
  · refine ExtTreeSet.ext_mem fun l => ?_
    rw [h.links, h'.links, he]

/-! ## Capturing and rebuilding -/

theorem eq_of_mem_of_ascending {vs : List Vertex} (h : vs.Pairwise fun u v => u.id < v.id)
    {u v : Vertex} (hu : u ∈ vs) (hv : v ∈ vs) (heq : u.id = v.id) : u = v :=
  List.inj_on_of_nodup_map (List.pairwise_map.2 (h.imp Nat.ne_of_lt)) hu hv heq

/-- A graph into which records went in the order of their ids has these and no others. -/
theorem records_spec {n : Nat} {vs : List Vertex} {es : List Edge} (name : String)
    (hvs : vs.Pairwise fun u v => u.id < v.id) (hes : es.Pairwise fun d e => d.id < e.id)
    (hn : ∀ e ∈ es, e.id < n) :
    let r := es.foldl attach (vs.foldl Graph.insertVertex (.empty name))
    r.Coherent ∧ r.Tight ∧ r.name = name ∧ allVertices r = vs ∧ allEdges r = es := by
  intro r
  have hempty := coherent_empty name
  have hvg := coherent_foldl_insertVertex vs hempty
  obtain ⟨hnone, -, -, -, hnext⟩ := foldl_insertVertex_edges vs (.empty name)
  have hge : ∀ e ∈ es, (vs.foldl Graph.insertVertex (.empty name)).nextEdge ≤ e.id := fun e _ =>
    le_of_eq_of_le hnext (Nat.zero_le _)
  obtain ⟨hr, hedges, -⟩ :=
    coherent_foldl_attach es hvg hes hge (le_of_eq_of_le hnext (Nat.zero_le _)) hn
  refine ⟨hr, Tight.foldl_attach es (Tight.foldl_insertVertex vs (tight_empty name) hempty) hvg
    hes hge, ?_, ?_, ?_⟩
  · exact (foldl_attach_name _ _).trans (foldl_insertVertex_name _ _)
  · refine eq_of_ascending Vertex.id hr.vertices_ascending hvs fun v => ?_
    have hread : vertex? r v.id = vs.find? (·.id == v.id) := by
      show r.vertices[v.id]? = _
      rw [(foldl_attach_vertices _ _).1, foldl_insertVertex_getElem? v.id vs _ hvs]
      simp [Graph.empty]
    rw [hr.mem_allVertices, hread]
    refine ⟨List.mem_of_find?_eq_some, fun hv => ?_⟩
    obtain ⟨u, hu⟩ := Option.isSome_iff_exists.1
      (List.find?_isSome (p := (·.id == v.id)).2 ⟨v, hv, beq_self_eq_true v.id⟩)
    rw [hu, eq_of_mem_of_ascending hvs (List.mem_of_find?_eq_some hu) hv
      (by simpa using List.find?_some hu)]
  · have hnil : allEdges (vs.foldl Graph.insertVertex (.empty name)) = [] :=
      (congrArg ExtTreeMap.values hnone).trans (allEdges_empty name)
    rw [hedges, hnil, List.nil_append]

/-- The graph rebuilt from the records of a graph is that graph. -/
theorem toGraph_capture (h : g.WellFormed) (ht : g.Tight) : g.capture.toGraph g.name = .ok g := by
  refine Document.toGraph_eq_ok_iff.2 ⟨h.closed, ?_⟩
  obtain ⟨hr, htight, hname, hvs, hes⟩ := records_spec g.name h.vertices_ascending
    h.edges_ascending fun e he => h.edge_id_lt he
  exact ext_of_tight h.toCoherent hr ht htight hname.symm
    (vertices_eq_of_coherent h.toCoherent hr hvs.symm) hes.symm

theorem fits_capture (h : g.WellFormed) (hv : g.nextVertex ≤ Document.idLimit)
    (he : g.nextEdge ≤ Document.idLimit) : g.capture.Fits where
  vertices v hmem := Nat.lt_of_lt_of_le (h.vertex_id_lt hmem) hv
  edges e hmem := by
    obtain ⟨⟨u, hu, hsource⟩, w, hw, htarget⟩ := h.closed e hmem
    refine ⟨Nat.lt_of_lt_of_le (h.edge_id_lt hmem) he, ?_, ?_⟩
    · exact hsource ▸ Nat.lt_of_lt_of_le (h.vertex_id_lt hu) hv
    · exact htarget ▸ Nat.lt_of_lt_of_le (h.vertex_id_lt hw) hv

/-- Loading an exported graph gives the graph back. -/
theorem load_exportText (h : g.WellFormed) (ht : g.Tight) (hv : g.nextVertex ≤ Document.idLimit)
    (he : g.nextEdge ≤ Document.idLimit) : load g.name g.exportText = .ok g := by
  unfold load exportText
  rw [Document.read_write (fits_capture h hv he) rfl]
  exact toGraph_capture h ht

/-! ## Graphs with a history -/

theorem WellFormed.write (h : g.WellFormed) (c : Call) : (g.write c).WellFormed := by
  obtain ⟨hall, -, hcommit⟩ := h.performAll_begin [c]
  have hwrite : (g.begin.performAll [c]).commit = g.write c := hcommit
  exact hwrite ▸ hall.wellFormed_commit

/-- A call puts in a vertex or an edge, or does nothing. -/
theorem write_cases (g : Graph) (c : Call) : (∃ v, g.write c = g.insertVertex v)
    ∨ (∃ e, e.id = g.nextEdge ∧ g.write c = g.attach e) ∨ g.write c = g := by
  cases c with
  | addVertex label ps => exact .inl ⟨_, rfl⟩
  | setProperty id key value =>
    simp only [write]
    split
    · exact .inl ⟨_, rfl⟩
    · exact .inr (.inr rfl)
  | addEdge label source target ps =>
    simp only [write]
    split_ifs
    · exact .inr (.inl ⟨_, rfl, rfl⟩)
    · exact .inr (.inr rfl)

theorem Tight.write (h : g.Tight) (hg : g.Coherent) (c : Call) : (g.write c).Tight := by
  rcases write_cases g c with ⟨v, heq⟩ | ⟨e, he, heq⟩ | heq
  · rw [heq]
    exact h.insertVertex hg v
  · rw [heq]
    exact h.attach hg (Nat.le_of_eq he.symm)
  · rwa [heq]

theorem Tight.writeAll : ∀ (cs : List Call) {g : Graph}, g.Tight → g.WellFormed →
    (g.writeAll cs).Tight
  | [], _, h, _ => h
  | c :: cs, _, h, hg => writeAll cs (h.write hg.toCoherent c) (hg.write c)

theorem Tight.after : ∀ (history : List Episode) {g : Graph}, g.Tight → g.WellFormed →
    (g.after history).Tight
  | [], _, h, _ => h
  | e :: history, g, h, hg => by
    have htake : (g.take e).Tight := by
      rw [hg.take_eq]
      exact h.writeAll _ hg
    exact Tight.after history htake (hg.take e)

/-- All ids given so far have room in a document. -/
def Numbered (g : Graph) : Prop :=
  g.nextVertex ≤ Document.idLimit ∧ g.nextEdge ≤ Document.idLimit

instance (g : Graph) : Decidable g.Numbered := inferInstanceAs (Decidable (_ ∧ _))

/-- A write does not lower a counter. -/
theorem Numbered.of_write {c : Call} (h : (g.write c).Numbered) : g.Numbered := by
  rcases write_cases g c with ⟨v, heq⟩ | ⟨e, -, heq⟩ | heq
  · rw [heq] at h
    exact ⟨Nat.le_trans (Nat.le_max_left _ _) h.1, h.2⟩
  · rw [heq] at h
    exact ⟨h.1, Nat.le_trans (Nat.le_max_left _ _) h.2⟩
  · rwa [heq] at h

theorem Numbered.of_writeAll : ∀ (cs : List Call) {g : Graph}, (g.writeAll cs).Numbered →
    g.Numbered
  | [], _, h => h
  | _ :: cs, _, h => (of_writeAll cs h).of_write

theorem Numbered.of_after : ∀ (history : List Episode) {g : Graph}, g.WellFormed →
    (g.after history).Numbered → g.Numbered
  | [], _, _, h => h
  | e :: history, g, hg, h => by
    have htake : (g.take e).Numbered := Numbered.of_after history (hg.take e) h
    rw [hg.take_eq] at htake
    exact htake.of_writeAll

theorem name_write (g : Graph) (c : Call) : (g.write c).name = g.name := by
  rcases write_cases g c with ⟨v, heq⟩ | ⟨e, -, heq⟩ | heq <;> rw [heq] <;> rfl

theorem name_writeAll : ∀ (cs : List Call) (g : Graph), (g.writeAll cs).name = g.name
  | [], _ => rfl
  | c :: cs, g => (name_writeAll cs (g.write c)).trans (name_write g c)

theorem name_after : ∀ (history : List Episode) {g : Graph}, g.WellFormed →
    (g.after history).name = g.name
  | [], _, _ => rfl
  | e :: history, g, hg => by
    refine (name_after history (hg.take e)).trans ?_
    rw [hg.take_eq, name_writeAll]

end Graph

/-- The export of a graph with a history loads to the same graph. -/
theorem load_exportText_after (name : String) (history : List Episode)
    (h : ((Graph.empty name).after history).Numbered) :
    Graph.load name ((Graph.empty name).after history).exportText
      = .ok ((Graph.empty name).after history) := by
  have hempty := Graph.wellFormed_empty name
  have hname : ((Graph.empty name).after history).name = name := Graph.name_after history hempty
  have hload := Graph.load_exportText (hempty.after history)
    ((Graph.tight_empty name).after history hempty) h.1 h.2
  rwa [hname] at hload

end Lineage
