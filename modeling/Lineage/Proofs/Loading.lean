import Lineage.Graph.Document
import Lineage.Proofs.Overlay
import Mathlib.Data.List.Nodup

/-!
# Graphs from documents

A document is loaded if all ends of its edges are vertices of it, and then its records have gone in
one by one (`toGraph_eq_ok_iff`). Of the records with one id the last counts, for vertices and for
edges. The property index keeps up with that, but attaching an edge does not take the old one out:
each record stays in adjacency and links, where it shows the last edge of its id
(`edgesAt_outward_load`, `hasEdge_load`). So the indexes of a loaded graph say what a scan says
exactly if no edge id is repeated (`lawful_iff_nodup`).
-/

namespace Lineage

open Std Document

namespace Graph

/-! ## Attaching edges one by one -/

theorem foldl_attach_index : ∀ (es : List Edge) (g : Graph),
    (es.foldl attach g).index = g.index
  | [], _ => rfl
  | e :: es, g => foldl_attach_index es (g.attach e)

/-- The last record of an id. -/
def lastRecord (es : List Edge) (i : EdgeId) : Option Edge := es.reverse.find? (·.id == i)

variable {es : List Edge} {i : EdgeId} {e : Edge}

theorem lastRecord_mem (h : lastRecord es i = some e) : e ∈ es ∧ e.id = i :=
  ⟨List.mem_reverse.1 (List.mem_of_find?_eq_some h), by simpa using List.find?_some h⟩

theorem exists_lastRecord (h : e ∈ es) : ∃ d, lastRecord es e.id = some d := by
  rcases hd : lastRecord es e.id with _ | d
  · exact absurd (beq_self_eq_true e.id)
      (by simpa using List.find?_eq_none.1 hd e (List.mem_reverse.2 h))
  · exact ⟨d, rfl⟩

theorem lastRecord_of_nodup (hnd : (es.map Edge.id).Nodup) (h : e ∈ es) :
    lastRecord es e.id = some e := by
  obtain ⟨d, hd⟩ := exists_lastRecord h
  obtain ⟨hmem, hid⟩ := lastRecord_mem hd
  rw [hd, List.inj_on_of_nodup_map hnd hmem h hid]

/-- Where no id is repeated, the last record of an id is the only one. -/
theorem filterMap_lastRecord (hnd : (es.map Edge.id).Nodup) (p : Edge → Bool) :
    ((es.filter p).filterMap fun r => lastRecord es r.id) = es.filter p := by
  have hself : ∀ r ∈ es.filter p, lastRecord es r.id = some r := fun r hr =>
    lastRecord_of_nodup hnd (List.mem_filter.1 hr).1
  rw [List.filterMap_congr hself, List.filterMap_some]

theorem getElem?_foldl_attach_edges (i : EdgeId) (es : List Edge) (g : Graph) :
    (es.foldl attach g).edges[i]? = (lastRecord es i).or g.edges[i]? := by
  rw [foldl_attach_edges, getElem?_foldl_insert_rank]
  rfl

/-- Adjacency lists the ids of all records, in their order. -/
theorem getElem?_foldl_alter (side : Edge → VertexId) (x : VertexId) : ∀ (es : List Edge)
    (m : ExtTreeMap VertexId (List EdgeId)),
    (es.foldl (fun m e => m.alter (side e) fun ids => some (ids.getD [] ++ [e.id])) m)[x]?.getD []
      = m[x]?.getD [] ++ (es.filter (side · == x)).map Edge.id
  | [], m => by simp
  | e :: es, m => by
    rw [List.foldl_cons, getElem?_foldl_alter side x es, ExtTreeMap.getElem?_alter]
    by_cases hx : side e = x
    · simp [hx]
    · simp [hx]

theorem mem_foldl_insert_link (l : Link) : ∀ (es : List Edge) (ls : ExtTreeSet Link),
    l ∈ es.foldl (fun ls e => ls.insert ⟨e.source, e.target, e.label⟩) ls
      ↔ l ∈ ls ∨ ∃ e ∈ es, (⟨e.source, e.target, e.label⟩ : Link) = l
  | [], ls => by simp
  | e :: es, ls => by
    rw [List.foldl_cons, mem_foldl_insert_link l es, ExtTreeSet.mem_insert, Std.compare_eq_iff_eq]
    simp only [List.mem_cons, exists_eq_or_imp, or_assoc]
    exact or_left_comm

end Graph

/-! ## Loading -/

namespace Document

open Lineage.Graph

theorem attachAll_eq_ok_iff {g' : Graph} : ∀ (es : List Edge) (g : Graph),
    attachAll g es = .ok g' ↔ (∀ e ∈ es, e.source ∈ g.vertices ∧ e.target ∈ g.vertices)
      ∧ g' = es.foldl attach g
  | [], g => by
    simp only [attachAll, Except.ok.injEq, List.not_mem_nil, false_implies, implies_true, true_and,
      List.foldl_nil]
    exact eq_comm
  | e :: es, g => by
    unfold attachAll
    split_ifs with hs ht
    · rw [Bool.not_eq_true', ← Bool.not_eq_true, ← ExtTreeMap.mem_iff_contains] at hs
      exact iff_of_false (fun h => nomatch h) fun h => hs (h.1 e List.mem_cons_self).1
    · rw [Bool.not_eq_true', ← Bool.not_eq_true, ← ExtTreeMap.mem_iff_contains] at ht
      exact iff_of_false (fun h => nomatch h) fun h => ht (h.1 e List.mem_cons_self).2
    · rw [Bool.not_eq_true', Bool.not_eq_false, ← ExtTreeMap.mem_iff_contains] at hs ht
      rw [attachAll_eq_ok_iff es, List.forall_mem_cons]
      exact and_congr_left' (and_iff_right ⟨hs, ht⟩).symm

theorem mem_foldl_insertVertex (i : VertexId) : ∀ (vs : List Vertex) (g : Graph),
    i ∈ (vs.foldl insertVertex g).vertices ↔ i ∈ g.vertices ∨ ∃ v ∈ vs, v.id = i
  | [], g => by simp
  | v :: vs, g => by
    rw [List.foldl_cons, mem_foldl_insertVertex i vs]
    simp only [insertVertex, ExtTreeMap.mem_insert, Nat.compare_eq_eq, List.mem_cons,
      exists_eq_or_imp, or_assoc]
    exact or_left_comm

/-- A document is loaded exactly if every end of an edge is a vertex of it. -/
theorem toGraph_eq_ok_iff {d : Document} {name : String} {g : Graph} :
    d.toGraph name = .ok g
      ↔ (∀ e ∈ d.edges, (∃ v ∈ d.vertices, v.id = e.source) ∧ ∃ v ∈ d.vertices, v.id = e.target)
        ∧ g = d.edges.foldl attach (d.vertices.foldl insertVertex (.empty name)) := by
  unfold toGraph
  rw [attachAll_eq_ok_iff]
  simp only [mem_foldl_insertVertex, Graph.empty, ExtTreeMap.not_mem_empty, false_or]

end Document

/-! ## Reading a loaded graph -/

/-- The law of the indexes: each look-up finds what a scan of all vertices or edges finds, and each
edge once. -/
structure Graph.Lawful (g : Graph) : Prop where
  verticesWith : ∀ key value,
    verticesWith g key value = (allVertices g).filter fun v => v.property? key == some value
  outward : ∀ x label, (edgesAt g x .outward label).Perm
    ((allEdges g).filter fun e => e.source == x && e.matches label)
  inward : ∀ x label, (edgesAt g x .inward label).Perm
    ((allEdges g).filter fun e => e.target == x && e.matches label)
  hasEdge : ∀ source label target, hasEdge g source label target = true
    ↔ ∃ e ∈ allEdges g, e.source = source ∧ e.label = label ∧ e.target = target

/-- What the look-ups of a loaded graph find, told by the records of its document: a vertex by its
last record, and at each record of an edge the last edge of that id, wherever that runs. -/
structure Graph.ReadsRecords (g : Graph) (d : Document) : Prop where
  verticesWith : ∀ key value,
    verticesWith g key value = (allVertices g).filter fun v => v.property? key == some value
  allEdges : ∀ e, e ∈ allEdges g ↔ lastRecord d.edges e.id = some e
  outward : ∀ x label, edgesAt g x .outward label
    = ((d.edges.filter (·.source == x)).filterMap fun r => lastRecord d.edges r.id).filter
      (Edge.matches label)
  inward : ∀ x label, edgesAt g x .inward label
    = ((d.edges.filter (·.target == x)).filterMap fun r => lastRecord d.edges r.id).filter
      (Edge.matches label)
  hasEdge : ∀ source label target, hasEdge g source label target = true
    ↔ ∃ r ∈ d.edges, r.source = source ∧ r.label = label ∧ r.target = target

section Loaded

variable {d : Document} {name : String} {g : Graph} (h : d.toGraph name = .ok g)

include h

namespace Graph

theorem edges_load (i : EdgeId) : g.edges[i]? = lastRecord d.edges i := by
  obtain ⟨-, rfl⟩ := toGraph_eq_ok_iff.1 h
  rw [getElem?_foldl_attach_edges, (foldl_insertVertex_edges _ _).1]
  exact Option.or_none

theorem verticesWith_load (key value : String) :
    Readable.verticesWith g key value
      = (Readable.allVertices g).filter fun v => v.property? key == some value := by
  obtain ⟨-, rfl⟩ := toGraph_eq_ok_iff.1 h
  have hcoherent : (d.vertices.foldl insertVertex (.empty name)).Coherent :=
    coherent_foldl_insertVertex _ (coherent_empty name)
  have hscan := hcoherent.verticesWith_eq key value
  show Graph.verticesWith _ key value = List.filter _ (ExtTreeMap.values _)
  unfold Graph.verticesWith
  rw [foldl_attach_index, (foldl_attach_vertices _ _).1]
  exact hscan

theorem leaving_load (x : VertexId) :
    g.leaving[x]?.getD [] = (d.edges.filter (·.source == x)).map Edge.id := by
  obtain ⟨-, rfl⟩ := toGraph_eq_ok_iff.1 h
  rw [foldl_attach_leaving, getElem?_foldl_alter Edge.source, (foldl_insertVertex_edges _ _).2.1]
  simp [Graph.empty]

theorem entering_load (x : VertexId) :
    g.entering[x]?.getD [] = (d.edges.filter (·.target == x)).map Edge.id := by
  obtain ⟨-, rfl⟩ := toGraph_eq_ok_iff.1 h
  rw [foldl_attach_entering, getElem?_foldl_alter Edge.target,
    (foldl_insertVertex_edges _ _).2.2.1]
  simp [Graph.empty]

theorem incident_outward_load (x : VertexId) : Readable.incident g x .outward
    = (d.edges.filter (·.source == x)).filterMap fun r => lastRecord d.edges r.id := by
  show List.filterMap (fun i => g.edges[i]?) (g.leaving[x]?.getD []) = _
  rw [leaving_load h, List.filterMap_map]
  exact List.filterMap_congr fun r _ => edges_load h r.id

theorem incident_inward_load (x : VertexId) : Readable.incident g x .inward
    = (d.edges.filter (·.target == x)).filterMap fun r => lastRecord d.edges r.id := by
  show List.filterMap (fun i => g.edges[i]?) (g.entering[x]?.getD []) = _
  rw [entering_load h, List.filterMap_map]
  exact List.filterMap_congr fun r _ => edges_load h r.id

theorem hasEdge_load (source : VertexId) (label : String) (target : VertexId) :
    Readable.hasEdge g source label target = true
      ↔ ∃ r ∈ d.edges, r.source = source ∧ r.label = label ∧ r.target = target := by
  obtain ⟨-, rfl⟩ := toGraph_eq_ok_iff.1 h
  show ExtTreeSet.contains _ _ = true ↔ _
  rw [← ExtTreeSet.mem_iff_contains, foldl_attach_links, mem_foldl_insert_link,
    (foldl_insertVertex_edges _ _).2.2.2.1]
  simp only [Graph.empty, ExtTreeSet.not_mem_empty, false_or, Link.mk.injEq]
  exact exists_congr fun r => and_congr_right fun _ => and_congr_right fun _ => And.comm

theorem mem_allEdges_load (e : Edge) :
    e ∈ Readable.allEdges g ↔ lastRecord d.edges e.id = some e := by
  show e ∈ g.edges.values ↔ _
  rw [mem_values]
  simp only [edges_load h]
  refine ⟨fun ⟨i, hi⟩ => ?_, fun he => ⟨e.id, he⟩⟩
  rw [(lastRecord_mem hi).2]
  exact hi

theorem allEdges_load_ascending : (Readable.allEdges g).Pairwise fun d e => d.id < e.id :=
  values_ascending fun i _ he => (lastRecord_mem ((edges_load h i).symm.trans he)).2

theorem readsRecords_load : g.ReadsRecords d where
  verticesWith := verticesWith_load h
  allEdges := mem_allEdges_load h
  outward x _ := congrArg (List.filter _) (incident_outward_load h x)
  inward x _ := congrArg (List.filter _) (incident_inward_load h x)
  hasEdge := hasEdge_load h

theorem allEdges_load_nodup : (Readable.allEdges g).Nodup :=
  (allEdges_load_ascending h).imp fun {a b} hlt heq => by
    rw [heq] at hlt
    exact Nat.lt_irrefl _ hlt

theorem perm_allEdges_load (hnd : (d.edges.map Edge.id).Nodup) :
    d.edges.Perm (Readable.allEdges g) := by
  refine (List.perm_ext_iff_of_nodup hnd.of_map (allEdges_load_nodup h)).2 fun e => ?_
  rw [mem_allEdges_load h]
  exact ⟨lastRecord_of_nodup hnd, fun he => (lastRecord_mem he).1⟩

theorem lawful_of_nodup (hnd : (d.edges.map Edge.id).Nodup) : g.Lawful where
  verticesWith := verticesWith_load h
  outward x label := by
    unfold edgesAt
    rw [incident_outward_load h, filterMap_lastRecord hnd, List.filter_filter]
    refine ((perm_allEdges_load h hnd).filter _).trans (.of_eq ?_)
    exact List.filter_congr fun e _ => Bool.and_comm _ _
  inward x label := by
    unfold edgesAt
    rw [incident_inward_load h, filterMap_lastRecord hnd, List.filter_filter]
    refine ((perm_allEdges_load h hnd).filter _).trans (.of_eq ?_)
    exact List.filter_congr fun e _ => Bool.and_comm _ _
  hasEdge source label target := by
    rw [hasEdge_load h]
    exact exists_congr fun e => and_congr_left' (perm_allEdges_load h hnd).mem_iff

/-- In a lawful graph the records at a vertex have different ids, for each shows an edge and no edge
is shown twice; and records of one id are at one vertex, the source of the edge they show. -/
theorem nodup_of_lawful (hlaw : g.Lawful) : (d.edges.map Edge.id).Nodup := by
  have hshown : ∀ x, ((d.edges.filter (·.source == x)).filterMap fun r =>
      lastRecord d.edges r.id).Perm ((Readable.allEdges g).filter (·.source == x)) := by
    intro x
    have hperm := hlaw.outward x none
    unfold edgesAt at hperm
    rw [incident_outward_load h] at hperm
    simpa [show Edge.matches none = fun _ => true from rfl] using hperm
  have hsource : ∀ {r e : Edge}, r ∈ d.edges → lastRecord d.edges r.id = some e →
      r.source = e.source := by
    intro r e hr he
    have hmem : e ∈ (d.edges.filter (·.source == r.source)).filterMap fun r =>
        lastRecord d.edges r.id :=
      List.mem_filterMap.2 ⟨r, List.mem_filter.2 ⟨hr, beq_self_eq_true _⟩, he⟩
    exact (beq_iff_eq.1 (List.mem_filter.1 ((hshown _).mem_iff.1 hmem)).2).symm
  have hnodup : ∀ x, ((d.edges.filter (·.source == x)).filterMap fun r =>
      lastRecord d.edges r.id).Nodup := fun x =>
    (hshown x).nodup_iff.2 ((allEdges_load_nodup h).filter _)
  refine List.pairwise_map.2 (List.pairwise_iff_forall_sublist.2 fun {a b} hab hid => ?_)
  have ha : a ∈ d.edges := hab.subset List.mem_cons_self
  have hb : b ∈ d.edges := hab.subset (List.mem_cons_of_mem _ List.mem_cons_self)
  obtain ⟨e, he⟩ := exists_lastRecord ha
  have hbe : lastRecord d.edges b.id = some e := hid ▸ he
  have hsub := (hab.filter (·.source == e.source)).filterMap fun r => lastRecord d.edges r.id
  simp only [List.filter_cons, hsource ha he, hsource hb hbe, beq_self_eq_true, ↓reduceIte,
    List.filter_nil, List.filterMap_cons, he, hbe, List.filterMap_nil] at hsub
  exact List.not_nodup_pair e ((hnodup e.source).sublist hsub)

end Graph

end Loaded

/-- The look-ups of a loaded graph follow the records of its document, replaced ones included. They
are those of the graph it holds exactly if no edge id is repeated. -/
theorem lawful_iff_nodup {d : Document} {name : String} {g : Graph} (h : d.toGraph name = .ok g) :
    g.ReadsRecords d ∧ (g.Lawful ↔ (d.edges.map Edge.id).Nodup) :=
  ⟨Graph.readsRecords_load h, Graph.nodup_of_lawful h, Graph.lawful_of_nodup h⟩

/-- A document with two edges of one id, the second the reverse of the first. -/
def reversedDocument : Document where
  version := documentVersion
  graph := "main"
  vertices := [⟨0, "Column", ∅⟩, ⟨1, "Column", ∅⟩]
  edges := [⟨0, "ColumnAndProcess", 0, 1, ∅⟩, ⟨0, "ColumnAndProcess", 1, 0, ∅⟩]

theorem lawful_iff_nodup_reversedDocument :
    ∃ g, reversedDocument.toGraph "main" = .ok g ∧ g.ReadsRecords reversedDocument
      ∧ (g.Lawful ↔ (reversedDocument.edges.map Edge.id).Nodup) := by
  have hload : reversedDocument.toGraph "main" = .ok _ :=
    Document.toGraph_eq_ok_iff.2 ⟨by decide, rfl⟩
  exact ⟨_, hload, lawful_iff_nodup hload⟩

/-- The edge that was replaced is still found at its source and among the links. -/
theorem not_lawful_reversedDocument :
    ∃ g, reversedDocument.toGraph "main" = .ok g ∧ hasEdge g 0 "ColumnAndProcess" 1 = true
      ∧ edgesAt g 0 .outward none = allEdges g ∧ (allEdges g).map Edge.source = [1]
      ∧ ¬ g.Lawful := by
  have hsources : (allEdges (reversedDocument.edges.foldl Graph.attach
      (reversedDocument.vertices.foldl Graph.insertVertex (.empty "main")))).map Edge.source
        = [1] := by
    decide +kernel
  refine ⟨_, rfl, by decide +kernel, by decide +kernel, hsources, fun hlaw => ?_⟩
  obtain ⟨e, he, hsource, -, -⟩ := (hlaw.hasEdge 0 "ColumnAndProcess" 1).1 (by decide +kernel)
  have hmem : e.source ∈ [1] := by
    rw [← hsources]
    exact List.mem_map_of_mem he
  rw [hsource] at hmem
  exact absurd hmem (by decide)

end Lineage
