import Lineage.Proofs.Reloading
import Lineage.Proofs.Stored

/-!
# The canonical text of a graph

A document may give its records in any order and an id more than once. The export of the graph that
it loads to settles that: it has the last record of each id, by id (`Document.Settles`). Such a
document is rebuilt into a graph with just these records (`Graph.records_spec`), so loading the
export and exporting again changes nothing of the text (`documents_canonical`).
-/

namespace Lineage

open Std

/-! ## Last records -/

/-- A member of a list with none of the same rank behind it. -/
def IsLast {α : Type} (rank : α → Nat) (l : List α) (a : α) : Prop :=
  ∃ before after, l = before ++ a :: after ∧ ∀ b ∈ after, rank b ≠ rank a

theorem find?_reverse_eq_some_iff {α : Type} {rank : α → Nat} {l : List α} {a : α} :
    l.reverse.find? (rank · == rank a) = some a ↔ IsLast rank l a := by
  rw [List.find?_eq_some_iff_append]
  constructor
  · rintro ⟨-, after, before, hl, hafter⟩
    refine ⟨before.reverse, after.reverse, ?_, fun b hb => ?_⟩
    · rw [← List.reverse_reverse l, hl]
      simp
    · simpa using hafter b (List.mem_reverse.1 hb)
  · rintro ⟨before, after, rfl, hafter⟩
    refine ⟨beq_self_eq_true _, after.reverse, before.reverse, by simp, fun b hb => ?_⟩
    simpa using hafter b (List.mem_reverse.1 hb)

theorem IsLast.mem {α : Type} {rank : α → Nat} {l : List α} {a : α} (h : IsLast rank l a) :
    a ∈ l := by
  obtain ⟨before, after, rfl, -⟩ := h
  exact List.mem_append_right _ List.mem_cons_self

/-- A document has the last record of each id of another, by id. -/
structure Document.Settles (d' d : Document) : Prop where
  vertices_ascending : d'.vertices.Pairwise fun u v => u.id < v.id
  edges_ascending : d'.edges.Pairwise fun e f => e.id < f.id
  mem_vertices : ∀ v, v ∈ d'.vertices ↔ IsLast Vertex.id d.vertices v
  mem_edges : ∀ e, e ∈ d'.edges ↔ IsLast Edge.id d.edges e

/-! ## What is read fits -/

namespace Json

theorem lt_of_asNat? {limit n : Nat} {j : Json} (h : j.asNat? limit = some n) : n < limit := by
  cases j with
  | num d => simpa using (Option.filter_eq_some_iff.1 h).2
  | _ => cases h

theorem lt_of_nat? {limit n : Nat} {name : String} {ms : List (String × Json)}
    (h : nat? limit name ms = some n) : n < limit := by
  obtain ⟨j, -, hj⟩ := Option.bind_eq_some_iff.1 h
  exact lt_of_asNat? hj

theorem exists_of_mem_mapM {α β : Type} {f : β → Option α} : ∀ {js : List β} {as : List α},
    js.mapM f = some as → ∀ a ∈ as, ∃ j ∈ js, f j = some a
  | [], as, h, a, ha => by
    cases h
    cases ha
  | j :: js, as, h, a, ha => by
    rw [List.mapM_cons] at h
    obtain ⟨a₁, hj, h⟩ := Option.bind_eq_some_iff.1 h
    obtain ⟨as₁, hjs, h⟩ := Option.bind_eq_some_iff.1 h
    cases h
    rcases List.mem_cons.1 ha with rfl | ha
    · exact ⟨j, List.mem_cons_self, hj⟩
    · obtain ⟨j', hj', ha⟩ := exists_of_mem_mapM hjs a ha
      exact ⟨j', List.mem_cons_of_mem _ hj', ha⟩

theorem exists_of_mem_list? {α : Type} {read : Json → Option α} {name : String}
    {ms : List (String × Json)} {as : List α} (h : list? read name ms = some as) {a : α}
    (ha : a ∈ as) : ∃ j, read j = some a := by
  obtain ⟨j, -, h⟩ := Option.bind_eq_some_iff.1 h
  obtain ⟨xs, -, h⟩ := Option.bind_eq_some_iff.1 h
  obtain ⟨x, -, hx⟩ := exists_of_mem_mapM h a ha
  exact ⟨x, hx⟩

end Json

namespace Document

theorem lt_of_vertexOfJson? {j : Json} {v : Vertex} (h : vertexOfJson? j = some v) :
    v.id < idLimit := by
  obtain ⟨ms, -, h⟩ := Option.bind_eq_some_iff.1 h
  obtain ⟨id, hid, h⟩ := Option.bind_eq_some_iff.1 h
  obtain ⟨label, -, h⟩ := Option.bind_eq_some_iff.1 h
  obtain ⟨ps, -, h⟩ := Option.bind_eq_some_iff.1 h
  cases h
  exact Json.lt_of_nat? hid

theorem lt_of_edgeOfJson? {j : Json} {e : Edge} (h : edgeOfJson? j = some e) :
    e.id < idLimit ∧ e.source < idLimit ∧ e.target < idLimit := by
  obtain ⟨ms, -, h⟩ := Option.bind_eq_some_iff.1 h
  obtain ⟨id, hid, h⟩ := Option.bind_eq_some_iff.1 h
  obtain ⟨label, -, h⟩ := Option.bind_eq_some_iff.1 h
  obtain ⟨source, hsource, h⟩ := Option.bind_eq_some_iff.1 h
  obtain ⟨target, htarget, h⟩ := Option.bind_eq_some_iff.1 h
  obtain ⟨ps, -, h⟩ := Option.bind_eq_some_iff.1 h
  cases h
  exact ⟨Json.lt_of_nat? hid, Json.lt_of_nat? hsource, Json.lt_of_nat? htarget⟩

theorem fits_of_ofJson? {j : Json} {d : Document} (h : ofJson? j = some d) : d.Fits := by
  obtain ⟨ms, -, h⟩ := Option.bind_eq_some_iff.1 h
  obtain ⟨version, -, h⟩ := Option.bind_eq_some_iff.1 h
  obtain ⟨name, -, h⟩ := Option.bind_eq_some_iff.1 h
  obtain ⟨vs, hvs, h⟩ := Option.bind_eq_some_iff.1 h
  obtain ⟨es, hes, h⟩ := Option.bind_eq_some_iff.1 h
  cases h
  refine ⟨fun v hv => ?_, fun e he => ?_⟩
  · obtain ⟨j, hj⟩ := Json.exists_of_mem_list? hvs hv
    exact lt_of_vertexOfJson? hj
  · obtain ⟨j, hj⟩ := Json.exists_of_mem_list? hes he
    exact lt_of_edgeOfJson? hj

theorem fits_of_read {text : String} {d : Document} (h : read text = .ok d) : d.Fits := by
  unfold read at h
  split at h
  · cases h
  · next d' hd =>
    obtain ⟨j, -, hj⟩ := Option.bind_eq_some_iff.1 hd
    split_ifs at h
    cases h
    exact fits_of_ofJson? hj

end Document

/-! ## Loading and exporting again -/

/-- The captured records of a stored graph make up a graph of their own, which is captured by the
same ones. -/
theorem Graph.Sound.exists_toGraph_capture {g : Graph} (h : g.Sound) (hfits : g.capture.Fits) :
    ∃ g', g.capture.toGraph g.name = .ok g' ∧ g'.capture = g.capture := by
  have hascending : (Readable.allEdges g).Pairwise fun d e => d.id < e.id :=
    values_ascending fun _ _ he => h.edge_id he
  obtain ⟨-, -, hname, hvs, hes⟩ := records_spec g.name h.vertices_ascending hascending
    fun e he => (hfits.edges e he).1
  refine ⟨_, Document.toGraph_eq_ok_iff.2 ⟨fun e he => ?_, rfl⟩, ?_⟩
  · obtain ⟨i, hi⟩ := mem_values.1 he
    have hread : ∀ {x : VertexId}, x ∈ g.vertices → ∃ v ∈ allVertices g, v.id = x := by
      intro x hx
      obtain ⟨v, hv⟩ := Option.isSome_iff_exists.1 (ExtTreeMap.isSome_getElem?_iff_mem.2 hx)
      exact ⟨v, h.vertex?_eq_some_iff.1 hv⟩
    exact (h.ends hi).imp hread hread
  · simp only [capture, Document.mk.injEq, true_and]
    exact ⟨hname, hvs, hes⟩

section Loaded

variable {d : Document} {name : String} {g : Graph} (h : d.toGraph name = .ok g)

include h

namespace Graph

theorem name_load : g.name = name := by
  obtain ⟨-, rfl⟩ := Document.toGraph_eq_ok_iff.1 h
  exact (foldl_attach_name _ _).trans (foldl_insertVertex_name _ _)

theorem vertices_load (i : VertexId) :
    g.vertices[i]? = d.vertices.reverse.find? (·.id == i) := by
  obtain ⟨-, rfl⟩ := Document.toGraph_eq_ok_iff.1 h
  rw [(foldl_attach_vertices _ _).1, foldl_insertVertex_vertices, getElem?_foldl_insert_rank]
  exact Option.or_none

theorem settles_capture : g.capture.Settles d where
  vertices_ascending := (Sound.load h).vertices_ascending
  edges_ascending := allEdges_load_ascending h
  mem_vertices v := by
    show v ∈ allVertices g ↔ _
    rw [(Sound.load h).mem_allVertices, ← find?_reverse_eq_some_iff, ← vertices_load h]
    rfl
  mem_edges e := (mem_allEdges_load h e).trans find?_reverse_eq_some_iff

theorem fits_capture_load (hfits : d.Fits) : g.capture.Fits where
  vertices v hv := hfits.vertices v (((settles_capture h).mem_vertices v).1 hv).mem
  edges e he := hfits.edges e (((settles_capture h).mem_edges e).1 he).mem

/-- The captured records make up a graph of their own, which is captured by the same ones. -/
theorem exists_toGraph_capture (hfits : d.Fits) : ∃ g', g.capture.toGraph name = .ok g'
    ∧ g'.capture = g.capture := by
  have hname := name_load h
  subst hname
  exact (Sound.load h).exists_toGraph_capture (fits_capture_load h hfits)

end Graph

end Loaded

/-- What a loaded text is exported as: a document with the last record of each id, by id, which
loads again and is exported as it is. -/
structure Graph.ExportsSettled (g : Graph) (name text : String) : Prop where
  settles : ∃ d d', Document.read text = .ok d ∧ Document.read g.exportText = .ok d'
    ∧ g.exportText = d'.write ∧ d'.graph = name ∧ d'.Settles d
  again : ∃ g', Graph.load name g.exportText = .ok g' ∧ g'.exportText = g.exportText

theorem Graph.exportsSettled_of_load {name text : String} {g : Graph}
    (h : Graph.load name text = .ok g) : g.ExportsSettled name text := by
  obtain ⟨d, hread, hload⟩ := exists_of_bind_ok h
  have hfits := Document.fits_of_read hread
  have hexport : Document.read g.exportText = .ok g.capture :=
    Document.read_write (fits_capture_load hload hfits) rfl
  obtain ⟨g', hagain, hcapture⟩ := exists_toGraph_capture hload hfits
  refine ⟨⟨d, g.capture, hread, hexport, rfl, name_load hload, settles_capture hload⟩, g', ?_, ?_⟩
  · exact (bind_of_ok hexport _).trans hagain
  · exact congrArg Document.write hcapture

/-- A document of the current version is read back from its text; it loads exactly if it has a
record for every end of an edge; and a text that loads is exported in one settled form. -/
theorem documents_canonical :
    (∀ d : Document, d.Fits → d.version = documentVersion → Document.read d.write = .ok d)
      ∧ (∀ (d : Document) (name : String), (∃ g, d.toGraph name = .ok g) ↔ ∀ e ∈ d.edges,
        (∃ v ∈ d.vertices, v.id = e.source) ∧ ∃ v ∈ d.vertices, v.id = e.target)
      ∧ ∀ (name text : String) (g : Graph), Graph.load name text = .ok g →
        g.ExportsSettled name text := by
  refine ⟨fun d => Document.read_write, fun d name => ⟨?_, fun hends => ?_⟩,
    fun name text g => Graph.exportsSettled_of_load⟩
  · rintro ⟨g, hg⟩
    exact (Document.toGraph_eq_ok_iff.1 hg).1
  · exact ⟨_, Document.toGraph_eq_ok_iff.2 ⟨hends, rfl⟩⟩

/-- Records out of order, two of them replaced, under a label that needs escapes. -/
def shuffledDocument : Document where
  version := documentVersion
  graph := "main"
  vertices := [⟨2, "Column", ∅⟩, ⟨0, "\"a\\\n\u0001😀\"", ∅⟩, ⟨2, "Table", ∅⟩]
  edges := [⟨1, "IncludedIn", 0, 0, ∅⟩, ⟨0, "IncludedIn", 2, 0, ∅⟩, ⟨1, "IncludedIn", 0, 2, ∅⟩]

theorem documents_canonical_shuffledDocument :
    shuffledDocument.Fits ∧ Document.read shuffledDocument.write = .ok shuffledDocument
      ∧ (∃ g, shuffledDocument.toGraph "main" = .ok g)
      ∧ ∃ g, Graph.load "main" shuffledDocument.write = .ok g
        ∧ g.ExportsSettled "main" shuffledDocument.write := by
  obtain ⟨hreads, hloads, hexports⟩ := documents_canonical
  have hfits : shuffledDocument.Fits := ⟨by decide, by decide⟩
  have hread := hreads shuffledDocument hfits rfl
  obtain ⟨g, hg⟩ := (hloads shuffledDocument "main").2 (by decide)
  have hload : Graph.load "main" shuffledDocument.write = .ok g := (bind_of_ok hread _).trans hg
  exact ⟨hfits, hread, ⟨g, hg⟩, g, hload, hexports "main" _ g hload⟩

example : (shuffledDocument.toGraph "main").toOption.map (fun g =>
    (g.capture.vertices.map (fun v => (v.id, v.label == "Table")), g.capture.edges.map (·.target)))
      = some ([(0, false), (2, true)], [0, 2]) := by
  decide +kernel

end Lineage
