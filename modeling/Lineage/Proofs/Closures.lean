import Lineage.Proofs.Expanding
import Lineage.Proofs.Reaching

/-!
# Closures

What is reached from a vertex is told by the edges alone: which vertices edges of the label lead to,
which edges those vertices meet, and which of them meet none (`Reach.IsClosure`). The last are found
without a look at any path, and still they are just the vertices where a simple path from the start
comes to an end that is not a cycle. In a graph with any history the search comes to that answer,
and more rounds would not change it (`exists_reach_after`).
-/

namespace Lineage

open Relation (ReflTransGen)

/-- An edge can be followed from a vertex in a direction. -/
def Edge.Meets (e : Edge) (d : Direction) (x : VertexId) : Prop :=
  match d with
  | .outward => e.source = x
  | .inward => e.target = x
  | .both => e.source = x ∨ e.target = x

namespace Graph

variable {g : Graph} {d : Direction} {label : String} {x : VertexId} {e : Edge}

/-- An edge of the label leads from one vertex to another. -/
def LeadsOver (g : Graph) (d : Direction) (label : String) : VertexId → VertexId → Prop :=
  g.Leads d fun e => e.label == label

/-- No edge of the label goes on from a vertex. -/
def EndsAt (g : Graph) (d : Direction) (label : String) (x : VertexId) : Prop :=
  ∀ e ∈ allEdges g, e.label = label → ¬ e.Meets d x

theorem Coherent.mem_incident_meets (h : g.Coherent) :
    e ∈ Readable.incident g x d ↔ e ∈ allEdges g ∧ e.Meets d x := by
  cases d
  · exact h.mem_incident_outward
  · exact h.mem_incident_inward
  · exact h.mem_incident_both

theorem Coherent.endsAt_iff (h : g.Coherent) :
    g.EndsAt d label x ↔ ∀ y, ¬ g.Onward d label x y := by
  constructor
  · rintro hend y ⟨e, he, -⟩
    obtain ⟨hinc, hlabel⟩ := mem_edgesAt.1 he
    obtain ⟨hmem, hmeets⟩ := h.mem_incident_meets.1 hinc
    exact hend e hmem hlabel hmeets
  · intro hend e hmem hlabel hmeets
    exact hend _ ⟨e, mem_edgesAt.2 ⟨h.mem_incident_meets.2 ⟨hmem, hmeets⟩, hlabel⟩, rfl⟩

end Graph

namespace Reach

/-- The vertices that edges of a label lead to from a start, nearer ones first, with the edges that
go on from them and the vertices where none does, which are the ends of the simple paths that cannot
be followed any farther. -/
structure IsClosure (g : Graph) (d : Direction) (label : String) (start : Vertex) (r : Reach) :
    Prop where
  head : r.vertices.head? = some start
  vertices_nodup : (r.vertices.map Vertex.id).Nodup
  mem_vertices : ∀ v, v ∈ r.vertices
    ↔ v ∈ allVertices g ∧ ReflTransGen (g.LeadsOver d label) start.id v.id
  ascending : r.vertices.Pairwise fun u v => NoFarther (g.LeadsOver d label) start.id u.id v.id
  edges_nodup : (r.edges.map Edge.id).Nodup
  mem_edges : ∀ e, e ∈ r.edges
    ↔ e ∈ allEdges g ∧ e.label = label ∧ ∃ v ∈ r.vertices, e.Meets d v.id
  terminals_sublist : r.terminals.Sublist r.vertices
  mem_terminals : ∀ v, v ∈ r.terminals ↔ v ∈ r.vertices ∧ g.EndsAt d label v.id
  mem_terminals_iff_path : ∀ v, v ∈ r.terminals ↔ v ∈ allVertices g
    ∧ (∃ p, IsSimplePath (g.LeadsOver d label) start.id v.id p) ∧ g.EndsAt d label v.id

variable {g : Graph} {d : Direction} {label : String} {start : Vertex} {r : Reach}

theorem Exact.isClosure (h : r.Exact g d label start) (hg : g.Coherent) :
    r.IsClosure g d label start := by
  have hvertices : ∀ v, v ∈ r.vertices
      ↔ v ∈ allVertices g ∧ ReflTransGen (g.LeadsOver d label) start.id v.id := by
    rw [Graph.LeadsOver, ← hg.onward_eq_leads]
    exact h.mem_vertices
  have hterminals : ∀ v, v ∈ r.terminals ↔ v ∈ r.vertices ∧ g.EndsAt d label v.id := by
    intro v
    rw [h.mem_terminals, hg.endsAt_iff]
  refine ⟨h.head, h.vertices_nodup, hvertices, ?_, h.edges_nodup, fun e => ?_,
    h.terminals_sublist, hterminals, fun v => ?_⟩
  · rw [Graph.LeadsOver, ← hg.onward_eq_leads]
    exact h.ascending
  · simp only [h.mem_edges, Graph.mem_edgesAt, hg.mem_incident_meets]
    constructor
    · rintro ⟨v, hv, ⟨he, hmeets⟩, hlabel⟩
      exact ⟨he, hlabel, v, hv, hmeets⟩
    · rintro ⟨he, hlabel, v, hv, hmeets⟩
      exact ⟨v, hv, ⟨he, hmeets⟩, hlabel⟩
  · rw [hterminals, hvertices, exists_isSimplePath_iff, and_assoc]

/-- In a graph with any history, cycles and repeated edges included, all that is reached from a
vertex is found, and the search is through when it is given up. -/
theorem exists_reach_after (name : String) (history : List Episode) (start : Vertex)
    (hstart : start ∈ allVertices ((Graph.empty name).after history)) (d : Direction)
    (label : String) :
    let g := (Graph.empty name).after history
    ∃ r, reach g start d label = .ok r ∧ r.IsClosure g d label start
      ∧ ∀ rounds > (allVertices g).length,
        closureFrom g d label rounds 0 [start] = .ok r.vertices := by
  intro g
  have hg : g.WellFormed := wellFormed_after_empty name history
  obtain ⟨r, hr, hexact⟩ := exists_reach hg hstart d label
  exact ⟨r, hr, hexact.isClosure hg.toCoherent,
    fun rounds hlt => closureFrom_of_reach hg hstart hr hlt⟩

theorem exists_reach_after_sampleRing :
    let g := (Graph.empty "main").after sampleRing
    let start : Vertex := ⟨0, "Column", ∅⟩
    start ∈ allVertices g
    ∧ ∃ r, reach g start .outward "ColumnAndProcess" = .ok r
      ∧ r.IsClosure g .outward "ColumnAndProcess" start
      ∧ ∀ rounds > (allVertices g).length,
        closureFrom g .outward "ColumnAndProcess" rounds 0 [start] = .ok r.vertices := by
  intro g start
  have hstart : start ∈ allVertices g := by decide +kernel
  exact ⟨hstart, exists_reach_after "main" sampleRing start hstart .outward "ColumnAndProcess"⟩

/-- The loop is among the edges, and only the way out of the ring comes to an end. -/
example : (reach ((Graph.empty "main").after sampleRing) ⟨0, "Column", ∅⟩ .outward
    "ColumnAndProcess").toOption.map (fun r => (r.vertices.map Vertex.id,
      r.edges.map fun e => (e.source, e.target), r.terminals.map Vertex.id))
      = some ([0, 1, 2, 3], [(0, 1), (0, 1), (1, 1), (1, 2), (2, 0), (2, 3)], [3]) := by
  decide +kernel

end Reach

end Lineage
