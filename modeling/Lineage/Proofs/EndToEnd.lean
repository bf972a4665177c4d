import Lineage.Proofs.Filing

/-!
# End to end

An answer end to end shows a vertex together with all that leads to it and all that it leads to over
the edges of the view (`Graph.Flows`), and the edges on the way there and on from there. The
two searches behind it meet on every cycle; what both come across is shown once, and nothing is
condensed. Whatever the history of a graph, such a query does not fail (`exists_answer_endToEnd`).
-/

namespace Lineage

open Std Query
open Relation (ReflTransGen)

namespace Graph

variable {g : Graph} {label : EdgeLabel} {q v : Vertex}

/-- Edges of a label lead from one vertex to another. -/
def Flows (g : Graph) (label : EdgeLabel) (u v : Vertex) : Prop :=
  ReflTransGen (g.Joined label) u.id v.id

theorem mem_lineage_source :
    v ∈ g.lineage .source label q ↔ v ∈ allVertices g ∧ g.Flows label v q :=
  and_congr_right fun _ => Relation.reflTransGen_swap

theorem mem_lineage_destination :
    v ∈ g.lineage .destination label q ↔ v ∈ allVertices g ∧ g.Flows label q v :=
  Iff.rfl

/-- The response ids on both sides of a vertex are those of the vertices in one flow with it. -/
theorem mem_answerIds_endToEnd {id : String} : id ∈ g.answerIds label q .endToEnd
    ↔ ∃ v ∈ allVertices g, (g.Flows label v q ∨ g.Flows label q v) ∧ id = v.responseId := by
  constructor
  · rintro (⟨v, hv, rfl⟩ | ⟨v, hv, rfl⟩)
    · obtain ⟨hmem, hflow⟩ := mem_lineage_source.1 hv
      exact ⟨v, hmem, .inl hflow, rfl⟩
    · obtain ⟨hmem, hflow⟩ := mem_lineage_destination.1 hv
      exact ⟨v, hmem, .inr hflow, rfl⟩
  · rintro ⟨v, hv, hflow | hflow, rfl⟩
    · exact .inl ⟨v, mem_lineage_source.2 ⟨hv, hflow⟩, rfl⟩
    · exact .inr ⟨v, mem_lineage_destination.2 ⟨hv, hflow⟩, rfl⟩

/-- The edges on both sides of a vertex are those that lead on to it or away from it. -/
theorem mem_answerEdges_endToEnd {f : ResponseEdge} : f ∈ g.answerEdges label q .endToEnd
    ↔ ∃ u ∈ allVertices g, ∃ v ∈ allVertices g, g.Joined label u.id v.id
      ∧ (g.Flows label v q ∨ g.Flows label q u)
      ∧ f = ⟨label.name, u.responseId, v.responseId⟩ := by
  constructor
  · rintro (⟨v, hv, u, hu, hstep, rfl⟩ | ⟨u, hu, v, hv, hstep, rfl⟩)
    · obtain ⟨hmem, hflow⟩ := mem_lineage_source.1 hv
      exact ⟨u, hu, v, hmem, hstep, .inl hflow, rfl⟩
    · obtain ⟨hmem, hflow⟩ := mem_lineage_destination.1 hu
      exact ⟨u, hmem, v, hv, hstep, .inr hflow, rfl⟩
  · rintro ⟨u, hu, v, hv, hstep, hflow | hflow, rfl⟩
    · exact .inl ⟨v, mem_lineage_source.2 ⟨hv, hflow⟩, u, hu, hstep, rfl⟩
    · exact .inr ⟨u, mem_lineage_destination.2 ⟨hu, hflow⟩, v, hv, hstep, rfl⟩

end Graph

/-- Where no side is condensed, every vertex of the answer is a vertex of the graph. -/
theorem Builder.Holds.exists_of_mem_finish {g : Graph} {w : Whitelist} {b : Builder}
    (h : b.Holds g w ∅) {x : ResponseVertex} (hx : x ∈ b.finish.vertices) :
    ∃ v ∈ allVertices g, x = v.abstract w := by
  obtain ⟨id, hid⟩ := mem_values.1 hx
  rcases h.stored id x hid with hstored | ⟨side, hside, -⟩
  · exact hstored
  · exact absurd hside (Set.notMem_empty side)

/-- A response shows what is in one flow with a vertex, each vertex and each edge once, and stands
for nothing that is not in the graph. -/
structure Response.ShowsFlow (g : Graph) (w : Whitelist) (label : EdgeLabel) (q : Vertex)
    (r : Response) : Prop where
  vertexIds : ∀ id, id ∈ r.vertexIds
    ↔ ∃ v ∈ allVertices g, (g.Flows label v q ∨ g.Flows label q v) ∧ id = v.responseId
  vertices_nodup : (r.vertices.map (·.id)).Nodup
  edges : ∀ f, f ∈ r.edges ↔ ∃ u ∈ allVertices g, ∃ v ∈ allVertices g, g.Joined label u.id v.id
    ∧ (g.Flows label v q ∨ g.Flows label q u) ∧ f = ⟨label.name, u.responseId, v.responseId⟩
  edges_nodup : r.edges.Nodup
  stored : ∀ x ∈ r.vertices, ∃ v ∈ allVertices g, x = v.abstract w

/-- In a graph with any history, cycles included, a query end to end is answered with just what is
in one flow with the vertex that is asked about. -/
theorem exists_answer_endToEnd (name : String) (history : List Episode) (w : Whitelist)
    (graph : GraphName) (view : View) (text : String) (q : Vertex)
    (hq : findNode? ((Graph.empty name).after history) text = some q) :
    let g := (Graph.empty name).after history
    ∃ r, answer g w graph .endToEnd view text = .ok r ∧ r.ShowsFlow g w view.edgeLabel q := by
  intro g
  have hg : g.WellFormed := wellFormed_after_empty name history
  have hmem : q ∈ allVertices g := hg.mem_of_findNode? hq
  have hsides : ∀ side ∈ Scope.endToEnd.sides, (g.frontier side view.edgeLabel q).Nonempty :=
    List.forall_mem_nil _
  obtain ⟨b, hb, hshows⟩ := exists_assemble w text hg hmem hsides
  have hfinish := hshows.finish
  have hholds : b.Holds g w ∅ := by
    have hall := (Builder.holds_empty g w).assemble hg hmem hb
    simpa only [Scope.sides, List.not_mem_nil, false_and, Set.ofPred_false, Set.empty_union]
      using hall
  refine ⟨b.finish, by rw [answer_of_findNode? hq, hb]; rfl, ?_⟩
  exact {
    vertexIds := fun id => (hfinish.vertexIds id).trans Graph.mem_answerIds_endToEnd
    vertices_nodup := hfinish.vertices_nodup
    edges := fun f => (hfinish.edges f).trans Graph.mem_answerEdges_endToEnd
    edges_nodup := hfinish.edges_nodup
    stored := fun x hx => hholds.exists_of_mem_finish hx }

/-- A cycle of `a` and `b` that the one vertex before it and the one after it are joined to, with a
loop at `b` and the edge from it to `d` twice. -/
def sampleCycle : List Episode :=
  [⟨(["a", "b", "c", "d"].map fun n => .addVertex "Column" (ExtTreeMap.ofList [(Key.nodeId, n)]))
    ++ ([(2, 0), (0, 1), (1, 0), (1, 1), (1, 3), (1, 3)].map fun (s, t) =>
      .addEdge "ColumnAndProcess" s t ∅), .commit⟩]

theorem exists_answer_endToEnd_sampleCycle :
    let g := (Graph.empty "main").after sampleCycle
    let b : Vertex := ⟨1, "Column", ExtTreeMap.ofList [(Key.nodeId, "b")]⟩
    findNode? g "b" = some b
    ∧ ∃ r, answer g .standard .main .endToEnd .column "b" = .ok r
      ∧ r.ShowsFlow g .standard .columnAndProcess b := by
  intro g b
  have hb : findNode? g "b" = some b := by decide +kernel
  exact ⟨hb, exists_answer_endToEnd "main" sampleCycle .standard .main .column "b" b hb⟩

/-- The edges of the cycle are met from both sides, and shown once. -/
example : (answer ((Graph.empty "main").after sampleCycle) .standard .main .endToEnd .column
    "b").toOption.map (fun r => (r.vertexIds, r.edges.map fun e => (e.source, e.destination)))
      = some (["a", "b", "c", "d"],
        [("a", "b"), ("b", "a"), ("b", "b"), ("b", "d"), ("c", "a")]) := by
  decide +kernel

end Lineage
