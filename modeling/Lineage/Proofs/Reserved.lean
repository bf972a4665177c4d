import Lineage.Proofs.Effects
import Lineage.Proofs.Renumbering

/-!
# Reserved ids

The vertex that stands for a condensed frontier is filed under an id that no stored vertex should
have, and nothing keeps one from having it: node ids are the guids of instances, whatever these are.
Of two vertices under one id a response has room for one. What is filed there when a frontier is
condensed is replaced, and what comes later is not filed (`Builder.Holds`), so it is always the
stored vertex that gives way. So the queried vertex and the frontiers are shown in their own form,
unless one of them goes by the id of a frontier that is condensed in the same answer
(`abstract_mem_answer_iff`).
-/

namespace Lineage

open Std Query

namespace Graph

variable {g : Graph} {U : String → Prop} {v : Vertex}

theorem Made.isSome_nodeId [StepIds] {P : Item → Prop} (h : g.Made P) (hv : v ∈ allVertices g) :
    v.nodeId?.isSome := by
  cases h.vertex v hv with
  | node _ _ hn => rw [hn, Option.isSome_some]
  | process _ _ hps => rw [nodeId?_of_processProperties hps, Option.isSome_some]
  | step _ _ hps => rw [nodeId?_of_processProperties hps, Option.isSome_some]

/-- No stored vertex looks like one that stands for a frontier: it carries a guid, or it is a
sub-process. -/
theorem Made.abstract_ne_condensedVertex [StepIds] (h : g.Made (Item.Within U))
    (hv : v ∈ allVertices g) (w : Whitelist) (side : Side) :
    v.abstract w ≠ Builder.condensedVertex side := by
  intro heq
  have htype : v.label = NodeLabel.condensed.name := congrArg ResponseVertex.type heq
  have hguid : v.guid? = none := congrArg ResponseVertex.guid heq
  have hlabel : v.label ≠ NodeLabel.subProcess.name := by simp [htype]
  have hsome := h.isSome_nodeId hv
  rw [← h.guid?_eq_nodeId? hv hlabel, hguid] at hsome
  cases hsome

/-- The queried vertex, and the frontiers that a scope asks for. -/
def asked (g : Graph) (scope : Scope) (label : EdgeLabel) (q : Vertex) : Set Vertex :=
  {v | v = q ∨ ∃ side ∈ scope.sides, v ∈ g.frontier side label q}

variable {scope : Scope} {label : EdgeLabel} {q : Vertex}

theorem mem_allVertices_of_asked (hq : q ∈ allVertices g) (hv : v ∈ g.asked scope label q) :
    v ∈ allVertices g := by
  rcases hv with rfl | ⟨side, -, hv⟩
  · exact hq
  · exact hv.1.1

theorem responseId_mem_answerIds_of_asked (hscope : scope.sides ≠ []) (hq : q ∈ allVertices g)
    (hv : v ∈ g.asked scope label q) : v.responseId ∈ g.answerIds label q scope := by
  rcases hv with rfl | ⟨side, hside, hv⟩
  · exact responseId_mem_answerIds hq scope
  · rw [answerIds_of_sides hscope]
    refine Set.mem_biUnion hside ?_
    by_cases hT : (g.frontier side label q).Nontrivial
    · exact .inl ⟨hT, .inr ⟨v, hv, rfl⟩⟩
    · exact .inr ⟨hT, v, hv.1, rfl⟩

end Graph

namespace Builder

variable {g : Graph} {w : Whitelist} {sides : Set Side} {b : Builder} {ids : Set String}
  {edges : Set ResponseEdge} {v : Vertex}

theorem Shows.abstract_mem_finish_iff (hb : b.Shows g ids edges) :
    v.abstract w ∈ b.finish.vertices ↔ b.vertices[v.responseId]? = some (v.abstract w) := by
  refine mem_values.trans ⟨fun ⟨id, hid⟩ => ?_, fun h => ⟨_, h⟩⟩
  rwa [show v.responseId = id from hb.own id _ hid]

/-- A stored vertex gives way to one that stands for a frontier, and to no other. -/
theorem Holds.getElem?_responseId_iff (h : b.Holds g w sides) (hb : b.Shows g ids edges)
    (hdistinct : g.Distinct) (hv : v ∈ allVertices g) (hid : v.responseId ∈ ids)
    (hreal : ∀ side, v.abstract w ≠ condensedVertex side) :
    b.vertices[v.responseId]? = some (v.abstract w)
      ↔ ∀ side ∈ sides, v.responseId ≠ side.sentinel := by
  constructor
  · intro hfiled side hside heq
    rw [heq, h.condensed side hside] at hfiled
    exact hreal side (Option.some.inj hfiled).symm
  · intro hfree
    obtain ⟨x, hx⟩ := Option.isSome_iff_exists.1
      (ExtTreeMap.isSome_getElem?_iff_mem.2 ((hb.filed _).2 hid))
    have hown : x.id = v.responseId := hb.own _ x hx
    rcases h.stored _ x hx with ⟨u, hu, rfl⟩ | ⟨side, hside, rfl⟩
    · rw [hx, hdistinct hu hv hown]
    · exact absurd hown.symm (hfree side hside)

end Builder

/-- Where response ids tell the vertices of a graph apart, a vertex asked about is shown in its own
form unless it goes by the id of a frontier that is condensed. -/
theorem Query.abstract_mem_iff {g : Graph} {w : Whitelist} {graph : GraphName} {scope : Scope}
    {view : View} {text : String} {r : Response} (hg : g.WellFormed) (hdistinct : g.Distinct)
    (hreal : ∀ v ∈ allVertices g, ∀ side, v.abstract w ≠ Builder.condensedVertex side)
    (hscope : scope.sides ≠ []) (hr : answer g w graph scope view text = .ok r) :
    ∃ q, findNode? g text = some q ∧ ∀ v ∈ g.asked scope view.edgeLabel q,
      (v.abstract w ∈ r.vertices ↔ ∀ side ∈ scope.sides,
        (g.frontier side view.edgeLabel q).Nontrivial → v.responseId ≠ side.sentinel) := by
  obtain ⟨q, hq, hT⟩ := (exists_answer_iff hg).1 ⟨r, hr⟩
  have hmem := hg.mem_of_findNode? hq
  obtain ⟨b, hb, hshows⟩ := exists_assemble w text hg hmem hT
  have hholds := (Builder.holds_empty g w).assemble hg hmem hb
  rw [answer_of_findNode? hq, hb] at hr
  obtain rfl := Except.ok.inj hr
  refine ⟨q, hq, fun v hv => ?_⟩
  have hvmem := Graph.mem_allVertices_of_asked hmem hv
  rw [hshows.abstract_mem_finish_iff, hholds.getElem?_responseId_iff hshows hdistinct hvmem
    (Graph.responseId_mem_answerIds_of_asked hscope hmem hv) (hreal v hvmem)]
  simp only [Set.union_empty, Set.mem_ofPred_eq, and_imp]

/-- In the main graph of a run where node ids are distinct, the queried vertex and the vertices of
the frontiers are shown in their own form, unless they go by the id of a condensed one. -/
theorem abstract_mem_answer_iff [StepIds] (settings : Settings) (ops : List Operation)
    (w : Whitelist) (graph : GraphName) (scope : Scope) (view : View) (text : String) (r : Response)
    (hscope : scope.sides ≠ []) :
    let g := ((Service.initial settings).run ops).graphs.main
    ((allVertices g).map Vertex.nodeId?).Nodup → answer g w graph scope view text = .ok r →
      ∃ q, findNode? g text = some q ∧ ∀ v ∈ g.asked scope view.edgeLabel q,
        (v.abstract w ∈ r.vertices ↔ ∀ side ∈ scope.sides,
          (g.frontier side view.edgeLabel q).Nontrivial → v.responseId ≠ side.sentinel) := by
  intro g hnodup hr
  have hreg := Service.regular_run (U := fun _ => True) ops (Service.regular_initial settings)
    fun _ _ _ _ => trivial
  have hmade : g.Made (Item.Within fun _ => True) := hreg.writes.made
  have hnamed : g.Named := ⟨fun v hv => hmade.isSome_nodeId hv, hnodup⟩
  exact Query.abstract_mem_iff hreg.main hnamed.distinct
    (fun v hv side => hmade.abstract_ne_condensedVertex hv w side) hscope hr

/-- Two columns feed a third whose guid is the id of a condensed frontier. -/
def sampleReserved : List Operation :=
  [.ingestAll ([("t", "RelationalTable"), ("a", "RelationalColumn"), ("b", "RelationalColumn"),
      ("condensedSource", "RelationalColumn")].map (fun (n, type) =>
        .newEntity { guid := n, type })
    ++ ["a", "b", "condensedSource"].map (fun n => .newRelationship
      { guid := "t" ++ n, type := "AttributeForSchema", endOne := "t", endTwo := n })
    ++ [("p", "a"), ("q", "b")].map fun (p, n) =>
      .processContext { guid := p, type := "Process" } [⟨n, "condensedSource"⟩])]

theorem abstract_mem_answer_iff_sampleReserved :
    let g := ((Service.initial {}).run sampleReserved).graphs.main
    Scope.ultimateSource.sides ≠ [] ∧ ((allVertices g).map Vertex.nodeId?).Nodup
      ∧ ∃ r, answer g .standard .main .ultimateSource .column "condensedSource" = .ok r
      ∧ ∃ q, findNode? g "condensedSource" = some q
        ∧ ∀ v ∈ g.asked .ultimateSource View.column.edgeLabel q,
          (v.abstract .standard ∈ r.vertices ↔ ∀ side ∈ Scope.ultimateSource.sides,
            (g.frontier side View.column.edgeLabel q).Nontrivial →
              v.responseId ≠ side.sentinel) := by
  intro g
  have hscope : Scope.ultimateSource.sides ≠ [] := by decide
  have hnodup : ((allVertices g).map Vertex.nodeId?).Nodup := by decide +kernel
  have hok : (answer g .standard .main .ultimateSource .column "condensedSource").toOption.isSome
      = true := by decide +kernel
  rcases hr : answer g .standard .main .ultimateSource .column "condensedSource" with err | r
  · rw [hr] at hok
    cases hok
  · exact ⟨hscope, hnodup, r, rfl, abstract_mem_answer_iff {} sampleReserved .standard .main
      .ultimateSource .column "condensedSource" r hscope hnodup hr⟩

/-- The column asked about is not shown: the vertex that stands for its sources has taken its id. -/
theorem abstract_notMem_sampleReserved :
    let g := ((Service.initial {}).run sampleReserved).graphs.main
    ((allVertices g).map Vertex.nodeId?).Nodup
      ∧ ∃ r ∈ (answer g .standard .main .ultimateSource .column "condensedSource").toOption,
        ∃ q ∈ findNode? g "condensedSource", q.label = NodeLabel.column.name
          ∧ q.guid? = some "condensedSource" ∧ q.abstract .standard ∉ r.vertices
          ∧ Builder.condensedVertex .source ∈ r.vertices := by
  decide +kernel

end Lineage
