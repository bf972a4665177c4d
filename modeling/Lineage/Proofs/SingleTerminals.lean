import Lineage.Proofs.Cycles
import Lineage.Proofs.Drawing

/-!
# Answers with a single terminal

Where one vertex is all the frontier there is on a side, the answer shows all of the lineage. What
of it lies on a walk to that vertex is what has a frontier of its own (`mem_between_iff`); a vertex
from which no walk comes to an end is shown as well, and from it walks run into a cycle. So the
answer is what lies between the two vertices exactly if every branch of the lineage comes to an end
(`Depicts.liesBetween_iff`), which it does if there is no cycle.
-/

namespace Lineage

open Std Query
open Relation (ReflTransGen TransGen)

namespace Graph

/-- The vertices on the walks from one vertex on to another. -/
def between (g : Graph) (side : Side) (label : EdgeLabel) (q t : Vertex) : Set Vertex :=
  {v | v ∈ allVertices g ∧ ReflTransGen (g.Farther side label) q.id v.id
    ∧ ReflTransGen (g.Farther side label) v.id t.id}

variable {g : Graph} {side : Side} {label : EdgeLabel} {q t v : Vertex}

/-- The walks that come to an end are those to the terminal. -/
theorem mem_between_iff (hT : g.frontier side label q = {t}) (hv : v ∈ g.lineage side label q) :
    v ∈ g.between side label q t ↔ (g.frontier side label v).Nonempty := by
  have ht : t ∈ g.frontier side label q := hT ▸ Set.mem_singleton t
  constructor
  · rintro ⟨-, -, hpath⟩
    exact ⟨t, ⟨ht.1.1, hpath⟩, ht.2⟩
  · rintro ⟨u, hu⟩
    obtain rfl : u = t := Set.mem_singleton_iff.1 (hT ▸ frontier_subset hv hu)
    exact ⟨hv.1, hv.2, hu.1.2⟩

theorem WellFormed.exists_cycle_of_notMem_between (hg : g.WellFormed)
    (hT : g.frontier side label q = {t}) (hv : v ∈ g.lineage side label q)
    (hstray : v ∉ g.between side label q t) :
    ∃ c ∈ g.lineage side label v, TransGen (g.Joined label) c.id c.id := by
  rw [mem_between_iff hT hv, Set.not_nonempty_iff_eq_empty] at hstray
  exact hg.exists_cycle_of_frontier_eq_empty hv.1 hstray

end Graph

/-- Every vertex and every edge of a response is on a walk from one vertex on to another. -/
structure Response.LiesBetween (g : Graph) (w : Whitelist) (side : Side) (label : EdgeLabel)
    (q t : Vertex) (r : Response) : Prop where
  vertices : ∀ x ∈ r.vertices, ∃ v ∈ g.between side label q t, x = v.abstract w
  edges : ∀ f ∈ r.edges, ∃ u ∈ g.between side label q t, ∃ v ∈ g.between side label q t,
    g.Farther side label u.id v.id ∧ f = side.edge label.name u.responseId v.responseId

namespace Response

variable {g : Graph} {w : Whitelist} {side : Side} {label : EdgeLabel} {q t : Vertex}
  {r : Response}

theorem Depicts.liesBetween (h : r.Depicts w (g.lineage side label q))
    (hedges : ∀ f ∈ r.edges, f ∈ g.lineageEdges side label q)
    (hbetween : ∀ v ∈ g.lineage side label q, v ∈ g.between side label q t) :
    r.LiesBetween g w side label q t where
  vertices x hx := by
    obtain ⟨v, hv, rfl⟩ := h.drawn x hx
    exact ⟨v, hbetween v hv, rfl⟩
  edges f hf := by
    obtain ⟨u, hu, v, hv, hstep, rfl⟩ := hedges f hf
    exact ⟨u, hbetween u hu, v, hbetween v ⟨hv, hu.2.tail hstep⟩, hstep, rfl⟩

/-- Where response ids tell the vertices of the lineage apart, one off the walks shows. -/
theorem Depicts.liesBetween_iff (h : r.Depicts w (g.lineage side label q))
    (hedges : ∀ f ∈ r.edges, f ∈ g.lineageEdges side label q)
    (hinj : Set.InjOn Vertex.responseId (g.lineage side label q)) :
    r.LiesBetween g w side label q t
      ↔ ∀ v ∈ g.lineage side label q, v ∈ g.between side label q t := by
  refine ⟨fun hlies v hv => ?_, h.liesBetween hedges⟩
  obtain ⟨u, hu, heq⟩ := hlies.vertices _ (h.faithful hinj v hv)
  have hid : v.responseId = u.responseId := congrArg ResponseVertex.id heq
  rwa [hinj hv ⟨hu.1, hu.2.1⟩ hid]

end Response

/-- The lineage of a vertex and its frontier can be computed. -/
theorem Graph.WellFormed.lineage_eq_of_reach {g : Graph} (hg : g.WellFormed) {side : Side}
    {label : EdgeLabel} {q : Vertex} (hq : q ∈ allVertices g) {vs ts : List Vertex}
    (hr : (reach g q side.direction label.name).map (fun r => (r.vertices, r.terminals))
      = .ok (vs, ts)) :
    g.lineage side label q = {v | v ∈ vs} ∧ g.frontier side label q = {v | v ∈ ts} := by
  obtain ⟨r, hfound, h⟩ := Reach.exists_reach hg hq side.direction label.name
  rw [hfound] at hr
  obtain ⟨rfl, rfl⟩ := Prod.mk.inj (Except.ok.inj hr)
  exact ⟨Set.ext fun v => (h.mem_lineage hg.toCoherent).symm,
    Set.ext fun v => (h.mem_frontier hg.toCoherent).symm⟩

/-! ## The answer -/

section Answers

variable {g : Graph} {w : Whitelist} {side : Side} {q t : Vertex}

theorem Builder.DrawsOn.addSide {S : Set Vertex} {b b' : Builder} {scope : Scope} {text : String}
    {label : EdgeLabel} (h : b.DrawsOn w S) (hg : g.WellFormed) (hq : q ∈ allVertices g)
    (hT : g.frontier side label q = {t}) (hS : g.lineage side label q ⊆ S)
    (hadd : Query.addSide g scope text label q side b = .ok b') : b'.DrawsOn w S := by
  obtain ⟨r, hr, hexact⟩ := Reach.exists_reach hg hq side.direction label.name
  rw [addSide_of_reach hr, hexact.terminals_eq_singleton hg.toCoherent hT] at hadd
  dsimp only at hadd
  split_ifs at hadd
  · cases hadd
    exact h
  · exact (keeps w S).addReached hg hexact
      (fun v hv => hS ((hexact.mem_lineage hg.toCoherent).1 hv)) h (ok_of_lift hadd)

theorem exists_depicts_of_frontier_eq_singleton (w : Whitelist) (graph : GraphName) (view : View)
    {text : String} (hg : g.WellFormed) (hq : findNode? g text = some q) (hne : t ≠ q)
    (hT : g.frontier side view.edgeLabel q = {t}) :
    ∃ r, answer g w graph side.scope view text = .ok r
      ∧ r.Depicts w (g.lineage side view.edgeLabel q)
      ∧ ∀ f, f ∈ r.edges ↔ f ∈ g.lineageEdges side view.edgeLabel q := by
  have hmem := hg.mem_of_findNode? hq
  have hself : q ∈ g.lineage side view.edgeLabel q := Graph.mem_lineage_self hmem
  obtain ⟨b, hb, hshows⟩ := exists_addSide_of_frontier_eq_singleton hg hmem hne hT
    (Builder.shows_addVertex_empty w hg.toCoherent hmem)
  rw [Set.singleton_union, Set.empty_union, Set.insert_eq_of_mem (Set.mem_image_of_mem _ hself)]
    at hshows
  have hdraws := ((Builder.drawsOn_empty w _).addVertex hself).addSide hg hmem hT subset_rfl hb
  exact ⟨b.finish, by rw [answer_eq_addSide w graph hq, hb]; rfl, hdraws.finish hshows,
    hshows.finish.edges⟩

end Answers

/-- A response shows all of the lineage, and how much of that is on a walk to the terminal. -/
structure Response.ShowsLineage (g : Graph) (w : Whitelist) (side : Side) (label : EdgeLabel)
    (q t : Vertex) (r : Response) : Prop where
  vertices : r.Depicts w (g.lineage side label q)
  edges : ∀ f, f ∈ r.edges ↔ f ∈ g.lineageEdges side label q
  cyclic : ∀ v ∈ g.lineage side label q, v ∉ g.between side label q t →
    ∃ c ∈ g.lineage side label v, TransGen (g.Joined label) c.id c.id
  liesBetween : (∀ v ∈ g.lineage side label q, v ∈ g.between side label q t) →
    r.LiesBetween g w side label q t
  liesBetween_iff : Set.InjOn Vertex.responseId (g.lineage side label q) →
    (r.LiesBetween g w side label q t
      ↔ ∀ v ∈ g.lineage side label q, v ∈ g.between side label q t)
  acyclic : (∀ v ∈ g.lineage side label q, ¬ TransGen (g.Joined label) v.id v.id) →
    r.LiesBetween g w side label q t

/-- With a single terminal a query in one direction is answered with all of the lineage; what is not
on a walk to the terminal leads into a cycle. -/
theorem exists_showsLineage (name : String) (history : List Episode) (w : Whitelist)
    (graph : GraphName) (side : Side) (view : View) (text : String) (q t : Vertex)
    (hq : findNode? ((Graph.empty name).after history) text = some q) (hne : t ≠ q)
    (hT : ((Graph.empty name).after history).frontier side view.edgeLabel q = {t}) :
    let g := (Graph.empty name).after history
    ∃ r, answer g w graph side.scope view text = .ok r
      ∧ r.ShowsLineage g w side view.edgeLabel q t := by
  intro g
  have hg : g.WellFormed := wellFormed_after_empty name history
  obtain ⟨r, hr, hdepicts, hedges⟩ :=
    exists_depicts_of_frontier_eq_singleton w graph view hg hq hne hT
  have hlineage : ∀ f ∈ r.edges, f ∈ g.lineageEdges side view.edgeLabel q :=
    fun f => (hedges f).1
  refine ⟨r, hr, hdepicts, hedges, fun v => hg.exists_cycle_of_notMem_between hT,
    hdepicts.liesBetween hlineage, hdepicts.liesBetween_iff hlineage, fun hacyclic => ?_⟩
  refine hdepicts.liesBetween hlineage fun v hv => ?_
  by_contra hstray
  obtain ⟨c, hc, hcycle⟩ := hg.exists_cycle_of_notMem_between hT hv hstray
  exact hacyclic c (Graph.lineage_subset hv hc) hcycle

/-- A column `q` that `t` and `c` feed, of which `c` feeds itself as well. -/
def sampleBackwater : List Episode :=
  [⟨(["t", "q", "c"].map fun n => .addVertex "Column" (ExtTreeMap.ofList [(Key.nodeId, n)]))
    ++ ([(0, 1), (2, 2), (2, 1)].map fun (s, t) => .addEdge "ColumnAndProcess" s t ∅), .commit⟩]

def sampleColumn (i : VertexId) (n : String) : Vertex :=
  ⟨i, "Column", ExtTreeMap.ofList [(Key.nodeId, n)]⟩

theorem lineage_sampleBackwater :
    let g := (Graph.empty "main").after sampleBackwater
    g.lineage .source .columnAndProcess (sampleColumn 1 "q")
        = {v | v ∈ [sampleColumn 1 "q", sampleColumn 0 "t", sampleColumn 2 "c"]}
      ∧ g.frontier .source .columnAndProcess (sampleColumn 1 "q") = {sampleColumn 0 "t"} := by
  intro g
  have hg : g.WellFormed := wellFormed_after_empty "main" sampleBackwater
  have hq : sampleColumn 1 "q" ∈ allVertices g := by decide +kernel
  have hr : (reach g (sampleColumn 1 "q") Side.source.direction EdgeLabel.columnAndProcess.name).map
      (fun r => (r.vertices, r.terminals))
        = .ok ([sampleColumn 1 "q", sampleColumn 0 "t", sampleColumn 2 "c"],
          [sampleColumn 0 "t"]) := by
    decide +kernel
  obtain ⟨hlineage, hfrontier⟩ := hg.lineage_eq_of_reach hq hr
  refine ⟨hlineage, ?_⟩
  rw [hfrontier]
  ext v
  exact List.mem_singleton

theorem exists_showsLineage_sampleBackwater :
    let g := (Graph.empty "main").after sampleBackwater
    let q := sampleColumn 1 "q"
    let t := sampleColumn 0 "t"
    findNode? g "q" = some q ∧ t ≠ q ∧ g.frontier .source .columnAndProcess q = {t}
      ∧ ∃ r, answer g .standard .main .ultimateSource .column "q" = .ok r
        ∧ r.ShowsLineage g .standard .source .columnAndProcess q t := by
  intro g q t
  have hq : findNode? g "q" = some q := by decide +kernel
  have hne : t ≠ q := by decide +kernel
  have hT : g.frontier .source .columnAndProcess q = {t} := lineage_sampleBackwater.2
  exact ⟨hq, hne, hT, exists_showsLineage "main" sampleBackwater .standard .main .source .column
    "q" q t hq hne hT⟩

theorem stray_sampleBackwater :
    let g := (Graph.empty "main").after sampleBackwater
    sampleColumn 2 "c" ∈ g.lineage .source .columnAndProcess (sampleColumn 1 "q")
      ∧ sampleColumn 2 "c" ∉ g.between .source .columnAndProcess (sampleColumn 1 "q")
        (sampleColumn 0 "t") := by
  intro g
  have hg : g.WellFormed := wellFormed_after_empty "main" sampleBackwater
  obtain ⟨hlineage, hT⟩ := lineage_sampleBackwater
  have hc : sampleColumn 2 "c" ∈ g.lineage .source .columnAndProcess (sampleColumn 1 "q") :=
    hlineage ▸ show sampleColumn 2 "c" ∈ [sampleColumn 1 "q", sampleColumn 0 "t", _] by simp
  have hr : (reach g (sampleColumn 2 "c") Side.source.direction EdgeLabel.columnAndProcess.name).map
      (fun r => (r.vertices, r.terminals)) = .ok ([sampleColumn 2 "c"], []) := by
    decide +kernel
  refine ⟨hc, ?_⟩
  rw [Graph.mem_between_iff hT hc, (hg.lineage_eq_of_reach hc.1 hr).2]
  rintro ⟨u, hu⟩
  cases hu

/-- No walk from `t` leads through the column that feeds itself, and it is shown. -/
theorem not_liesBetween_sampleBackwater :
    let g := (Graph.empty "main").after sampleBackwater
    let q := sampleColumn 1 "q"
    let t := sampleColumn 0 "t"
    findNode? g "q" = some q ∧ t ≠ q ∧ g.frontier .source .columnAndProcess q = {t}
      ∧ ∃ r, answer g .standard .main .ultimateSource .column "q" = .ok r
        ∧ ¬ r.LiesBetween g .standard .source .columnAndProcess q t := by
  intro g q t
  have hg : g.WellFormed := wellFormed_after_empty "main" sampleBackwater
  have hq : findNode? g "q" = some q := by decide +kernel
  have hne : t ≠ q := by decide +kernel
  obtain ⟨hlineage, hT⟩ := lineage_sampleBackwater
  obtain ⟨r, hr, hdepicts, hedges⟩ :=
    exists_depicts_of_frontier_eq_singleton .standard .main .column hg hq hne hT
  have hdistinct : ∀ u ∈ [sampleColumn 1 "q", sampleColumn 0 "t", sampleColumn 2 "c"],
      ∀ v ∈ [sampleColumn 1 "q", sampleColumn 0 "t", sampleColumn 2 "c"],
        u.responseId = v.responseId → u = v := by
    decide +kernel
  have hinj : Set.InjOn Vertex.responseId (g.lineage .source .columnAndProcess q) := by
    rw [hlineage]
    exact fun u hu v hv => hdistinct u hu v hv
  refine ⟨hq, hne, hT, r, hr, fun hlies => ?_⟩
  obtain ⟨hc, hstray⟩ := stray_sampleBackwater
  exact hstray ((hdepicts.liesBetween_iff (fun f => (hedges f).1) hinj).1 hlies _ hc)

end Lineage
