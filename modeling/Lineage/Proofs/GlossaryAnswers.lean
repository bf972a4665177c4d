import Lineage.Proofs.Drawing
import Lineage.Proofs.Scopes

/-!
# Answers about terms

A glossary query is answered with a term, all its synonyms and all that is assigned to any of them
(`Graph.glossary`), and with every edge that makes two of the terms synonyms or assigns an asset to
one (`Graph.InGlossary`). Every vertex that is found counts as a term here, and the view does not
matter. Synonyms may form cycles, several terms may share an asset, and an asset may be one of the
terms: everything is shown once (`exists_answer_glossary`).
-/

namespace Lineage

open Std Query

namespace Graph

/-- An edge has a term at one end and makes it a synonym, or assigns an asset to it. -/
def InGlossary (g : Graph) (q : Vertex) (e : Edge) : Prop :=
  e.label = EdgeLabel.synonym.name ∧ (∃ v ∈ g.terms q, v.id = e.source ∨ v.id = e.target)
    ∨ e.label = EdgeLabel.semantic.name ∧ ∃ v ∈ g.terms q, v.id = e.target

variable {g : Graph} {q : Vertex}

/-- Of an edge between synonyms, if one end is a term then so is the other. -/
theorem mem_terms_of_synonym {e : Edge} (he : e ∈ allEdges g)
    (hlabel : e.label = EdgeLabel.synonym.name) {v : Vertex} (hv : v ∈ g.terms q)
    (hend : v.id = e.source ∨ v.id = e.target) {u : Vertex} (hu : u ∈ allVertices g)
    (hother : u.id = e.source ∨ u.id = e.target) : u ∈ g.terms q := by
  have hjoined : g.Joined .synonym e.source e.target := ⟨e, he, rfl, hlabel, rfl⟩
  refine ⟨hu, ?_⟩
  rcases hend with hend | hend <;> rcases hother with hother | hother
  · rw [hother, ← hend]
    exact hv.2
  · rw [hother]
    exact hv.2.tail (.inl (hend ▸ hjoined))
  · rw [hother]
    exact hv.2.tail (.inr (hend ▸ hjoined))
  · rw [hother, ← hend]
    exact hv.2

theorem WellFormed.mem_termEdges_iff (hg : g.WellFormed) {f : ResponseEdge} :
    f ∈ g.termEdges q ↔ ∃ e ∈ allEdges g, (e.label = EdgeLabel.synonym.name
      ∧ ∃ v ∈ g.terms q, v.id = e.source ∨ v.id = e.target) ∧ f ∈ g.depictions e := by
  constructor
  · rintro ⟨u, hu, v, hv, ⟨e, he, hsource, hlabel, htarget⟩, rfl⟩
    refine ⟨e, he, ⟨hlabel, u, hu, .inl hsource.symm⟩, ?_⟩
    rw [hg.depictions_eq hu.1 hv.1 hsource.symm htarget.symm, hlabel]
    rfl
  · rintro ⟨e, he, ⟨hlabel, v, hv, hend⟩, u, hu, u', hu', hsource, htarget, rfl⟩
    refine ⟨u, mem_terms_of_synonym he hlabel hv hend hu (.inl hsource), u',
      mem_terms_of_synonym he hlabel hv hend hu' (.inr htarget),
      ⟨e, he, hsource.symm, hlabel, htarget.symm⟩, ?_⟩
    rw [hlabel]

theorem WellFormed.mem_assignments_iff (hg : g.WellFormed) {f : ResponseEdge} :
    (∃ term ∈ g.terms q, f ∈ g.assignments term) ↔ ∃ e ∈ allEdges g,
      (e.label = EdgeLabel.semantic.name ∧ ∃ v ∈ g.terms q, v.id = e.target)
        ∧ f ∈ g.depictions e := by
  constructor
  · rintro ⟨term, hterm, v, ⟨hv, e, he, hsource, hlabel, htarget⟩, rfl⟩
    refine ⟨e, he, ⟨hlabel, term, hterm, htarget.symm⟩, ?_⟩
    rw [hg.depictions_eq hv hterm.1 hsource.symm htarget.symm, hlabel]
    rfl
  · rintro ⟨e, he, ⟨hlabel, term, hterm, hend⟩, u, hu, v, hv, hsource, htarget, rfl⟩
    obtain rfl := hg.eq_of_vertex_id hterm.1 hv (hend.trans htarget.symm)
    refine ⟨term, hterm, u, ⟨hu, e, he, hsource.symm, hlabel, htarget.symm⟩, ?_⟩
    rw [hlabel]

theorem WellFormed.mem_glossaryEdges_iff (hg : g.WellFormed) {f : ResponseEdge} :
    f ∈ g.glossaryEdges q ↔ ∃ e ∈ allEdges g, g.InGlossary q e ∧ f ∈ g.depictions e := by
  simp only [glossaryEdges, Set.mem_union, Set.mem_iUnion₂, exists_prop, hg.mem_termEdges_iff,
    hg.mem_assignments_iff, InGlossary, or_and_right, and_or_left, exists_or]

end Graph

/-- A response shows a term with its synonyms, what is assigned to them and the edges that do so,
each once. -/
structure Response.ShowsGlossary (g : Graph) (w : Whitelist) (q : Vertex) (r : Response) :
    Prop where
  vertices : r.Depicts w (g.glossary q)
  edges : ∀ f, f ∈ r.edges ↔ ∃ e ∈ allEdges g, g.InGlossary q e ∧ f ∈ g.depictions e
  edges_nodup : r.edges.Nodup

/-- In a graph with any history, and whatever the vertex that is asked about, a glossary query is
answered, and with the same in every view. -/
theorem exists_answer_glossary (name : String) (history : List Episode) (w : Whitelist)
    (graph : GraphName) (text : String) (q : Vertex)
    (hq : findNode? ((Graph.empty name).after history) text = some q) :
    let g := (Graph.empty name).after history
    ∃ r, (∀ view, answer g w graph .glossary view text = .ok r) ∧ r.ShowsGlossary g w q := by
  intro g
  have hg : g.WellFormed := wellFormed_after_empty name history
  have hmem : q ∈ allVertices g := hg.mem_of_findNode? hq
  have hself : q ∈ g.glossary q := .inl (Graph.mem_terms_self hmem)
  obtain ⟨b, hb, hshows⟩ :=
    exists_addGlossary hg hmem (Builder.shows_addVertex_empty w hg.toCoherent hmem)
  rw [← Graph.image_glossary, Set.singleton_union,
    Set.insert_eq_of_mem (Set.mem_image_of_mem _ hself), Set.empty_union] at hshows
  have hdraws := (Builder.DrawsOn.keeps w _).addGlossary hg hmem subset_rfl
    ((Builder.drawsOn_empty w _).addVertex hself) hb
  refine ⟨b.finish, fun view => ?_, hdraws.finish hshows,
    fun f => (hshows.finish.edges f).trans hg.mem_glossaryEdges_iff, hshows.finish.edges_nodup⟩
  rw [answer_of_findNode? hq, assemble, lift_of_ok hb]
  rfl

/-- Three terms that are synonyms all round, an asset `x` of two of them, and one of them assigned
to another. -/
def sampleGlossary : List Episode :=
  [⟨(["a", "b", "c", "x"].map fun n =>
      .addVertex "GlossaryTerm" (ExtTreeMap.ofList [(Key.nodeId, n)]))
    ++ ([(0, 1), (1, 2), (2, 0)].map fun (s, t) =>
      .addEdge "GlossaryTermToGlossaryTerm" s t ∅)
    ++ [(3, 0), (3, 1), (1, 2)].map fun (s, t) => .addEdge "Semantic" s t ∅, .commit⟩]

theorem exists_answer_glossary_sampleGlossary :
    let g := (Graph.empty "main").after sampleGlossary
    let c : Vertex := ⟨2, "GlossaryTerm", ExtTreeMap.ofList [(Key.nodeId, "c")]⟩
    findNode? g "c" = some c
    ∧ ∃ r, (∀ view, answer g .standard .main .glossary view "c" = .ok r)
      ∧ r.ShowsGlossary g .standard c := by
  intro g c
  have hc : findNode? g "c" = some c := by decide +kernel
  exact ⟨hc, exists_answer_glossary "main" sampleGlossary .standard .main "c" c hc⟩

example : (answer ((Graph.empty "main").after sampleGlossary) .standard .main .glossary .table
    "c").toOption.map (fun r => (r.vertexIds, r.edges.map fun e => (e.source, e.destination)))
      = some (["a", "b", "c", "x"],
        [("a", "b"), ("b", "c"), ("c", "a"), ("b", "c"), ("x", "a"), ("x", "b")]) := by
  decide +kernel

end Lineage
