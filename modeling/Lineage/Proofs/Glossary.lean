import Lineage.Proofs.Directions

/-!
# The glossary around a term

The glossary scope starts from a term and all its synonyms, those of synonyms included
(`Graph.terms`): it shows them with the edges between them, and with every edge that assigns an
asset to one of them (`exists_addGlossary`).
-/

namespace Lineage

open Std Query
open Relation (ReflTransGen)

namespace Graph

variable (g : Graph) (q : Vertex)

/-- An edge makes two terms synonyms, whichever way round it runs. -/
def Akin (x y : VertexId) : Prop := g.Joined .synonym x y ∨ g.Joined .synonym y x

/-- A term with all its synonyms. -/
def terms : Set Vertex := {v | v ∈ allVertices g ∧ ReflTransGen g.Akin q.id v.id}

/-- What is assigned to a term. -/
def assets (term : Vertex) : Set Vertex :=
  {v | v ∈ allVertices g ∧ g.Joined .semantic v.id term.id}

/-- A term with its synonyms and all that is assigned to them. -/
def glossary : Set Vertex := g.terms q ∪ ⋃ term ∈ g.terms q, g.assets term

/-- The edges between synonyms, as responses show them. -/
def termEdges : Set ResponseEdge :=
  {f | ∃ u ∈ g.terms q, ∃ v ∈ g.terms q, g.Joined .synonym u.id v.id
    ∧ f = ⟨EdgeLabel.synonym.name, u.responseId, v.responseId⟩}

/-- The edges from the assets of a term. -/
def assignments (term : Vertex) : Set ResponseEdge :=
  (fun v => ⟨EdgeLabel.semantic.name, v.responseId, term.responseId⟩) '' g.assets term

def glossaryIds : Set String :=
  Vertex.responseId '' g.terms q ∪ ⋃ term ∈ g.terms q, Vertex.responseId '' g.assets term

def glossaryEdges : Set ResponseEdge := g.termEdges q ∪ ⋃ term ∈ g.terms q, g.assignments term

variable {g q}

theorem image_glossary : Vertex.responseId '' g.glossary q = g.glossaryIds q := by
  rw [glossary, glossaryIds, Set.image_union, Set.image_iUnion₂]

theorem glossary_subset : g.glossary q ⊆ {v | v ∈ allVertices g} :=
  Set.union_subset (fun _ hv => hv.1) (Set.iUnion₂_subset fun _ _ _ hv => hv.1)

theorem mem_terms_self (hq : q ∈ allVertices g) : q ∈ g.terms q := ⟨hq, .refl⟩

theorem Coherent.onward_both (h : g.Coherent) : g.Onward .both EdgeLabel.synonym.name = g.Akin := by
  rw [h.onward_eq_leads]
  funext x y
  refine propext ⟨?_, ?_⟩
  · rintro ⟨e, he, hlabel, ⟨hsource, htarget⟩ | ⟨htarget, hsource⟩⟩
    · exact .inl ⟨e, he, hsource, beq_iff_eq.1 hlabel, htarget⟩
    · exact .inr ⟨e, he, hsource, beq_iff_eq.1 hlabel, htarget⟩
  · rintro (⟨e, he, hsource, hlabel, htarget⟩ | ⟨e, he, hsource, hlabel, htarget⟩)
    · exact ⟨e, he, beq_iff_eq.2 hlabel, .inl ⟨hsource, htarget⟩⟩
    · exact ⟨e, he, beq_iff_eq.2 hlabel, .inr ⟨htarget, hsource⟩⟩

end Graph

section Terms

variable {g : Graph} {q : Vertex} {r : Reach}

theorem Reach.Exact.mem_terms (h : r.Exact g .both EdgeLabel.synonym.name q) (hg : g.Coherent)
    {v : Vertex} : v ∈ r.vertices ↔ v ∈ g.terms q := by
  rw [h.mem_vertices, hg.onward_both]
  rfl

/-- The edges found are those between terms: one with a term at one end has terms at both. -/
theorem Reach.Exact.mem_edges_iff (h : r.Exact g .both EdgeLabel.synonym.name q)
    (hg : g.WellFormed) {e : Edge} : e ∈ r.edges ↔ e ∈ allEdges g
      ∧ e.label = EdgeLabel.synonym.name
      ∧ ∃ u ∈ g.terms q, ∃ v ∈ g.terms q, u.id = e.source ∧ v.id = e.target := by
  rw [h.mem_edges]
  constructor
  · rintro ⟨x, hx, he⟩
    obtain ⟨hinc, hlabel⟩ := Graph.mem_edgesAt.1 he
    obtain ⟨he, hend⟩ := hg.mem_incident_both.1 hinc
    obtain ⟨hxmem, hpath⟩ := (h.mem_terms hg.toCoherent).1 hx
    obtain ⟨u, hu, hsource⟩ := hg.exists_source he
    obtain ⟨v, hv, htarget⟩ := hg.exists_target he
    have hjoined : g.Joined .synonym u.id v.id := ⟨e, he, hsource.symm, hlabel, htarget.symm⟩
    refine ⟨he, hlabel, u, ⟨hu, ?_⟩, v, ⟨hv, ?_⟩, hsource, htarget⟩
    · rcases hend with hend | hend
      · rwa [hsource, hend]
      · exact hpath.tail (.inr (by rwa [← hend, ← htarget]))
    · rcases hend with hend | hend
      · exact hpath.tail (.inl (by rwa [← hend, ← hsource]))
      · rwa [htarget, hend]
  · rintro ⟨he, hlabel, u, hu, -, -, hsource, -⟩
    exact ⟨u, (h.mem_terms hg.toCoherent).2 hu,
      Graph.mem_edgesAt.2 ⟨hg.mem_incident_both.2 ⟨he, .inl hsource.symm⟩, hlabel⟩⟩

theorem Reach.Exact.depictions_eq_termEdges (h : r.Exact g .both EdgeLabel.synonym.name q)
    (hg : g.WellFormed) : ⋃ e ∈ r.edges, g.depictions e = g.termEdges q := by
  ext f
  simp only [Set.mem_iUnion₂, exists_prop, h.mem_edges_iff hg]
  constructor
  · rintro ⟨e, ⟨he, hlabel, u, hu, v, hv, hsource, htarget⟩, hf⟩
    rw [hg.depictions_eq hu.1 hv.1 hsource htarget, hlabel] at hf
    exact ⟨u, hu, v, hv, ⟨e, he, hsource.symm, hlabel, htarget.symm⟩, hf⟩
  · rintro ⟨u, hu, v, hv, ⟨e, he, hsource, hlabel, htarget⟩, rfl⟩
    refine ⟨e, ⟨he, hlabel, u, hu, v, hv, hsource.symm, htarget.symm⟩, ?_⟩
    rw [hg.depictions_eq hu.1 hv.1 hsource.symm htarget.symm, hlabel]
    rfl

end Terms

section Glossary

variable {g : Graph} {q : Vertex} {b : Builder} {ids : Set String} {edges : Set ResponseEdge}

theorem exists_neighbors_semantic (hg : g.WellFormed) {term : Vertex}
    (hterm : term ∈ allVertices g) :
    ∃ found, neighbors g term.id .inward (some EdgeLabel.semantic.name) = .ok found
      ∧ (∀ p ∈ found, p.1 ∈ allEdges g ∧ p.2 ∈ allVertices g
        ∧ g.endIds p.1 = {term.responseId, p.2.responseId} ∧ g.depictions p.1
          = {⟨EdgeLabel.semantic.name, p.2.responseId, term.responseId⟩})
      ∧ ∀ v, (∃ p ∈ found, p.2 = v) ↔ v ∈ g.assets term := by
  obtain ⟨found, hfound, hmem⟩ := hg.exists_neighbors term.id .inward EdgeLabel.semantic.name
  refine ⟨found, hfound, fun ⟨e, v⟩ hp => ?_, fun v => ?_⟩
  · obtain ⟨hinc, hlabel, hv, hid⟩ := (hmem e v).1 hp
    have he : e ∈ edgesAt g term.id Side.source.direction (some EdgeLabel.semantic.name) :=
      Graph.mem_edgesAt.2 ⟨hinc, hlabel⟩
    obtain ⟨v', hv', hid', hids, hdepict⟩ := hg.depictions_of_mem_edgesAt hterm he
    obtain rfl := hg.eq_of_vertex_id hv hv' (hid.trans hid'.symm)
    exact ⟨hg.mem_incident hinc, hv, hids, hdepict⟩
  · simp only [Graph.assets, Set.mem_ofPred_eq, ← hg.onward_inward]
    constructor
    · rintro ⟨⟨e, v⟩, hp, rfl⟩
      obtain ⟨hinc, hlabel, hv, hid⟩ := (hmem e v).1 hp
      exact ⟨hv, e, Graph.mem_edgesAt.2 ⟨hinc, hlabel⟩, hid.symm⟩
    · rintro ⟨hv, e, he, hid⟩
      obtain ⟨hinc, hlabel⟩ := Graph.mem_edgesAt.1 he
      exact ⟨(e, v), (hmem e v).2 ⟨hinc, hlabel, hv, hid.symm⟩, rfl⟩

/-- The assets of a term are added with the edges that assign them, which bring in the term. -/
theorem exists_addAssets (hg : g.WellFormed) {term : Vertex} (hterm : term ∈ allVertices g)
    (hid : term.responseId ∈ ids) (hb : b.Shows g ids edges) :
    ∃ b', addAssets g term b = .ok b'
      ∧ b'.Shows g (ids ∪ Vertex.responseId '' g.assets term) (edges ∪ g.assignments term) := by
  obtain ⟨found, hfound, hends, hassets⟩ := exists_neighbors_semantic hg hterm
  obtain ⟨b', hadd, hshows⟩ := hb.exists_foldlM
    (f := fun b p => (b.addVertex p.2).2.addEdge g p.1)
    (I := fun p => {term.responseId, p.2.responseId})
    (E := fun p => {⟨EdgeLabel.semantic.name, p.2.responseId, term.responseId⟩}) found
    fun p hp b ids edges _ hb => by
      obtain ⟨he, hv, hids, hdepict⟩ := hends p hp
      have h := ((hb.addVertex hg.toCoherent hv).2).exists_addEdge hg he
      have hasset : p.2.responseId ∈ ({term.responseId, p.2.responseId} : Set String) := .inr rfl
      rwa [hids, hdepict, Set.union_assoc, Set.singleton_union, Set.insert_eq_of_mem hasset] at h
  refine ⟨b', (bind_of_ok hfound _).trans hadd, ?_⟩
  convert hshows using 1
  · ext id
    simp only [Set.mem_union, Set.mem_image, ← hassets, Set.mem_iUnion₂, Set.mem_insert_iff,
      Set.mem_singleton_iff, exists_prop]
    grind
  · ext f
    simp only [Set.mem_union, Graph.assignments, Set.mem_image, ← hassets, Set.mem_iUnion₂,
      Set.mem_singleton_iff, exists_prop]
    grind

theorem exists_addGlossary (hg : g.WellFormed) (hq : q ∈ allVertices g)
    (hb : b.Shows g ids edges) : ∃ b', addGlossary g q b = .ok b'
      ∧ b'.Shows g (ids ∪ g.glossaryIds q) (edges ∪ g.glossaryEdges q) := by
  obtain ⟨r, hr, h⟩ := Reach.exists_reach hg hq .both EdgeLabel.synonym.name
  have hmem := fun v => h.mem_terms (v := v) hg.toCoherent
  obtain ⟨b₁, hadd₁, h₁⟩ := h.exists_added hg hb
  rw [responseIds_eq_image hmem, h.depictions_eq_termEdges hg] at h₁
  obtain ⟨b₂, hadd₂, h₂⟩ := h₁.exists_foldlM (f := fun b term => addAssets g term b) r.vertices
    fun term hterm b ids' edges hids hb => exists_addAssets hg ((h.mem_vertices term).1 hterm).1
      (hids (.inr ⟨term, (hmem term).1 hterm, rfl⟩)) hb
  refine ⟨b₂, (bind_of_ok hr _).trans ((bind_of_ok hadd₁ _).trans hadd₂), ?_⟩
  simp only [hmem, Set.union_assoc] at h₂
  exact h₂

end Glossary

end Lineage
