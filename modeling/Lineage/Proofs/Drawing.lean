import Lineage.Proofs.Glossary

/-!
# What a response is drawn from

A query adds to its builder the vertices that it finds and the edges between them, and an edge
brings in no others if its ends are among them. So a property of builders is kept by what a query
adds if any of these vertices and any response edge can be added to it (`Builder.Keeps`).

Where no frontier is condensed, every vertex of a response is a stored vertex as responses show it.
Which one that is the ids do not tell, if several stored vertices have the same; a builder draws on
some vertices (`Builder.DrawsOn`), and that is kept. A finished response that has the ids of the
vertices it is drawn from shows them all, as far as it can (`Response.Depicts`).
-/

namespace Lineage

open Std Query

namespace Builder

/-- Some vertices, and any response edges, can be added to a builder without a property being
lost. -/
structure Keeps (S : Set Vertex) (P : Builder → Prop) : Prop where
  addVertex : ∀ {b : Builder} {v : Vertex}, v ∈ S → P b → P (b.addVertex v).2
  addResponseEdge : ∀ {b : Builder} (e : ResponseEdge), P b →
    P { b with edges := b.edges.insert e }

namespace Keeps

variable {g : Graph} {S : Set Vertex} {P : Builder → Prop} {b b' : Builder} {q : Vertex}

theorem addVertices (h : Keeps S P) {vs : List Vertex} (hvs : ∀ v ∈ vs, v ∈ S) (hb : P b) :
    P (b.addVertices vs) :=
  List.foldlRecOn vs _ hb fun _ hb v hv => h.addVertex (hvs v hv) hb

theorem addEnd (h : Keeps S P) (hg : g.Coherent) {i : VertexId} {id : String}
    (hi : ∀ v ∈ allVertices g, v.id = i → v ∈ S) (hb : P b) (hadd : b.addEnd g i = .ok (id, b')) :
    P b' := by
  rcases addEnd_cases hadd with ⟨-, rfl⟩ | ⟨v, hfound, hv⟩
  · exact hb
  · obtain ⟨hmem, hid⟩ := hg.mem_of_requireVertex hfound
    have hadded := h.addVertex (hi v hmem hid) hb
    rwa [hv] at hadded

theorem addEdge (h : Keeps S P) (hg : g.Coherent) {e : Edge}
    (he : ∀ v ∈ allVertices g, v.id = e.source ∨ v.id = e.target → v ∈ S) (hb : P b)
    (hadd : b.addEdge g e = .ok b') : P b' := by
  obtain ⟨⟨source, b₁⟩, hsource, hadd⟩ := exists_of_bind_ok hadd
  obtain ⟨⟨target, b₂⟩, htarget, hadd⟩ := exists_of_bind_ok hadd
  cases hadd
  have h₁ := h.addEnd hg (fun v hv hid => he v hv (.inl hid)) hb hsource
  have h₂ := h.addEnd hg (fun v hv hid => he v hv (.inr hid)) h₁ htarget
  exact h.addResponseEdge _ h₂

/-- What a search finds brings its ends with it. -/
theorem addReached (h : Keeps S P) (hg : g.WellFormed) {d : Direction} {label : String} {r : Reach}
    (hr : r.Exact g d label q) (hS : ∀ v ∈ r.vertices, v ∈ S) (hb : P b)
    (hadd : (b.addVertices r.vertices).addEdges g r.edges = .ok b') : P b' :=
  foldlM_ok r.edges hadd (h.addVertices hS hb) fun _ he _ _ hb hadd =>
    h.addEdge hg.toCoherent (fun v hv hend => hS v (hr.mem_vertices_of_end hg he hv hend)) hb hadd

theorem addReach (h : Keeps S P) (hg : g.WellFormed) (hq : q ∈ allVertices g) (side : Side)
    {label : EdgeLabel} (hS : g.lineage side label q ⊆ S) (hb : P b)
    (hadd : Query.addReach g q side.direction label b = .ok b') : P b' := by
  obtain ⟨r, hr, hexact⟩ := Reach.exists_reach hg hq side.direction label.name
  rw [Query.addReach, bind_of_ok hr] at hadd
  exact h.addReached hg hexact (fun v hv => hS ((hexact.mem_lineage hg.toCoherent).1 hv)) hb hadd

theorem addAssets (h : Keeps S P) (hg : g.WellFormed) {term : Vertex} (hmem : term ∈ allVertices g)
    (hterm : term ∈ S) (hassets : g.assets term ⊆ S) (hb : P b)
    (hadd : Query.addAssets g term b = .ok b') : P b' := by
  obtain ⟨found, hfound, hall⟩ := hg.exists_neighbors term.id .inward EdgeLabel.semantic.name
  rw [Query.addAssets, bind_of_ok hfound] at hadd
  refine foldlM_ok found hadd hb fun ⟨e, v⟩ hp b b' hb hadd => ?_
  obtain ⟨hinc, hlabel, hv, hid⟩ := (hall e v).1 hp
  obtain ⟨he, htarget⟩ := hg.mem_incident_inward.1 hinc
  have hsource : e.source = v.id := by rw [hid, ← htarget, e.other_target]
  have hasset : v ∈ S := hassets ⟨hv, e, he, hsource, hlabel, htarget⟩
  refine h.addEdge hg.toCoherent (fun u hu hend => ?_) (h.addVertex hasset hb) hadd
  rcases hg.end_eq hinc hend with heq | heq
  · exact hg.eq_of_vertex_id hu hmem heq ▸ hterm
  · exact hg.eq_of_vertex_id hu hv (heq.trans hid.symm) ▸ hasset

theorem addGlossary (h : Keeps S P) (hg : g.WellFormed) (hq : q ∈ allVertices g)
    (hS : g.glossary q ⊆ S) (hb : P b) (hadd : Query.addGlossary g q b = .ok b') : P b' := by
  obtain ⟨r, hr, hexact⟩ := Reach.exists_reach hg hq .both EdgeLabel.synonym.name
  have hterms : ∀ v ∈ r.vertices, v ∈ g.terms q :=
    fun v hv => (hexact.mem_terms hg.toCoherent).1 hv
  rw [Query.addGlossary, bind_of_ok hr] at hadd
  obtain ⟨b₁, hedges, hadd⟩ := exists_of_bind_ok hadd
  have h₁ := h.addReached hg hexact (fun v hv => hS (.inl (hterms v hv))) hb hedges
  refine foldlM_ok r.vertices hadd h₁ fun term hterm _ _ hb hadd => ?_
  have hassets : g.assets term ⊆ g.glossary q :=
    (Set.subset_biUnion_of_mem (hterms term hterm)).trans Set.subset_union_right
  exact h.addAssets hg (hterms term hterm).1 (hS (.inl (hterms term hterm))) (hassets.trans hS) hb
    hadd

end Keeps

end Builder

/-! ## Drawing on vertices -/

/-- A response shows some vertices and no others. Of several with one response id it has room for
one. -/
structure Response.Depicts (w : Whitelist) (S : Set Vertex) (r : Response) : Prop where
  drawn : ∀ x ∈ r.vertices, ∃ v ∈ S, x = v.abstract w
  listed : ∀ v ∈ S, ∃ x ∈ r.vertices, x.id = v.responseId
  faithful : Set.InjOn Vertex.responseId S → ∀ v ∈ S, v.abstract w ∈ r.vertices
  ids_nodup : (r.vertices.map (·.id)).Nodup

namespace Builder

/-- Every vertex that a builder files is one of some stored vertices. -/
structure DrawsOn (w : Whitelist) (S : Set Vertex) (b : Builder) : Prop where
  whitelist_eq : b.whitelist = w
  drawn : ∀ (id : String) x, b.vertices[id]? = some x → ∃ v ∈ S, x = v.abstract w

variable {w : Whitelist} {S : Set Vertex} {b : Builder}

theorem drawsOn_empty (w : Whitelist) (S : Set Vertex) : (empty w).DrawsOn w S where
  whitelist_eq := rfl
  drawn id x hx := by simp [empty] at hx

namespace DrawsOn

theorem addVertex (h : b.DrawsOn w S) {v : Vertex} (hv : v ∈ S) :
    (b.addVertex v).2.DrawsOn w S := by
  unfold Builder.addVertex
  cases b.ids[v.id]? with
  | some id => exact h
  | none =>
    refine ⟨h.whitelist_eq, fun id x hx => ?_⟩
    rw [ExtTreeMap.getElem?_insertIfNew] at hx
    split_ifs at hx
    · exact ⟨v, hv, by rw [← Option.some.inj hx, h.whitelist_eq]⟩
    · exact h.drawn id x hx

theorem keeps (w : Whitelist) (S : Set Vertex) : Keeps S (DrawsOn w S) where
  addVertex hv h := h.addVertex hv
  addResponseEdge _ h := ⟨h.whitelist_eq, h.drawn⟩

theorem finish (h : b.DrawsOn w S) {g : Graph} {edges : Set ResponseEdge}
    (hb : b.Shows g (Vertex.responseId '' S) edges) : b.finish.Depicts w S := by
  have hlisted : ∀ v ∈ S, ∃ x ∈ b.finish.vertices, x.id = v.responseId := fun v hv =>
    exists_mem_finish hb.own ((hb.filed _).2 ⟨v, hv, rfl⟩)
  have hdrawn : ∀ x ∈ b.finish.vertices, ∃ v ∈ S, x = v.abstract w := by
    intro x hx
    obtain ⟨id, hid⟩ := mem_values.1 hx
    exact h.drawn id x hid
  refine ⟨hdrawn, hlisted, fun hinj v hv => ?_, hb.finish.vertices_nodup⟩
  obtain ⟨x, hx, hid⟩ := hlisted v hv
  obtain ⟨u, hu, rfl⟩ := hdrawn x hx
  rwa [← hinj hu hv hid]

end DrawsOn

end Builder

end Lineage
