import Mathlib.Data.Set.Lattice.Image
import Lineage.Builder
import Lineage.Proofs.Searching

/-!
# What a builder shows

What is added to a builder comes to a set of response ids and a set of response edges
(`Builder.Shows`). A vertex adds its response id; an edge adds the response edge between its ends
and, in a well-formed graph, finds both of them (`Shows.exists_addEdges`); a frontier that is
condensed adds the synthetic vertex and an edge for each of its vertices (`Shows.condense`). The
finished response has just these ids and these edges (`Shows.finish`).
-/

namespace Lineage

open Std

def responseIds (vs : List Vertex) : Set String := ⋃ v ∈ vs, {v.responseId}

theorem responseIds_eq_image {vs : List Vertex} {S : Set Vertex} (h : ∀ v, v ∈ vs ↔ v ∈ S) :
    responseIds vs = Vertex.responseId '' S := by
  simp only [responseIds, h, Set.image_eq_iUnion]

namespace Graph

/-- The response ids of the ends of an edge. -/
def endIds (g : Graph) (e : Edge) : Set String :=
  {id | ∃ v ∈ allVertices g, (v.id = e.source ∨ v.id = e.target) ∧ id = v.responseId}

/-- An edge of a graph as responses show it. -/
def depictions (g : Graph) (e : Edge) : Set ResponseEdge :=
  {f | ∃ u ∈ allVertices g, ∃ v ∈ allVertices g, u.id = e.source ∧ v.id = e.target
    ∧ f = ⟨e.label, u.responseId, v.responseId⟩}

variable {g : Graph} {e : Edge} {u v : Vertex}

theorem Coherent.endIds_eq (h : g.Coherent) (hu : u ∈ allVertices g) (hv : v ∈ allVertices g)
    (hsource : u.id = e.source) (htarget : v.id = e.target) :
    g.endIds e = {u.responseId, v.responseId} := by
  ext id
  constructor
  · rintro ⟨x, hx, hs | ht, rfl⟩
    · rw [h.eq_of_vertex_id hx hu (hs.trans hsource.symm)]
      exact .inl rfl
    · rw [h.eq_of_vertex_id hx hv (ht.trans htarget.symm)]
      exact .inr rfl
  · rintro (rfl | rfl)
    · exact ⟨u, hu, .inl hsource, rfl⟩
    · exact ⟨v, hv, .inr htarget, rfl⟩

theorem Coherent.depictions_eq (h : g.Coherent) (hu : u ∈ allVertices g) (hv : v ∈ allVertices g)
    (hsource : u.id = e.source) (htarget : v.id = e.target) :
    g.depictions e = {⟨e.label, u.responseId, v.responseId⟩} := by
  ext f
  constructor
  · rintro ⟨x, hx, y, hy, hs, ht, rfl⟩
    rw [h.eq_of_vertex_id hx hu (hs.trans hsource.symm),
      h.eq_of_vertex_id hy hv (ht.trans htarget.symm)]
    rfl
  · rintro rfl
    exact ⟨u, hu, v, hv, hsource, htarget, rfl⟩

end Graph

/-- A response has a vertex for each of some ids and some edges, none of them twice, and no more. -/
structure Response.Shows (r : Response) (ids : Set String) (edges : Set ResponseEdge) : Prop where
  vertexIds : ∀ id, id ∈ r.vertexIds ↔ id ∈ ids
  vertices_nodup : (r.vertices.map (·.id)).Nodup
  edges : ∀ e, e ∈ r.edges ↔ e ∈ edges
  edges_nodup : r.edges.Nodup

namespace Builder

structure Shows (g : Graph) (ids : Set String) (edges : Set ResponseEdge) (b : Builder) : Prop where
  cached : ∀ (i : VertexId) id, b.ids[i]? = some id →
    id ∈ ids ∧ ∃ v ∈ allVertices g, v.id = i ∧ v.responseId = id
  filed : ∀ id, id ∈ b.vertices ↔ id ∈ ids
  own : ∀ (id : String) v, b.vertices[id]? = some v → v.id = id
  edges : ∀ e, e ∈ b.edges ↔ e ∈ edges

variable {g : Graph} {b : Builder} {ids : Set String} {edges : Set ResponseEdge}

/-- The vertices are listed under the ids that they are filed under. -/
theorem map_id_finish (own : ∀ (id : String) v, b.vertices[id]? = some v → v.id = id) :
    b.finish.vertices.map (·.id) = b.vertices.keys := by
  show b.vertices.values.map (·.id) = b.vertices.keys
  rw [values_eq_map_toList, List.map_map, ← ExtTreeMap.map_fst_toList_eq_keys]
  refine List.map_congr_left fun p hp => own p.1 p.2 ?_
  exact ExtTreeMap.mem_toList_iff_getElem?_eq_some.1 hp

theorem exists_mem_finish (own : ∀ (id : String) v, b.vertices[id]? = some v → v.id = id)
    {id : String} (hid : id ∈ b.vertices) : ∃ v ∈ b.finish.vertices, v.id = id := by
  have hfiled := ExtTreeMap.getElem?_eq_some_getElem hid
  exact ⟨_, mem_values.2 ⟨id, hfiled⟩, own id _ hfiled⟩

/-- The end of an edge has been added before, or it is looked up and added. -/
theorem addEnd_cases {γ : Type} [Readable γ] {g : γ} {b' : Builder} {i : VertexId} {id : String}
    (hadd : b.addEnd g i = .ok (id, b')) :
    b.ids[i]? = some id ∧ b' = b
      ∨ ∃ v, requireVertex g i = .ok v ∧ b.addVertex v = (id, b') := by
  unfold addEnd at hadd
  cases hid : b.ids[i]? with
  | some shown =>
    rw [hid] at hadd
    cases hadd
    exact .inl ⟨rfl, rfl⟩
  | none =>
    rw [hid] at hadd
    cases hv : requireVertex g i with
    | error e =>
      rw [hv] at hadd
      cases hadd
    | ok v =>
      rw [hv] at hadd
      exact .inr ⟨v, rfl, Except.ok.inj hadd⟩

theorem shows_empty (g : Graph) (w : Whitelist) : (empty w).Shows g ∅ ∅ where
  cached i id h := by simp [empty] at h
  filed id := by simp [empty]
  own id v h := by simp [empty] at h
  edges e := by simp [empty]

namespace Shows

/-! ## Many additions -/

section Folds

variable {α : Type} {I : α → Set String} {E : α → Set ResponseEdge}

theorem foldl {f : Builder → α → Builder} : ∀ (as : List α) {b : Builder} {ids : Set String}
    {edges : Set ResponseEdge}, b.Shows g ids edges →
      (∀ a ∈ as, ∀ {b ids edges}, b.Shows g ids edges →
        (f b a).Shows g (ids ∪ I a) (edges ∪ E a)) →
      (as.foldl f b).Shows g (ids ∪ ⋃ a ∈ as, I a) (edges ∪ ⋃ a ∈ as, E a)
  | [], b, ids, edges, h, _ => by simpa using h
  | a :: as, b, ids, edges, h, hstep => by
    have hrest := foldl as (hstep a List.mem_cons_self h)
      fun a' ha' => hstep a' (List.mem_cons_of_mem _ ha')
    simpa only [List.foldl_cons, List.mem_cons, Set.iUnion_iUnion_eq_or_left, Set.union_assoc]
      using hrest

/-- A step may count on the ids that there were at first, as none is ever taken away. -/
theorem exists_foldlM {ε : Type} {f : Builder → α → Except ε Builder} : ∀ (as : List α)
    {b : Builder} {ids : Set String} {edges : Set ResponseEdge}, b.Shows g ids edges →
      (∀ a ∈ as, ∀ {b ids' edges}, ids ⊆ ids' → b.Shows g ids' edges →
        ∃ b', f b a = .ok b' ∧ b'.Shows g (ids' ∪ I a) (edges ∪ E a)) →
      ∃ b', as.foldlM f b = .ok b'
        ∧ b'.Shows g (ids ∪ ⋃ a ∈ as, I a) (edges ∪ ⋃ a ∈ as, E a)
  | [], b, ids, edges, h, _ => ⟨b, rfl, by simpa using h⟩
  | a :: as, b, ids, edges, h, hstep => by
    obtain ⟨b₁, hfirst, h₁⟩ := hstep a List.mem_cons_self subset_rfl h
    obtain ⟨b₂, hrest, h₂⟩ := exists_foldlM as h₁ fun a' ha' _ _ _ hids =>
      hstep a' (List.mem_cons_of_mem _ ha') (Set.subset_union_left.trans hids)
    refine ⟨b₂, (bind_of_ok hfirst _).trans hrest, ?_⟩
    simpa only [List.mem_cons, Set.iUnion_iUnion_eq_or_left, Set.union_assoc] using h₂

end Folds

/-! ## Vertices -/

theorem addVertex (h : b.Shows g ids edges) (hg : g.Coherent) {v : Vertex}
    (hv : v ∈ allVertices g) : (b.addVertex v).1 = v.responseId
      ∧ (b.addVertex v).2.Shows g (ids ∪ {v.responseId}) edges := by
  unfold Builder.addVertex
  cases hid : b.ids[v.id]? with
  | some id =>
    obtain ⟨hmem, u, hu, huv, rfl⟩ := h.cached v.id id hid
    obtain rfl := hg.eq_of_vertex_id hu hv huv
    rw [Set.union_eq_self_of_subset_right (Set.singleton_subset_iff.2 hmem)]
    exact ⟨rfl, h⟩
  | none =>
    refine ⟨rfl, fun i id hi => ?_, fun id => ?_, fun id u hu => ?_, h.edges⟩
    · rw [ExtTreeMap.getElem?_insert] at hi
      split_ifs at hi with heq
      · obtain rfl := Option.some.inj hi
        exact ⟨.inr rfl, v, hv, Nat.compare_eq_eq.1 heq, rfl⟩
      · exact ⟨.inl (h.cached i id hi).1, (h.cached i id hi).2⟩
    · rw [ExtTreeMap.mem_insertIfNew, LawfulEqCmp.compare_eq_iff_eq, h.filed, Set.mem_union,
        Set.mem_singleton_iff, eq_comm, or_comm]
      rfl
    · rw [ExtTreeMap.getElem?_insertIfNew] at hu
      split_ifs at hu with heq
      · rw [← Option.some.inj hu]
        exact LawfulEqCmp.eq_of_compare heq.1
      · exact h.own id u hu

theorem addVertices (h : b.Shows g ids edges) (hg : g.Coherent) {vs : List Vertex}
    (hvs : ∀ v ∈ vs, v ∈ allVertices g) :
    (b.addVertices vs).Shows g (ids ∪ responseIds vs) edges := by
  have hfold := foldl (f := fun b v => (b.addVertex v).2) (I := fun v => {v.responseId})
    (E := fun _ => ∅) vs h fun v hv b ids edges hb => by
      simpa only [Set.union_empty] using (hb.addVertex hg (hvs v hv)).2
  simp only [Set.iUnion_empty, Set.union_empty] at hfold
  exact hfold

/-! ## Edges -/

theorem addResponseEdge (h : b.Shows g ids edges) (e : ResponseEdge) :
    Shows g ids (edges ∪ {e}) { b with edges := b.edges.insert e } where
  cached := h.cached
  filed := h.filed
  own := h.own
  edges f := by
    rw [ExtTreeSet.mem_insert, LawfulEqCmp.compare_eq_iff_eq, h.edges, Set.mem_union,
      Set.mem_singleton_iff, eq_comm, or_comm]

theorem exists_addEnd (h : b.Shows g ids edges) (hg : g.Coherent) {v : Vertex}
    (hv : v ∈ allVertices g) : ∃ b', b.addEnd g v.id = .ok (v.responseId, b')
      ∧ b'.Shows g (ids ∪ {v.responseId}) edges := by
  obtain ⟨hid, hshows⟩ := h.addVertex hg hv
  refine ⟨_, ?_, hshows⟩
  rw [← hid]
  unfold addEnd
  cases hcached : b.ids[v.id]? with
  | some id => simp only [Builder.addVertex, hcached]
  | none =>
    rw [hg.requireVertex_of_mem hv]
    rfl

theorem exists_addEdge (h : b.Shows g ids edges) (hg : g.WellFormed) {e : Edge}
    (he : e ∈ allEdges g) : ∃ b', b.addEdge g e = .ok b'
      ∧ b'.Shows g (ids ∪ g.endIds e) (edges ∪ g.depictions e) := by
  obtain ⟨u, hu, hsource⟩ := hg.exists_source he
  obtain ⟨v, hv, htarget⟩ := hg.exists_target he
  obtain ⟨b₁, hadd₁, h₁⟩ := h.exists_addEnd hg.toCoherent hu
  obtain ⟨b₂, hadd₂, h₂⟩ := h₁.exists_addEnd hg.toCoherent hv
  rw [hsource] at hadd₁
  rw [htarget] at hadd₂
  refine ⟨_, (bind_of_ok hadd₁ _).trans (bind_of_ok hadd₂ _), ?_⟩
  rw [hg.endIds_eq hu hv hsource htarget, hg.depictions_eq hu hv hsource htarget, Set.insert_eq,
    ← Set.union_assoc]
  exact h₂.addResponseEdge _

theorem exists_addEdges (h : b.Shows g ids edges) (hg : g.WellFormed) {es : List Edge}
    (hes : ∀ e ∈ es, e ∈ allEdges g) : ∃ b', b.addEdges g es = .ok b'
      ∧ b'.Shows g (ids ∪ ⋃ e ∈ es, g.endIds e) (edges ∪ ⋃ e ∈ es, g.depictions e) :=
  exists_foldlM es h fun e he _ _ _ _ hb => hb.exists_addEdge hg (hes e he)

/-! ## A condensed frontier -/

theorem insertSentinel (h : b.Shows g ids edges) (side : Side) :
    Shows g (ids ∪ {side.sentinel}) edges
      { b with vertices := b.vertices.insert side.sentinel (condensedVertex side) } where
  cached i id hi := ⟨.inl (h.cached i id hi).1, (h.cached i id hi).2⟩
  filed id := by
    rw [ExtTreeMap.mem_insert, LawfulEqCmp.compare_eq_iff_eq, h.filed, Set.mem_union,
      Set.mem_singleton_iff, eq_comm, or_comm]
  own id v hv := by
    rw [ExtTreeMap.getElem?_insert] at hv
    split_ifs at hv with heq
    · rw [← Option.some.inj hv]
      exact LawfulEqCmp.eq_of_compare heq
    · exact h.own id v hv
  edges := h.edges

theorem condense (h : b.Shows g ids edges) (hg : g.Coherent) (side : Side) {queried : Vertex}
    (hqueried : queried ∈ allVertices g) {frontier : List Vertex}
    (hfrontier : ∀ v ∈ frontier, v ∈ allVertices g) :
    (b.condense side queried frontier).Shows g
      (ids ∪ {queried.responseId} ∪ {side.sentinel} ∪ responseIds frontier)
      (edges ∪ {side.edge EdgeLabel.condensed.name queried.responseId side.sentinel}
        ∪ ⋃ t ∈ frontier, {side.edge EdgeLabel.condensed.name side.sentinel t.responseId}) := by
  obtain ⟨hid, hqueried⟩ := h.addVertex hg hqueried
  have hsentinel := (hqueried.insertSentinel side).addResponseEdge
    (side.edge EdgeLabel.condensed.name queried.responseId side.sentinel)
  rw [← hid] at hsentinel ⊢
  refine foldl frontier hsentinel fun t ht b ids edges hb => ?_
  obtain ⟨hid, ht⟩ := hb.addVertex hg (hfrontier t ht)
  rw [← hid] at ht ⊢
  exact ht.addResponseEdge _

/-! ## The response -/

theorem finish (h : b.Shows g ids edges) : b.finish.Shows ids edges where
  vertexIds id := by
    rw [Response.vertexIds, ExtTreeSet.mem_toList, ExtTreeSet.mem_ofList, List.contains_iff_mem,
      map_id_finish h.own, ExtTreeMap.mem_keys, h.filed]
  vertices_nodup := map_id_finish h.own ▸ ExtTreeMap.nodup_keys
  edges e := by
    rw [← h.edges]
    exact ExtTreeSet.mem_toList
  edges_nodup := by
    refine List.Pairwise.imp (fun hne heq => ?_) (ExtTreeSet.distinct_toList (t := b.edges))
    rw [heq] at hne
    exact hne compare_self

end Shows

theorem shows_addVertex_empty (w : Whitelist) (hg : g.Coherent) {v : Vertex}
    (hv : v ∈ allVertices g) : ((empty w).addVertex v).2.Shows g {v.responseId} ∅ := by
  have h := ((shows_empty g w).addVertex hg hv).2
  rwa [Set.empty_union] at h

/-- A builder with one vertex shows it as it is. -/
theorem finish_addVertex_empty (w : Whitelist) (v : Vertex) :
    ((empty w).addVertex v).2.finish = ⟨[v.abstract w], []⟩ := by
  simp only [Builder.addVertex, empty, ExtTreeMap.getElem?_empty]
  rfl

end Builder

end Lineage
