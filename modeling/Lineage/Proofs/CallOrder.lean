import Lineage.Proofs.Filing
import Lineage.Proofs.Finishing
import Lineage.Proofs.Stored

/-!
# Calls in any order

A builder files what comes first and caches the ids that it has handed out, an edge brings its ends
with it, and the vertex that stands for a frontier takes the place of what was there. Still the
response does not tell in what order the calls came, nor how often: what a call adds does not depend
on the builder (`Call.additions`), a builder is told by the set of all that was added to it
(`Builder.Gathers`), and where response ids tell the added vertices apart, that set determines the
response (`Gathers.finish_eq`). Stored vertices may go by the id of a condensed one: they give way
to it before and after.
-/

namespace Lineage

open Std

namespace Builder

/-- One thing that is added to a builder. -/
inductive Addition where
  | vertex (v : Vertex)
  | edge (e : ResponseEdge)
  /-- The vertex that stands for the frontier on a side. -/
  | condensed (side : Side)

end Builder

open Builder (Addition)

namespace Graph

/-- An edge adds its source, then its target and the edge between them. It stops at an end that is
not there. -/
def edgeAdditions (g : Graph) (e : Edge) : Set Addition :=
  {a | ∃ u, vertex? g e.source = some u ∧ (a = .vertex u ∨ ∃ v, vertex? g e.target = some v
    ∧ (a = .vertex v ∨ a = .edge ⟨e.label, u.responseId, v.responseId⟩))}

def hasEnds (g : Graph) (e : Edge) : Bool :=
  (vertex? g e.source).isSome && (vertex? g e.target).isSome

/-- Edges up to the first one that lacks an end. -/
def attempted (g : Graph) : List Edge → List Edge
  | [] => []
  | e :: es => if g.hasEnds e then e :: g.attempted es else [e]

end Graph

namespace Builder

/-- What a call adds, whatever the builder. -/
def Call.additions : Call Graph → Set Addition
  | .addVertex v => {.vertex v}
  | .addVertices vs => ⋃ v ∈ vs, {.vertex v}
  | .addEdge g e => g.edgeAdditions e
  | .addEdges g es => ⋃ e ∈ g.attempted es, g.edgeAdditions e
  | .condense side queried frontier =>
    {.vertex queried} ∪ {.condensed side}
      ∪ {.edge (side.edge EdgeLabel.condensed.name queried.responseId side.sentinel)}
      ∪ ⋃ v ∈ frontier, ({.vertex v}
        ∪ {.edge (side.edge EdgeLabel.condensed.name side.sentinel v.responseId)})

/-- A call that is made for a graph and names vertices of it. -/
def Call.Within (g : Graph) : Call Graph → Prop
  | .addVertex v => v ∈ allVertices g
  | .addVertices vs => ∀ v ∈ vs, v ∈ allVertices g
  | .addEdge of _ | .addEdges of _ => of = g
  | .condense _ queried frontier => queried ∈ allVertices g ∧ ∀ v ∈ frontier, v ∈ allVertices g

/-- Everything in a set has been added to a builder, and nothing else. -/
structure Gathers (g : Graph) (w : Whitelist) (A : Set Addition) (b : Builder) : Prop where
  whitelist_eq : b.whitelist = w
  known : ∀ v, .vertex v ∈ A → v ∈ allVertices g
  cached : ∀ (i : VertexId) id, b.ids[i]? = some id →
    ∃ v, .vertex v ∈ A ∧ v.id = i ∧ v.responseId = id
  filed : ∀ v, .vertex v ∈ A → v.responseId ∈ b.vertices
  stored : ∀ (id : String) r, b.vertices[id]? = some r →
    (∃ v, .vertex v ∈ A ∧ v.responseId = id ∧ r = v.abstract w)
      ∨ ∃ side, .condensed side ∈ A ∧ side.sentinel = id ∧ r = condensedVertex side
  condensed : ∀ side, .condensed side ∈ A →
    b.vertices[side.sentinel]? = some (condensedVertex side)
  edges : ∀ e, e ∈ b.edges ↔ .edge e ∈ A

variable {g : Graph} {w : Whitelist} {A : Set Addition} {b b' : Builder}

theorem gathers_empty (g : Graph) (w : Whitelist) : (empty w).Gathers g w ∅ where
  whitelist_eq := rfl
  known v hv := absurd hv (Set.notMem_empty _)
  cached i id h := by simp [empty] at h
  filed v hv := absurd hv (Set.notMem_empty _)
  stored id r h := by simp [empty] at h
  condensed side h := absurd h (Set.notMem_empty _)
  edges e := by simp [empty]

namespace Gathers

theorem foldl {α : Type} {f : Builder → α → Builder} {I : α → Set Addition} : ∀ (as : List α)
    {A : Set Addition} {b : Builder}, b.Gathers g w A →
      (∀ a ∈ as, ∀ {A b}, b.Gathers g w A → (f b a).Gathers g w (A ∪ I a)) →
      (as.foldl f b).Gathers g w (A ∪ ⋃ a ∈ as, I a)
  | [], _, _, h, _ => by simpa using h
  | a :: as, A, b, h, hstep => by
    have hrest := foldl as (hstep a List.mem_cons_self h)
      fun a' ha' => hstep a' (List.mem_cons_of_mem _ ha')
    simpa only [List.foldl_cons, List.mem_cons, Set.iUnion_iUnion_eq_or_left, Set.union_assoc]
      using hrest

/-! ## Single additions -/

theorem addVertex (h : b.Gathers g w A) (hg : g.Filed) {v : Vertex} (hv : v ∈ allVertices g) :
    (b.addVertex v).1 = v.responseId ∧ (b.addVertex v).2.Gathers g w (A ∪ {.vertex v}) := by
  unfold Builder.addVertex
  cases hid : b.ids[v.id]? with
  | some id =>
    obtain ⟨u, hu, huv, rfl⟩ := h.cached v.id id hid
    obtain rfl : u = v := by
      have hlook := hg.mem_allVertices.1 (h.known u hu)
      rw [huv, hg.mem_allVertices.1 hv] at hlook
      exact (Option.some.inj hlook).symm
    rw [Set.union_eq_self_of_subset_right (Set.singleton_subset_iff.2 hu)]
    exact ⟨rfl, h⟩
  | none =>
    have hkept : ∀ {id : String} {r}, b.vertices[id]? = some r →
        (b.vertices.insertIfNew (v.abstract b.whitelist).id (v.abstract b.whitelist))[id]?
          = some r := by
      intro id r hr
      rw [ExtTreeMap.getElem?_insertIfNew, if_neg, hr]
      rintro ⟨heq, hnew⟩
      rw [LawfulEqCmp.eq_of_compare heq] at hnew
      exact hnew (ExtTreeMap.isSome_getElem?_iff_mem.1 (by rw [hr]; rfl))
    refine ⟨rfl, h.whitelist_eq, fun u hu => ?_, fun i id hi => ?_, fun u hu => ?_,
      fun id r hr => ?_, fun side hside => ?_, fun e => ?_⟩
    · rcases hu with hu | hu
      · exact h.known u hu
      · cases hu
        exact hv
    · rw [ExtTreeMap.getElem?_insert] at hi
      split_ifs at hi with heq
      · exact ⟨v, .inr rfl, Nat.compare_eq_eq.1 heq, Option.some.inj hi⟩
      · obtain ⟨u, hu, huid, hresp⟩ := h.cached i id hi
        exact ⟨u, .inl hu, huid, hresp⟩
    · rcases hu with hu | hu
      · exact ExtTreeMap.mem_insertIfNew.2 (.inr (h.filed u hu))
      · cases hu
        exact ExtTreeMap.mem_insertIfNew_self
    · rw [ExtTreeMap.getElem?_insertIfNew] at hr
      split_ifs at hr with heq
      · rw [h.whitelist_eq] at heq hr
        exact .inl ⟨v, .inr rfl, LawfulEqCmp.eq_of_compare heq.1, (Option.some.inj hr).symm⟩
      · refine (h.stored id r hr).imp ?_ ?_
        · exact fun ⟨u, hu, hrest⟩ => ⟨u, .inl hu, hrest⟩
        · exact fun ⟨side, hside, hrest⟩ => ⟨side, .inl hside, hrest⟩
    · rcases hside with hside | hside
      · exact hkept (h.condensed side hside)
      · cases hside
    · exact (h.edges e).trans ⟨.inl, fun he => he.resolve_right nofun⟩

theorem addResponseEdge (h : b.Gathers g w A) (e : ResponseEdge) :
    Gathers g w (A ∪ {.edge e}) { b with edges := b.edges.insert e } where
  whitelist_eq := h.whitelist_eq
  known v hv := h.known v (hv.resolve_right nofun)
  cached i id hi := by
    obtain ⟨v, hv, hrest⟩ := h.cached i id hi
    exact ⟨v, .inl hv, hrest⟩
  filed v hv := h.filed v (hv.resolve_right nofun)
  stored id r hr := (h.stored id r hr).imp (fun ⟨v, hv, hrest⟩ => ⟨v, .inl hv, hrest⟩)
    fun ⟨side, hside, hrest⟩ => ⟨side, .inl hside, hrest⟩
  condensed side hside := h.condensed side (hside.resolve_right nofun)
  edges f := by
    rw [ExtTreeSet.mem_insert, LawfulEqCmp.compare_eq_iff_eq, h.edges, Set.mem_union,
      Set.mem_singleton_iff, Addition.edge.injEq, eq_comm, or_comm]

theorem insertSentinel (h : b.Gathers g w A) (side : Side) : Gathers g w (A ∪ {.condensed side})
    { b with vertices := b.vertices.insert side.sentinel (condensedVertex side) } where
  whitelist_eq := h.whitelist_eq
  known v hv := h.known v (hv.resolve_right nofun)
  cached i id hi := by
    obtain ⟨v, hv, hrest⟩ := h.cached i id hi
    exact ⟨v, .inl hv, hrest⟩
  filed v hv := ExtTreeMap.mem_insert.2 (.inr (h.filed v (hv.resolve_right nofun)))
  stored id r hr := by
    rw [ExtTreeMap.getElem?_insert] at hr
    split_ifs at hr with heq
    · exact .inr ⟨side, .inr rfl, LawfulEqCmp.eq_of_compare heq, (Option.some.inj hr).symm⟩
    · exact (h.stored id r hr).imp (fun ⟨v, hv, hrest⟩ => ⟨v, .inl hv, hrest⟩)
        fun ⟨other, hother, hrest⟩ => ⟨other, .inl hother, hrest⟩
  condensed other hother := by
    rw [ExtTreeMap.getElem?_insert]
    split_ifs with heq
    · rw [Side.sentinel_injective (LawfulEqCmp.eq_of_compare heq)]
    · refine h.condensed other (hother.resolve_right fun hside => heq ?_)
      cases hside
      exact compare_self
  edges e := (h.edges e).trans ⟨.inl, fun he => he.resolve_right nofun⟩

/-! ## Edges -/

/-- An end that is there is added like any vertex, whether it was cached or not. -/
theorem exists_addEnd (h : b.Gathers g w A) (hg : g.Filed) {i : VertexId} {v : Vertex}
    (hv : vertex? g i = some v) : ∃ b', b.addEnd g i = .ok (v.responseId, b')
      ∧ b'.Gathers g w (A ∪ {.vertex v}) := by
  obtain ⟨hmem, rfl⟩ := hg.vertex?_eq_some_iff.1 hv
  obtain ⟨hid, hadded⟩ := h.addVertex hg hmem
  refine ⟨_, ?_, hadded⟩
  rw [← hid]
  unfold addEnd
  cases hcached : b.ids[v.id]? with
  | some id => simp only [Builder.addVertex, hcached]
  | none =>
    rw [requireVertex_of_some hv]
    rfl

theorem addEnd_of_none (h : b.Gathers g w A) (hg : g.Filed) {i : VertexId}
    (hv : vertex? g i = none) : b.addEnd g i = .error (.vertexNotFound g.name i) := by
  unfold addEnd
  cases hid : b.ids[i]? with
  | some id =>
    obtain ⟨u, hu, rfl, -⟩ := h.cached i id hid
    rw [hg.mem_allVertices.1 (h.known u hu)] at hv
    cases hv
  | none =>
    rw [requireVertex_of_none hv]
    rfl

theorem exists_addEdge (h : b.Gathers g w A) (hg : g.Filed) {e : Edge}
    (hends : g.hasEnds e = true) :
    ∃ b', b.addEdge g e = .ok b' ∧ b'.Gathers g w (A ∪ g.edgeAdditions e) := by
  obtain ⟨hu, hv⟩ := Bool.and_eq_true_iff.1 hends
  obtain ⟨u, hu⟩ := Option.isSome_iff_exists.1 hu
  obtain ⟨v, hv⟩ := Option.isSome_iff_exists.1 hv
  obtain ⟨b₁, hsource, h₁⟩ := h.exists_addEnd hg hu
  obtain ⟨b₂, htarget, h₂⟩ := h₁.exists_addEnd hg hv
  have hadditions : g.edgeAdditions e = {.vertex u} ∪ {.vertex v}
      ∪ {.edge ⟨e.label, u.responseId, v.responseId⟩} := by
    ext a
    simp only [Graph.edgeAdditions, Set.mem_ofPred_eq, hu, hv, Option.some.injEq,
      exists_eq_left', Set.mem_union, Set.mem_singleton_iff, or_assoc]
  refine ⟨_, (bind_of_ok hsource _).trans (bind_of_ok htarget _), ?_⟩
  rw [hadditions, ← Set.union_assoc, ← Set.union_assoc]
  exact h₂.addResponseEdge _

/-- An edge that lacks an end fails, and leaves its source if only the target is missing. -/
theorem addEdge_of_not_hasEnds (h : b.Gathers g w A) (hg : g.Filed) {e : Edge}
    (hends : g.hasEnds e = false) : (∃ err, b.addEdge g e = .error err)
      ∧ (b.attemptEdge g e).Gathers g w (A ∪ g.edgeAdditions e) := by
  unfold Builder.attemptEdge
  cases hu : vertex? g e.source with
  | none =>
    have hadditions : g.edgeAdditions e = ∅ := by
      ext a
      simp [Graph.edgeAdditions, hu]
    rw [hadditions, Set.union_empty, addEdge, h.addEnd_of_none hg hu]
    exact ⟨⟨_, rfl⟩, h⟩
  | some u =>
    have hv : vertex? g e.target = none := by simpa [Graph.hasEnds, hu] using hends
    have hadditions : g.edgeAdditions e = {.vertex u} := by
      ext a
      simp [Graph.edgeAdditions, hu, hv]
    obtain ⟨b₁, hsource, h₁⟩ := h.exists_addEnd hg hu
    rw [hadditions, addEdge, hsource, bind_of_ok rfl]
    simp only [h₁.addEnd_of_none hg hv]
    exact ⟨⟨_, rfl⟩, h₁⟩

theorem attemptEdge (h : b.Gathers g w A) (hg : g.Filed) (e : Edge) :
    (b.attemptEdge g e).Gathers g w (A ∪ g.edgeAdditions e) := by
  cases hends : g.hasEnds e with
  | false => exact (h.addEdge_of_not_hasEnds hg hends).2
  | true =>
    obtain ⟨b', hadd, hb'⟩ := h.exists_addEdge hg hends
    rwa [attemptEdge_of_ok hadd]

theorem attemptEdges_eq_foldl (hg : g.Filed) : ∀ (es : List Edge) {A : Set Addition} {b : Builder},
    b.Gathers g w A → b.attemptEdges g es = (g.attempted es).foldl (Builder.attemptEdge g) b
  | [], _, _, _ => rfl
  | e :: es, A, b, h => by
    unfold Builder.attemptEdges Graph.attempted
    cases hends : g.hasEnds e with
    | false =>
      obtain ⟨⟨err, hadd⟩, -⟩ := h.addEdge_of_not_hasEnds hg hends
      rw [hadd]
      rfl
    | true =>
      obtain ⟨b', hadd, hb'⟩ := h.exists_addEdge hg hends
      rw [if_pos rfl, List.foldl_cons, attemptEdge_of_ok hadd, hadd]
      exact attemptEdges_eq_foldl hg es hb'

/-! ## Calls -/

theorem condense (h : b.Gathers g w A) (hg : g.Filed) (side : Side) {queried : Vertex}
    (hqueried : queried ∈ allVertices g) {frontier : List Vertex}
    (hfrontier : ∀ v ∈ frontier, v ∈ allVertices g) :
    (b.condense side queried frontier).Gathers g w
      (A ∪ Call.additions (.condense side queried frontier)) := by
  obtain ⟨hid, hadded⟩ := h.addVertex hg hqueried
  have hstart := (hadded.insertSentinel side).addResponseEdge
    (side.edge EdgeLabel.condensed.name queried.responseId side.sentinel)
  simp only [Call.additions, ← Set.union_assoc]
  rw [← hid] at hstart ⊢
  refine foldl frontier hstart fun v hv A b hb => ?_
  obtain ⟨hid, hb⟩ := hb.addVertex hg (hfrontier v hv)
  rw [← hid, ← Set.union_assoc]
  exact hb.addResponseEdge _

theorem perform (h : b.Gathers g w A) (hg : g.Filed) {c : Call Graph} (hc : c.Within g) :
    (b.perform c).Gathers g w (A ∪ c.additions) := by
  cases c with
  | addVertex v => exact (h.addVertex hg hc).2
  | addVertices vs => exact foldl vs h fun v hv A b hb => (hb.addVertex hg (hc v hv)).2
  | addEdge of e =>
    obtain rfl : of = g := hc
    exact h.attemptEdge hg e
  | addEdges of es =>
    obtain rfl : of = g := hc
    rw [Builder.perform, attemptEdges_eq_foldl hg es h]
    exact foldl _ h fun e _ A b hb => hb.attemptEdge hg e
  | condense side queried frontier => exact h.condense hg side hc.1 hc.2

theorem performAll (h : b.Gathers g w A) (hg : g.Filed) (calls : List (Call Graph))
    (hcalls : ∀ c ∈ calls, c.Within g) :
    (b.performAll calls).Gathers g w (A ∪ ⋃ c ∈ calls, c.additions) :=
  foldl calls h fun c hc _ _ hb => hb.perform hg (hcalls c hc)

/-! ## The response -/

/-- Under one id two builders with the same additions have the same vertex. -/
theorem eq_of_getElem? (h : b.Gathers g w A) (h' : b'.Gathers g w A)
    (hdistinct : Set.InjOn Vertex.responseId {v | .vertex v ∈ A}) {id : String}
    {r r' : ResponseVertex} (hr : b.vertices[id]? = some r) (hr' : b'.vertices[id]? = some r') :
    r = r' := by
  rcases h.stored id r hr with ⟨v, hv, rfl, rfl⟩ | ⟨side, hside, rfl, rfl⟩
  · rcases h'.stored _ r' hr' with ⟨v', hv', hid, rfl⟩ | ⟨side, hside, hid, rfl⟩
    · rw [hdistinct hv' hv hid]
    · rw [← hid, h.condensed side hside] at hr
      exact (Option.some.inj hr).symm
  · rw [h'.condensed side hside] at hr'
    exact Option.some.inj hr'

theorem mem_vertices_iff (h : b.Gathers g w A) {id : String} :
    id ∈ b.vertices ↔ (∃ v, .vertex v ∈ A ∧ v.responseId = id)
      ∨ ∃ side, .condensed side ∈ A ∧ side.sentinel = id := by
  constructor
  · intro hid
    refine (h.stored id _ (ExtTreeMap.getElem?_eq_some_getElem hid)).imp ?_ ?_
    · exact fun ⟨v, hv, heq, _⟩ => ⟨v, hv, heq⟩
    · exact fun ⟨side, hside, heq, _⟩ => ⟨side, hside, heq⟩
  · rintro (⟨v, hv, rfl⟩ | ⟨side, hside, rfl⟩)
    · exact h.filed v hv
    · exact ExtTreeMap.isSome_getElem?_iff_mem.1 (by rw [h.condensed side hside]; rfl)

/-- What was added determines the response, where response ids tell the added vertices apart. -/
theorem finish_eq (h : b.Gathers g w A) (h' : b'.Gathers g w A)
    (hdistinct : Set.InjOn Vertex.responseId {v | .vertex v ∈ A}) : b.finish = b'.finish := by
  have hvertices : b.vertices = b'.vertices := by
    refine ExtTreeMap.ext_getElem? fun id => ?_
    have hfiled : id ∈ b.vertices ↔ id ∈ b'.vertices :=
      h.mem_vertices_iff.trans h'.mem_vertices_iff.symm
    rw [← ExtTreeMap.isSome_getElem?_iff_mem, ← ExtTreeMap.isSome_getElem?_iff_mem] at hfiled
    refine Option.ext fun r => ⟨fun hr => ?_, fun hr => ?_⟩
    · obtain ⟨r', hr'⟩ := Option.isSome_iff_exists.1 (hfiled.1 (by rw [hr]; rfl))
      rw [hr', h.eq_of_getElem? h' hdistinct hr hr']
    · obtain ⟨r', hr'⟩ := Option.isSome_iff_exists.1 (hfiled.2 (by rw [hr]; rfl))
      rw [hr', h.eq_of_getElem? h' hdistinct hr' hr]
  have hedges : b.edges = b'.edges :=
    ExtTreeSet.ext_mem fun e => (h.edges e).trans (h'.edges e).symm
  rw [finish, finish, hvertices, hedges]

end Gathers

/-! ## Sequences of calls -/

/-- The same call, up to the order of a frontier and repetitions in it. -/
inductive Call.Same : Call Graph → Call Graph → Prop
  | refl (c : Call Graph) : Same c c
  | condense (side : Side) (queried : Vertex) {frontier frontier' : List Vertex}
    (h : ∀ v, v ∈ frontier ↔ v ∈ frontier') :
    Same (.condense side queried frontier) (.condense side queried frontier')

/-- The same set of calls, in any order and any number of times. -/
structure SameCalls (calls calls' : List (Call Graph)) : Prop where
  forth : ∀ c ∈ calls, ∃ c' ∈ calls', c.Same c'
  back : ∀ c' ∈ calls', ∃ c ∈ calls, c.Same c'

theorem Call.Same.additions_eq {c c' : Call Graph} (h : c.Same c') :
    c.additions = c'.additions := by
  cases h with
  | refl => rfl
  | condense side queried h => simp only [Call.additions, h]

theorem Call.Same.within {c c' : Call Graph} (h : c.Same c') (hc : c.Within g) : c'.Within g := by
  cases h with
  | refl => exact hc
  | condense side queried h => exact ⟨hc.1, fun v hv => hc.2 v ((h v).2 hv)⟩

theorem SameCalls.additions_eq {calls calls' : List (Call Graph)} (h : SameCalls calls calls') :
    (⋃ c ∈ calls, c.additions) = ⋃ c ∈ calls', c.additions := by
  refine Set.Subset.antisymm (Set.iUnion₂_subset fun c hc => ?_)
    (Set.iUnion₂_subset fun c' hc' => ?_)
  · obtain ⟨c', hc', hsame⟩ := h.forth c hc
    exact hsame.additions_eq ▸ Set.subset_biUnion_of_mem (u := Call.additions) hc'
  · obtain ⟨c, hc, hsame⟩ := h.back c' hc'
    exact hsame.additions_eq ▸ Set.subset_biUnion_of_mem (u := Call.additions) hc

/-- The vertices that calls add, ends of edges included. -/
def addedVertices (calls : List (Call Graph)) : Set Vertex :=
  {v | ∃ c ∈ calls, .vertex v ∈ c.additions}

/-- Calls add no vertices but those of their graph. -/
theorem mem_allVertices_of_added (hg : g.Filed) {calls : List (Call Graph)}
    (hcalls : ∀ c ∈ calls, c.Within g) : addedVertices calls ⊆ {v | v ∈ allVertices g} := by
  rintro v ⟨c, hc, hv⟩
  exact ((gathers_empty g .standard).performAll hg calls hcalls).known v
    (.inr (Set.mem_biUnion hc hv))

end Builder

/-- Calls for one graph, over vertices with different response ids, leave the same response in
whatever order and however often they are made. -/
theorem finish_eq_of_sameCalls {g : Graph} (hg : g.Storable) (w : Whitelist)
    {calls calls' : List (Builder.Call Graph)} (hcalls : ∀ c ∈ calls, c.Within g)
    (hdistinct : Set.InjOn Vertex.responseId (Builder.addedVertices calls))
    (hsame : Builder.SameCalls calls calls') :
    ((Builder.empty w).performAll calls).finish = ((Builder.empty w).performAll calls').finish := by
  have hfiled := hg.sound.toFiled
  have hcalls' : ∀ c ∈ calls', c.Within g := fun c' hc' => by
    obtain ⟨c, hc, hsame⟩ := hsame.back c' hc'
    exact hsame.within (hcalls c hc)
  have h := (Builder.gathers_empty g w).performAll hfiled calls hcalls
  have h' := (Builder.gathers_empty g w).performAll hfiled calls' hcalls'
  rw [← hsame.additions_eq] at h'
  refine h.finish_eq h' fun u hu v hv => hdistinct ?_ ?_
  · simpa [Builder.addedVertices] using hu
  · simpa [Builder.addedVertices] using hv

/-- Two columns feed a third, and one of them goes by the id of a condensed frontier. -/
def sampleInflow : List Episode :=
  [⟨["a", "condensedSource", "c"].map (fun n => .addVertex "Column" {(Key.nodeId, n)})
    ++ [.addEdge "ColumnAndProcess" 0 2 ∅, .addEdge "ColumnAndProcess" 1 2 ∅], .commit⟩]

def inflowColumn (i : VertexId) (n : String) : Vertex := ⟨i, "Column", {(Key.nodeId, n)}⟩

/-- An edge before its ends, a frontier, and an edge to a vertex that is not there. -/
def sampleCalls (g : Graph) : List (Builder.Call Graph) :=
  [.addEdge g ⟨0, "ColumnAndProcess", 0, 2, ∅⟩,
    .condense .source (inflowColumn 2 "c") [inflowColumn 0 "a", inflowColumn 1 "condensedSource"],
    .addVertex (inflowColumn 1 "condensedSource"), .addEdge g ⟨7, "ColumnAndProcess", 1, 9, ∅⟩]

/-- The same calls from the last to the first, the frontier turned round and made twice. -/
def sampleCallsTurned (g : Graph) : List (Builder.Call Graph) :=
  [.addEdge g ⟨7, "ColumnAndProcess", 1, 9, ∅⟩, .addVertex (inflowColumn 1 "condensedSource"),
    .condense .source (inflowColumn 2 "c") [inflowColumn 1 "condensedSource", inflowColumn 0 "a"],
    .addEdge g ⟨0, "ColumnAndProcess", 0, 2, ∅⟩,
    .condense .source (inflowColumn 2 "c") [inflowColumn 0 "a", inflowColumn 1 "condensedSource"]]

theorem finish_eq_of_sameCalls_sampleInflow :
    let g := (Graph.empty "main").after sampleInflow
    g.Storable ∧ (∀ c ∈ sampleCalls g, c.Within g)
      ∧ Set.InjOn Vertex.responseId (Builder.addedVertices (sampleCalls g))
      ∧ Builder.SameCalls (sampleCalls g) (sampleCallsTurned g)
      ∧ ((Builder.empty .standard).performAll (sampleCalls g)).finish
        = ((Builder.empty .standard).performAll (sampleCallsTurned g)).finish := by
  intro g
  have hg : g.Storable := Graph.storable_after_empty "main" sampleInflow
  have hmem : inflowColumn 2 "c" ∈ allVertices g
      ∧ ∀ v ∈ [inflowColumn 0 "a", inflowColumn 1 "condensedSource"], v ∈ allVertices g := by
    decide +kernel
  have hcalls : ∀ c ∈ sampleCalls g, c.Within g := by
    intro c hc
    simp only [sampleCalls, List.mem_cons, List.not_mem_nil, or_false] at hc
    rcases hc with rfl | rfl | rfl | rfl
    · rfl
    · exact hmem
    · exact hmem.2 _ (by simp)
    · rfl
  have hids : ∀ u ∈ allVertices g, ∀ v ∈ allVertices g, u.responseId = v.responseId → u = v := by
    decide +kernel
  have hdistinct : Set.InjOn Vertex.responseId (Builder.addedVertices (sampleCalls g)) :=
    Set.InjOn.mono (Builder.mem_allVertices_of_added hg.sound.toFiled hcalls)
      fun u hu v hv => hids u hu v hv
  have hturned : Builder.Call.Same
      (.condense .source (inflowColumn 2 "c")
        [inflowColumn 0 "a", inflowColumn 1 "condensedSource"] : Builder.Call Graph)
      (.condense .source (inflowColumn 2 "c")
        [inflowColumn 1 "condensedSource", inflowColumn 0 "a"]) :=
    .condense .source _ fun v => (List.Perm.swap ..).mem_iff
  have hsame : Builder.SameCalls (sampleCalls g) (sampleCallsTurned g) := by
    constructor
    · intro c hc
      simp only [sampleCalls, List.mem_cons, List.not_mem_nil, or_false] at hc
      rcases hc with rfl | rfl | rfl | rfl
      · exact ⟨_, by simp [sampleCallsTurned], .refl _⟩
      · exact ⟨_, by simp [sampleCallsTurned], hturned⟩
      · exact ⟨_, by simp [sampleCallsTurned], .refl _⟩
      · exact ⟨_, by simp [sampleCallsTurned], .refl _⟩
    · intro c hc
      simp only [sampleCallsTurned, List.mem_cons, List.not_mem_nil, or_false] at hc
      rcases hc with rfl | rfl | rfl | rfl | rfl
      · exact ⟨_, by simp [sampleCalls], .refl _⟩
      · exact ⟨_, by simp [sampleCalls], .refl _⟩
      · exact ⟨_, by simp [sampleCalls], hturned⟩
      · exact ⟨_, by simp [sampleCalls], .refl _⟩
      · exact ⟨_, by simp [sampleCalls], .refl _⟩
  exact ⟨hg, hcalls, hdistinct, hsame, finish_eq_of_sameCalls hg .standard hcalls hdistinct hsame⟩

end Lineage
