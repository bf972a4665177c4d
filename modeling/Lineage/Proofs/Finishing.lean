import Lineage.Proofs.Directions

/-!
# Finished responses

Whatever is asked of a builder and in whatever order, the response that comes of it is in order
(`Response.Tidy`): vertices go up by id, edges by label, source and destination, and both ends of
each edge are listed. A builder files vertices twice, under the ids of the store and under response
ids. What carries the proof is that an id which has been handed out stays filed
(`Builder.Closed`), also where response ids collide, where a synthetic vertex takes the place of a
stored one, and where one end of an edge is missing and the other is left behind
(`Builder.attemptEdge`). A query asks nothing else of its builder (`Builder.becomes_assemble`), so
every answer is in order (`tidy_performAll`).
-/

namespace Lineage

open Std Query

/-- The order in which responses list edges. -/
def ResponseEdge.Before (e f : ResponseEdge) : Prop :=
  e.label < f.label ∨ e.label = f.label ∧ (e.source < f.source
    ∨ e.source = f.source ∧ e.destination < f.destination)

theorem ResponseEdge.before_of_order_eq_lt {e f : ResponseEdge}
    (h : ResponseEdge.order e f = .lt) : e.Before f := by
  rcases Ordering.then_eq_lt.1 h with hlabel | ⟨hlabel, h⟩
  · exact .inl (compareOfLessAndEq_eq_lt.1 hlabel)
  · refine .inr ⟨LawfulEqOrd.eq_of_compare hlabel, ?_⟩
    rcases Ordering.then_eq_lt.1 h with hsource | ⟨hsource, hdestination⟩
    · exact .inl (compareOfLessAndEq_eq_lt.1 hsource)
    · exact .inr ⟨LawfulEqOrd.eq_of_compare hsource, compareOfLessAndEq_eq_lt.1 hdestination⟩

/-- A response lists vertices and edges in their orders, none twice, and the ends of every edge. -/
structure Response.Tidy (r : Response) : Prop where
  vertices_ascending : r.vertices.Pairwise fun u v => u.id < v.id
  edges_ascending : r.edges.Pairwise ResponseEdge.Before
  ends : ∀ e ∈ r.edges, (∃ u ∈ r.vertices, u.id = e.source)
    ∧ ∃ v ∈ r.vertices, v.id = e.destination

namespace Builder

/-! ## Calls -/

/-- What may be asked of a builder. -/
inductive Call (γ : Type) where
  | addVertex (v : Vertex)
  | addVertices (vs : List Vertex)
  | addEdge (g : γ) (e : Edge)
  | addEdges (g : γ) (es : List Edge)
  | condense (side : Side) (queried : Vertex) (frontier : List Vertex)

section Calls

variable {γ : Type} [Readable γ]

/-- What an edge leaves in a builder; if its target is missing, that is its source. -/
def attemptEdge (g : γ) (b : Builder) (e : Edge) : Builder :=
  match b.addEnd g e.source with
  | .error _ => b
  | .ok (source, b) =>
    match b.addEnd g e.target with
    | .error _ => b
    | .ok (target, b) => { b with edges := b.edges.insert ⟨e.label, source, target⟩ }

/-- What edges leave in a builder; the first that fails is the last attempted. -/
def attemptEdges (g : γ) : Builder → List Edge → Builder
  | b, [] => b
  | b, e :: es =>
    match b.addEdge g e with
    | .error _ => b.attemptEdge g e
    | .ok b => attemptEdges g b es

/-- Makes a call, and goes on with what it leaves also where it fails. -/
def perform (b : Builder) : Call γ → Builder
  | .addVertex v => (b.addVertex v).2
  | .addVertices vs => b.addVertices vs
  | .addEdge g e => b.attemptEdge g e
  | .addEdges g es => b.attemptEdges g es
  | .condense side queried frontier => b.condense side queried frontier

def performAll (b : Builder) (calls : List (Call γ)) : Builder := calls.foldl perform b

variable {g : γ} {b b' : Builder}

theorem attemptEdge_of_ok {e : Edge} (h : b.addEdge g e = .ok b') : b.attemptEdge g e = b' := by
  obtain ⟨⟨source, b₁⟩, hsource, h⟩ := exists_of_bind_ok h
  obtain ⟨⟨target, b₂⟩, htarget, h⟩ := exists_of_bind_ok h
  simp only [attemptEdge, hsource, htarget]
  exact Except.ok.inj h

theorem attemptEdges_of_ok : ∀ (es : List Edge) {b : Builder}, b.addEdges g es = .ok b' →
    b.attemptEdges g es = b'
  | [], _, h => Except.ok.inj h
  | e :: es, b, h => by
    obtain ⟨b₁, hfirst, hrest⟩ := exists_of_bind_ok (x := b.addEdge g e) h
    simp only [attemptEdges, hfirst]
    exact attemptEdges_of_ok es hrest

end Calls

/-! ## What calls keep -/

/-- Every response id that is cached or is an end of an edge is filed, under itself. -/
structure Closed (b : Builder) : Prop where
  cached : ∀ (i : VertexId) id, b.ids[i]? = some id → id ∈ b.vertices
  own : ∀ (id : String) v, b.vertices[id]? = some v → v.id = id
  ends : ∀ e ∈ b.edges, e.source ∈ b.vertices ∧ e.destination ∈ b.vertices

/-- A builder hands out a response id, files it and keeps what it has. -/
structure HandsOut (b : Builder) (id : String) (b' : Builder) : Prop where
  closed : b'.Closed
  filed : id ∈ b'.vertices
  kept : ∀ other ∈ b.vertices, other ∈ b'.vertices

theorem closed_empty (w : Whitelist) : (empty w).Closed where
  cached i id h := by simp [empty] at h
  own id v h := by simp [empty] at h
  ends e h := by simp [empty] at h

namespace Closed

variable {b b' : Builder}

theorem addVertex (h : b.Closed) (v : Vertex) : b.HandsOut (b.addVertex v).1 (b.addVertex v).2 := by
  unfold Builder.addVertex
  cases hid : b.ids[v.id]? with
  | some id => exact ⟨h, h.cached v.id id hid, fun _ hother => hother⟩
  | none =>
    have hkept : ∀ id ∈ b.vertices, id ∈ b.vertices.insertIfNew (v.abstract b.whitelist).id
        (v.abstract b.whitelist) := fun id hid => ExtTreeMap.mem_insertIfNew.2 (.inr hid)
    have hfiled : (v.abstract b.whitelist).id ∈ b.vertices.insertIfNew
        (v.abstract b.whitelist).id (v.abstract b.whitelist) := ExtTreeMap.mem_insertIfNew_self
    refine ⟨⟨fun i id hi => ?_, fun id u hu => ?_, fun e he => ?_⟩, hfiled, hkept⟩
    · rw [ExtTreeMap.getElem?_insert] at hi
      split_ifs at hi
      · exact Option.some.inj hi ▸ hfiled
      · exact hkept id (h.cached i id hi)
    · rw [ExtTreeMap.getElem?_insertIfNew] at hu
      split_ifs at hu with heq
      · rw [← Option.some.inj hu]
        exact LawfulEqCmp.eq_of_compare heq.1
      · exact h.own id u hu
    · exact (h.ends e he).imp (hkept _) (hkept _)

theorem addVertices (h : b.Closed) (vs : List Vertex) : (b.addVertices vs).Closed :=
  List.foldlRecOn vs _ h fun _ hb v _ => (hb.addVertex v).closed

theorem addResponseEdge (h : b.Closed) {e : ResponseEdge} (hsource : e.source ∈ b.vertices)
    (hdestination : e.destination ∈ b.vertices) :
    Closed { b with edges := b.edges.insert e } where
  cached := h.cached
  own := h.own
  ends f hf := by
    rcases ExtTreeSet.mem_insert.1 hf with heq | hf
    · rw [← LawfulEqCmp.eq_of_compare heq]
      exact ⟨hsource, hdestination⟩
    · exact h.ends f hf

theorem addSideEdge (h : b.Closed) (side : Side) (label : String) {nearer farther : String}
    (hnearer : nearer ∈ b.vertices) (hfarther : farther ∈ b.vertices) :
    Closed { b with edges := b.edges.insert (side.edge label nearer farther) } := by
  cases side with
  | source => exact h.addResponseEdge hfarther hnearer
  | destination => exact h.addResponseEdge hnearer hfarther

theorem addEnd {γ : Type} [Readable γ] {g : γ} (h : b.Closed) {i : VertexId} {id : String}
    (hadd : b.addEnd g i = .ok (id, b')) : b.HandsOut id b' := by
  rcases addEnd_cases hadd with ⟨hid, rfl⟩ | ⟨v, -, hv⟩
  · exact ⟨h, h.cached i id hid, fun _ hother => hother⟩
  · have hadded := h.addVertex v
    rwa [hv] at hadded

theorem attemptEdge {γ : Type} [Readable γ] (g : γ) (h : b.Closed) (e : Edge) :
    (b.attemptEdge g e).Closed := by
  unfold Builder.attemptEdge
  split
  · exact h
  · rename_i source b₁ hsource
    have h₁ := h.addEnd hsource
    split
    · exact h₁.closed
    · rename_i target b₂ htarget
      have h₂ := h₁.closed.addEnd htarget
      exact h₂.closed.addResponseEdge (h₂.kept source h₁.filed) h₂.filed

theorem attemptEdges {γ : Type} [Readable γ] (g : γ) : ∀ (es : List Edge) {b : Builder}, b.Closed →
    (b.attemptEdges g es).Closed
  | [], _, h => h
  | e :: es, b, h => by
    have hfirst := h.attemptEdge g e
    unfold Builder.attemptEdges
    cases hadd : b.addEdge g e with
    | error _ => exact hfirst
    | ok b₁ => exact attemptEdges g es (attemptEdge_of_ok hadd ▸ hfirst)

/-- The synthetic vertex takes the place of what was filed under its id. -/
theorem insertSentinel (h : b.Closed) (side : Side) : b.HandsOut side.sentinel
    { b with vertices := b.vertices.insert side.sentinel (condensedVertex side) } := by
  have hkept : ∀ id ∈ b.vertices, id ∈ b.vertices.insert side.sentinel (condensedVertex side) :=
    fun id hid => ExtTreeMap.mem_insert.2 (.inr hid)
  refine ⟨⟨fun i id hi => hkept id (h.cached i id hi), fun id v hv => ?_, fun e he => ?_⟩,
    ExtTreeMap.mem_insert_self, hkept⟩
  · rw [ExtTreeMap.getElem?_insert] at hv
    split_ifs at hv with heq
    · rw [← Option.some.inj hv]
      exact LawfulEqCmp.eq_of_compare heq
    · exact h.own id v hv
  · exact (h.ends e he).imp (hkept _) (hkept _)

theorem condense (h : b.Closed) (side : Side) (queried : Vertex) (frontier : List Vertex) :
    (b.condense side queried frontier).Closed := by
  have hqueried := h.addVertex queried
  have hsentinel := hqueried.closed.insertSentinel side
  have hstart := hsentinel.closed.addSideEdge side EdgeLabel.condensed.name
    (hsentinel.kept _ hqueried.filed) hsentinel.filed
  suffices hall : (b.condense side queried frontier).Closed
      ∧ side.sentinel ∈ (b.condense side queried frontier).vertices from hall.1
  -- every edge to the frontier runs to or from the synthetic vertex, which stays filed
  refine List.foldlRecOn (motive := fun b : Builder => b.Closed ∧ side.sentinel ∈ b.vertices)
    frontier _ ⟨hstart, hsentinel.filed⟩ fun b hb v _ => ?_
  have hv := hb.1.addVertex v
  have hfiled := hv.kept _ hb.2
  exact ⟨hv.closed.addSideEdge side _ hfiled hv.filed, hfiled⟩

theorem perform {γ : Type} [Readable γ] (h : b.Closed) (c : Call γ) : (b.perform c).Closed := by
  cases c with
  | addVertex v => exact (h.addVertex v).closed
  | addVertices vs => exact h.addVertices vs
  | addEdge g e => exact h.attemptEdge g e
  | addEdges g es => exact attemptEdges g es h
  | condense side queried frontier => exact h.condense side queried frontier

theorem performAll {γ : Type} [Readable γ] (h : b.Closed) (calls : List (Call γ)) :
    (b.performAll calls).Closed :=
  List.foldlRecOn calls _ h fun _ hb c _ => hb.perform c

/-! ## The response -/

theorem finish (h : b.Closed) : b.finish.Tidy where
  vertices_ascending := by
    have hkeys : (b.finish.vertices.map (·.id)).Pairwise (· < ·) := by
      rw [map_id_finish h.own]
      exact (ExtTreeMap.ordered_keys (t := b.vertices)).imp fun {a b} hlt =>
        compareOfLessAndEq_eq_lt.1 (show compare a b = .lt from hlt)
    exact List.pairwise_map.1 hkeys
  edges_ascending :=
    (ExtTreeSet.ordered_toList (t := b.edges)).imp ResponseEdge.before_of_order_eq_lt
  ends e he := by
    obtain ⟨hsource, hdestination⟩ := h.ends e (ExtTreeSet.mem_toList.1 he)
    exact ⟨exists_mem_finish h.own hsource, exists_mem_finish h.own hdestination⟩

end Closed

/-! ## Queries -/

/-- Some calls make one builder of another. -/
def Becomes (γ : Type) [Readable γ] (b b' : Builder) : Prop :=
  ∃ calls : List (Call γ), b.performAll calls = b'

namespace Becomes

variable {γ : Type} [Readable γ] {b b' b'' : Builder}

theorem refl (b : Builder) : Becomes γ b b := ⟨[], rfl⟩

theorem trans (h : Becomes γ b b') (h' : Becomes γ b' b'') : Becomes γ b b'' := by
  obtain ⟨calls, rfl⟩ := h
  obtain ⟨more, rfl⟩ := h'
  exact ⟨calls ++ more, List.foldl_append⟩

theorem single (b : Builder) (c : Call γ) : Becomes γ b (b.perform c) := ⟨[c], rfl⟩

theorem addEdge {g : γ} {e : Edge} (h : b.addEdge g e = .ok b') : Becomes γ b b' :=
  attemptEdge_of_ok h ▸ single b (.addEdge g e)

theorem addEdges {g : γ} {es : List Edge} (h : b.addEdges g es = .ok b') : Becomes γ b b' :=
  attemptEdges_of_ok es h ▸ single b (.addEdges g es)

theorem foldlM {ε α : Type} {f : Builder → α → Except ε Builder}
    (hf : ∀ a {b b'}, f b a = .ok b' → Becomes γ b b') {as : List α}
    (h : as.foldlM f b = .ok b') : Becomes γ b b' :=
  foldlM_ok as h (refl b) fun a _ _ _ hb hstep => hb.trans (hf a hstep)

end Becomes

section Queries

variable {γ : Type} [Readable γ] {g : γ} {b b' : Builder} {q : Vertex}

theorem becomes_added {r : Reach} (h : (b.addVertices r.vertices).addEdges g r.edges = .ok b') :
    Becomes γ b b' :=
  (Becomes.single b (.addVertices r.vertices)).trans (.addEdges h)

theorem becomes_addSide {scope : Scope} {text : String} {label : EdgeLabel} {side : Side}
    (h : addSide g scope text label q side b = .ok b') : Becomes γ b b' := by
  obtain ⟨r, hr, -⟩ := exists_of_bind_ok h
  rw [addSide_of_reach (ok_of_lift hr)] at h
  split at h
  · cases h
  · split_ifs at h
    · cases h
      exact .refl b
    · exact becomes_added (ok_of_lift h)
  · cases h
    exact .single b (.condense side q r.terminals)

theorem becomes_addReach {direction : Direction} {label : EdgeLabel}
    (h : addReach g q direction label b = .ok b') : Becomes γ b b' := by
  obtain ⟨r, -, h⟩ := exists_of_bind_ok h
  exact becomes_added h

theorem becomes_addAssets {term : Vertex} (h : addAssets g term b = .ok b') : Becomes γ b b' := by
  obtain ⟨assets, -, h⟩ := exists_of_bind_ok h
  exact .foldlM (fun p _ _ hadd => (Becomes.single _ (.addVertex p.2)).trans (.addEdge hadd)) h

theorem becomes_addGlossary (h : addGlossary g q b = .ok b') : Becomes γ b b' := by
  obtain ⟨r, -, h⟩ := exists_of_bind_ok h
  obtain ⟨b₁, hterms, h⟩ := exists_of_bind_ok h
  exact (becomes_added hterms).trans (.foldlM (fun _ _ _ => becomes_addAssets) h)

/-- All that a query asks of its builder are calls. -/
theorem becomes_assemble {scope : Scope} {view : View} {text : String}
    (h : assemble g scope view text q b = .ok b') : Becomes γ b b' := by
  refine (Becomes.single b (.addVertex q)).trans ?_
  cases scope with
  | ultimateSource => exact becomes_addSide h
  | ultimateDestination => exact becomes_addSide h
  | sourceAndDestination =>
    obtain ⟨b₁, hsource, hdestination⟩ := exists_of_bind_ok h
    exact (becomes_addSide hsource).trans (becomes_addSide hdestination)
  | endToEnd =>
    obtain ⟨b₁, hsource, hdestination⟩ := exists_of_bind_ok h
    exact (becomes_addReach (ok_of_lift hsource)).trans (becomes_addReach (ok_of_lift hdestination))
  | glossary => exact becomes_addGlossary (ok_of_lift h)

end Queries

end Builder

theorem exists_becomes_of_answer {γ : Type} [Readable γ] {g : γ} {w : Whitelist} {name : GraphName}
    {scope : Scope} {view : View} {text : String} {r : Response}
    (h : answer g w name scope view text = .ok r) :
    ∃ b, Builder.Becomes γ (.empty w) b ∧ r = b.finish := by
  unfold answer at h
  cases hq : findNode? g text with
  | none =>
    rw [hq] at h
    cases h
  | some q =>
    rw [hq] at h
    obtain ⟨b, hb, h⟩ := exists_of_bind_ok h
    cases h
    exact ⟨b, Builder.becomes_assemble hb, rfl⟩

/-- After any calls with any vertices and edges, of the graphs or not, the finished response is in
order; and so is every answer. -/
theorem tidy_performAll {γ : Type} [Readable γ] (w : Whitelist) :
    (∀ calls : List (Builder.Call γ), ((Builder.empty w).performAll calls).finish.Tidy)
    ∧ ∀ (g : γ) name scope view text r, answer g w name scope view text = .ok r → r.Tidy := by
  have hcalls (calls : List (Builder.Call γ)) :
      ((Builder.empty w).performAll calls).finish.Tidy :=
    ((Builder.closed_empty w).performAll calls).finish
  refine ⟨hcalls, fun g name scope view text r hr => ?_⟩
  obtain ⟨_, ⟨calls, rfl⟩, rfl⟩ := exists_becomes_of_answer hr
  exact hcalls calls

/-- Two vertices with one response id, a frontier with the id of the vertex that condenses it, and
an edge without a target. -/
def clashingCalls : List (Builder.Call Graph) :=
  let column (i : VertexId) (n : String) : Vertex :=
    ⟨i, "Column", ExtTreeMap.ofList [(Key.nodeId, n)]⟩
  let g := (Graph.empty "main").insertVertex (column 0 "b")
  [.addVertices [column 0 "b", column 1 "b"], .addEdge g ⟨0, "ColumnAndProcess", 0, 7, ∅⟩,
    .condense .source (column 2 "a") [column 3 "condensedSource"]]

example : (((Builder.empty .standard).performAll clashingCalls).finish.vertexIds,
    ((Builder.empty .standard).performAll clashingCalls).finish.edges.map
      fun e => (e.source, e.destination))
      = (["a", "b", "condensedSource"],
        [("condensedSource", "a"), ("condensedSource", "condensedSource")]) := by
  decide +kernel

end Lineage
