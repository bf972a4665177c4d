import Lineage.Proofs.Histories
import Lineage.Proofs.Loading

/-!
# Stored graphs

What a store holds was loaded from a document, with ids of the document's choice, and then written
in transactions. The edge ids of a document may be repeated, and then adjacency and links do not say
what the edges say. What every stored graph has is sound records (`Graph.Sound`): vertices and edges
under their own ids, a property index that finds what a scan finds, and both ends of every edge.
-/

namespace Lineage

open Std

namespace Graph

structure Sound (g : Graph) : Prop extends Filed g where
  edge_id : ∀ {i : EdgeId} {e}, g.edges[i]? = some e → e.id = i
  ends : ∀ {i : EdgeId} {e}, g.edges[i]? = some e → e.source ∈ g.vertices ∧ e.target ∈ g.vertices

theorem sound_empty (name : String) : (empty name).Sound where
  toFiled := (coherent_empty name).filed
  edge_id h := by simp [empty] at h
  ends h := by simp [empty] at h

namespace Sound

variable {g : Graph}

theorem insertVertex (h : g.Sound) (v : Vertex) : (g.insertVertex v).Sound where
  toFiled := h.toFiled.insertVertex v
  edge_id := h.edge_id
  ends he := (h.ends he).imp (fun hs => ExtTreeMap.mem_insert.2 (.inr hs))
    fun ht => ExtTreeMap.mem_insert.2 (.inr ht)

/-- An edge may go in under any id, also under one that is taken. -/
theorem attach (h : g.Sound) {e : Edge} (he : e.source ∈ g.vertices ∧ e.target ∈ g.vertices) :
    (g.attach e).Sound where
  toFiled := ⟨h.vertex_id, h.holders⟩
  edge_id {i d} hd := by
    simp only [Graph.attach, ExtTreeMap.getElem?_insert, Nat.compare_eq_eq] at hd
    split_ifs at hd with hi
    · rw [← Option.some.inj hd, hi]
    · exact h.edge_id hd
  ends {i d} hd := by
    simp only [Graph.attach, ExtTreeMap.getElem?_insert, Nat.compare_eq_eq] at hd
    split_ifs at hd
    · rwa [← Option.some.inj hd]
    · exact h.ends hd

theorem foldl_insertVertex : ∀ (vs : List Vertex) {g : Graph}, g.Sound →
    (vs.foldl Graph.insertVertex g).Sound
  | [], _, h => h
  | v :: vs, _, h => foldl_insertVertex vs (h.insertVertex v)

theorem foldl_attach : ∀ (es : List Edge) {g : Graph}, g.Sound →
    (∀ e ∈ es, e.source ∈ g.vertices ∧ e.target ∈ g.vertices) → (es.foldl Graph.attach g).Sound
  | [], _, h, _ => h
  | e :: es, _, h, hes => foldl_attach es (h.attach (hes e List.mem_cons_self))
    fun d hd => hes d (List.mem_cons_of_mem _ hd)

/-- Counters do not matter. -/
theorem raise (h : g.Sound) (i : VertexId) (j : EdgeId) :
    Sound { g with nextVertex := i, nextEdge := j } :=
  ⟨⟨h.vertex_id, h.holders⟩, h.edge_id, h.ends⟩

theorem load {d : Document} {name : String} (h : d.toGraph name = .ok g) : g.Sound := by
  obtain ⟨hends, rfl⟩ := Document.toGraph_eq_ok_iff.1 h
  refine foldl_attach _ (foldl_insertVertex _ (sound_empty name)) fun e he => ?_
  simp only [Document.mem_foldl_insertVertex]
  exact (hends e he).imp .inr .inr

end Sound

end Graph

namespace Transaction

/-- A transaction on a sound graph, with sound records in its overlay. -/
structure Sound (t : Transaction) : Prop where
  base : t.base.Sound
  vertex_id : ∀ {i : VertexId} {v}, t.overlay.vertices[i]? = some v → v.id = i
  ends : ∀ {i : EdgeId} {e}, t.overlay.edges[i]? = some e →
    (e.source ∈ t.base.vertices ∨ e.source ∈ t.overlay.vertices)
      ∧ (e.target ∈ t.base.vertices ∨ e.target ∈ t.overlay.vertices)

namespace Sound

variable {t t' : Transaction}

theorem begin {g : Graph} (h : g.Sound) : g.begin.Sound where
  base := h
  vertex_id hv := by simp [Graph.begin] at hv
  ends he := by simp [Graph.begin] at he

theorem insertVertex (h : t.Sound) (v : Vertex) :
    Sound { t with overlay := t.overlay.insertVertex v } where
  base := h.base
  vertex_id {i u} hu := by
    simp only [Graph.insertVertex, ExtTreeMap.getElem?_insert, Nat.compare_eq_eq] at hu
    split_ifs at hu with hi
    · rw [← Option.some.inj hu, hi]
    · exact h.vertex_id hu
  ends he := (h.ends he).imp (.imp_right fun hs => ExtTreeMap.mem_insert.2 (.inr hs))
    (.imp_right fun ht => ExtTreeMap.mem_insert.2 (.inr ht))

/-- What can be read is in the graph or in the overlay. -/
theorem mem_of_requireVertex {id : VertexId} {v : Vertex} (h : requireVertex t id = .ok v) :
    id ∈ t.base.vertices ∨ id ∈ t.overlay.vertices := by
  rcases Option.or_eq_some_iff.1 (vertex?_of_requireVertex h) with hover | ⟨-, hbase⟩
  · exact .inr (ExtTreeMap.isSome_getElem?_iff_mem.1 (by rw [hover]; rfl))
  · exact .inl (ExtTreeMap.isSome_getElem?_iff_mem.1 (by rw [hbase]; rfl))

theorem addEdge (h : t.Sound) {label : String} {source target : VertexId} {ps : Properties}
    {id : EdgeId} (hadd : t.addEdge label source target ps = .ok (id, t')) : t'.Sound := by
  obtain ⟨u, hu, hadd⟩ := exists_of_bind_ok hadd
  obtain ⟨v, hv, hadd⟩ := exists_of_bind_ok hadd
  obtain rfl := congrArg Prod.snd (Except.ok.inj hadd)
  refine ⟨h.base, h.vertex_id, fun {i e} he => ?_⟩
  simp only [Graph.attach, ExtTreeMap.getElem?_insert, Nat.compare_eq_eq] at he
  split_ifs at he
  · rw [← Option.some.inj he]
    exact ⟨mem_of_requireVertex hu, mem_of_requireVertex hv⟩
  · exact h.ends he

theorem perform (h : t.Sound) (c : Call) : (t.perform c).Sound := by
  unfold Transaction.perform
  rcases hcall : t.call c with err | ⟨id, t'⟩
  · exact h
  cases c with
  | addVertex label ps =>
    obtain rfl := congrArg Prod.snd (Except.ok.inj hcall)
    exact h.insertVertex _
  | setProperty x key value =>
    simp only [call, setProperty] at hcall
    rcases hv : requireVertex t x with err | v
    · rw [hv] at hcall
      cases hcall
    · rw [hv] at hcall
      obtain rfl := congrArg Prod.snd (Except.ok.inj hcall)
      exact h.insertVertex _
  | addEdge label source target ps =>
    simp only [call] at hcall
    rcases hadd : t.addEdge label source target ps with err | ⟨e, t₁⟩
    · rw [hadd] at hcall
      cases hcall
    · rw [hadd] at hcall
      obtain rfl := congrArg Prod.snd (Except.ok.inj hcall)
      exact h.addEdge hadd

theorem performAll : ∀ (cs : List Call) {t : Transaction}, t.Sound → (t.performAll cs).Sound
  | [], _, h => h
  | c :: cs, _, h => performAll cs (h.perform c)

theorem commit (h : t.Sound) : t.commit.Sound := by
  refine Graph.Sound.raise (Graph.Sound.foldl_attach _
    (Graph.Sound.foldl_insertVertex _ h.base) fun e he => ?_) _ _
  obtain ⟨i, hi⟩ := mem_values.1 he
  have hmem : ∀ {x : VertexId}, x ∈ t.base.vertices ∨ x ∈ t.overlay.vertices →
      x ∈ (t.overlay.vertices.values.foldl Graph.insertVertex t.base).vertices := by
    intro x hx
    refine (Document.mem_foldl_insertVertex x _ _).2 (hx.imp_right fun hx => ?_)
    obtain ⟨v, hv⟩ := Option.isSome_iff_exists.1 (ExtTreeMap.isSome_getElem?_iff_mem.2 hx)
    exact ⟨v, mem_values.2 ⟨x, hv⟩, h.vertex_id hv⟩
  exact (h.ends hi).imp hmem hmem

end Sound

end Transaction

theorem Graph.Sound.after : ∀ (history : List Episode) {g : Graph}, g.Sound →
    (g.after history).Sound
  | [], _, h => h
  | e :: history, g, h => by
    have hall := Transaction.Sound.performAll e.calls (Transaction.Sound.begin h)
    refine Graph.Sound.after history (g := g.take e) ?_
    unfold Graph.take
    cases e.ending with
    | commit => exact hall.commit
    | rollback => exact hall.base
    | drop => exact hall.base

/-- A graph as a store may hold it: a document was loaded, and then transactions were run. -/
def Graph.Storable (g : Graph) : Prop :=
  ∃ (d : Document) (name : String) (loaded : Graph) (history : List Episode),
    d.toGraph name = .ok loaded ∧ g = loaded.after history

theorem Graph.Storable.sound {g : Graph} (h : g.Storable) : g.Sound := by
  obtain ⟨d, name, loaded, history, hload, rfl⟩ := h
  exact Sound.after history (.load hload)

/-- A graph made from scratch starts from the empty document. -/
theorem Graph.storable_after_empty (name : String) (history : List Episode) :
    ((Graph.empty name).after history).Storable :=
  ⟨⟨documentVersion, name, [], []⟩, name, .empty name, history, rfl, rfl⟩

end Lineage
