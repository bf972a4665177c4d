import Lineage.Proofs.Overlay

/-!
# Histories of transactions

A history is any number of transactions, one after the other, each a list of calls and an end
(`Graph.after`). A call in an open transaction is the same write on the graph that a commit would
give (`Transaction.WellFormed.perform`), so every graph with a history is well-formed
(`Graph.WellFormed.after`). From this follow the two laws of the store: an open transaction reads
its own future commit (`reads_commit`), and every index of a committed graph says what a scan says
(`scanned_after`).
-/

namespace Lineage

open Std

/-- A write that is asked of an open transaction. -/
inductive Call where
  | addVertex (label : String) (properties : Properties)
  | setProperty (id : VertexId) (key value : String)
  | addEdge (label : String) (source target : VertexId) (properties : Properties)

inductive Ending where
  | commit
  | rollback
  /-- The transaction is dropped without an end. -/
  | drop
deriving DecidableEq

structure Episode where
  calls : List Call
  ending : Ending

namespace Transaction

/-- Makes a call, and yields the id of what it added. -/
def call (t : Transaction) : Call → Except StoreError (Option Nat × Transaction)
  | .addVertex label ps => .ok ((t.addVertex label ps).map some id)
  | .setProperty id key value => (t.setProperty id key value).map (none, ·)
  | .addEdge label source target ps => (t.addEdge label source target ps).map (Prod.map some id)

/-- A call that fails leaves the transaction open. -/
def perform (t : Transaction) (c : Call) : Transaction :=
  match t.call c with
  | .ok (_, t) => t
  | .error _ => t

def performAll (t : Transaction) (cs : List Call) : Transaction := cs.foldl perform t

/-- The graph that is read once the transaction is over. -/
def finish (t : Transaction) : Ending → Graph
  | .commit => t.commit
  | .rollback | .drop => t.rollback

end Transaction

namespace Graph

def take (g : Graph) (e : Episode) : Graph := (g.begin.performAll e.calls).finish e.ending

def after (g : Graph) (history : List Episode) : Graph := history.foldl take g

/-- What a call writes, on the graph itself; ids that are no vertices are passed over. -/
def write (g : Graph) : Call → Graph
  | .addVertex label ps => g.addVertex label ps
  | .setProperty id key value =>
    match vertex? g id with
    | some v => g.setProperty v key value
    | none => g
  | .addEdge label source target ps =>
    if (vertex? g source).isSome && (vertex? g target).isSome then
      g.addEdge label source target ps
    else g

def writeAll (g : Graph) (cs : List Call) : Graph := cs.foldl write g

end Graph

/-! ## Calls -/

/-- A computation that succeeds has succeeded in each of its steps. -/
theorem exists_of_bind_ok {ε α β : Type} {x : Except ε α} {f : α → Except ε β} {b : β}
    (h : x >>= f = .ok b) : ∃ a, x = .ok a ∧ f a = .ok b := by
  cases x with
  | error e => cases h
  | ok a => exact ⟨a, rfl, h⟩

/-- What every step keeps, a run that succeeds keeps. -/
theorem foldlM_ok {ε α β : Type} {P : β → Prop} {f : β → α → Except ε β} :
    ∀ (as : List α) {b b' : β}, as.foldlM f b = .ok b' → P b →
      (∀ a ∈ as, ∀ {b b'}, P b → f b a = .ok b' → P b') → P b'
  | [], _, _, hb', hb, _ => Except.ok.inj hb' ▸ hb
  | a :: as, _, _, hb', hb, hstep => by
    obtain ⟨b₁, hfirst, hrest⟩ := exists_of_bind_ok hb'
    exact foldlM_ok as hrest (hstep a List.mem_cons_self hb hfirst)
      fun a' ha' _ _ => hstep a' (List.mem_cons_of_mem _ ha')

theorem requireVertex_of_none {γ : Type} [Readable γ] {g : γ} {id : VertexId}
    (h : vertex? g id = none) : requireVertex g id = .error (.vertexNotFound (graphName g) id) := by
  simp only [requireVertex, h]

theorem requireVertex_of_some {γ : Type} [Readable γ] {g : γ} {id : VertexId} {v : Vertex}
    (h : vertex? g id = some v) : requireVertex g id = .ok v := by
  simp only [requireVertex, h]

namespace Transaction

variable {t : Transaction}

theorem setProperty_of_none {id : VertexId} (h : Readable.vertex? t id = none)
    (key value : String) :
    t.setProperty id key value = .error (.vertexNotFound t.base.name id) := by
  unfold setProperty
  rw [requireVertex_of_none h]
  rfl

theorem addEdge_of_none {source target : VertexId}
    (h : Readable.vertex? t source = none ∨ Readable.vertex? t target = none) (label : String)
    (ps : Properties) : ∃ id, Readable.vertex? t id = none
      ∧ t.addEdge label source target ps = .error (.vertexNotFound t.base.name id) := by
  unfold addEdge
  rcases hs : Readable.vertex? t source with _ | u
  · refine ⟨source, hs, ?_⟩
    rw [requireVertex_of_none hs]
    rfl
  · have ht : Readable.vertex? t target = none := h.resolve_left (by simp [hs])
    refine ⟨target, ht, ?_⟩
    rw [requireVertex_of_some hs, requireVertex_of_none ht]
    rfl

namespace WellFormed

theorem exists_mem_of_vertex?_commit (h : t.WellFormed) {id : VertexId} {v : Vertex}
    (hv : Readable.vertex? t.commit id = some v) : v ∈ allVertices t.commit ∧ v.id = id :=
  h.coherent_commit.vertex?_eq_some_iff.1 hv

/-- What a call does: it writes to the future commit, or it fails for an id that is no vertex. -/
theorem call_cases (h : t.WellFormed) (c : Call) :
    (∃ id t', t.call c = .ok (id, t') ∧ t'.WellFormed ∧ t'.base = t.base
        ∧ t'.commit = t.commit.write c)
      ∨ ∃ id, Readable.vertex? t id = none
        ∧ t.call c = .error (.vertexNotFound t.base.name id) ∧ t.commit.write c = t.commit := by
  cases c with
  | addVertex label ps =>
    exact .inl ⟨_, _, rfl, h.addVertex label ps, rfl, h.commit_addVertex label ps⟩
  | setProperty id key value =>
    rcases hv : Readable.vertex? t.commit id with _ | v
    · have hnone := (h.vertex?_commit id).symm.trans hv
      refine .inr ⟨id, hnone, ?_, ?_⟩
      · simp only [call, setProperty_of_none hnone]
        rfl
      · simp only [Graph.write, hv]
    · obtain ⟨hmem, rfl⟩ := h.exists_mem_of_vertex?_commit hv
      obtain ⟨t', heq, ht', hbase, hcommit⟩ := h.setProperty hmem key value
      refine .inl ⟨none, t', ?_, ht', hbase, ?_⟩
      · simp only [call, heq]
        rfl
      · simp only [Graph.write, hv, hcommit]
  | addEdge label source target ps =>
    by_cases hends : Readable.vertex? t source = none ∨ Readable.vertex? t target = none
    · obtain ⟨id, hid, heq⟩ := addEdge_of_none hends label ps
      refine .inr ⟨id, hid, ?_, ?_⟩
      · simp only [call, heq]
        rfl
      · rw [← h.vertex?_commit, ← h.vertex?_commit] at hends
        rcases hends with hend | hend <;> simp [Graph.write, hend]
    · rw [not_or, ← h.vertex?_commit, ← h.vertex?_commit] at hends
      obtain ⟨u, hu⟩ := Option.ne_none_iff_exists'.1 hends.1
      obtain ⟨v, hv⟩ := Option.ne_none_iff_exists'.1 hends.2
      obtain ⟨humem, rfl⟩ := h.exists_mem_of_vertex?_commit hu
      obtain ⟨hvmem, rfl⟩ := h.exists_mem_of_vertex?_commit hv
      obtain ⟨t', heq, ht', hbase, hcommit⟩ := h.addEdge humem hvmem label ps
      refine .inl ⟨some t.commit.nextEdge, t', ?_, ht', hbase, ?_⟩
      · simp only [call, heq]
        rfl
      · simp [Graph.write, hu, hv, hcommit]

theorem perform (h : t.WellFormed) (c : Call) : (t.perform c).WellFormed
    ∧ (t.perform c).base = t.base ∧ (t.perform c).commit = t.commit.write c := by
  unfold Transaction.perform
  rcases h.call_cases c with ⟨id, t', heq, ht', hbase, hcommit⟩ | ⟨id, -, heq, hwrite⟩
  · rw [heq]
    exact ⟨ht', hbase, hcommit⟩
  · rw [heq]
    exact ⟨h, rfl, hwrite.symm⟩

theorem performAll : ∀ (cs : List Call) {t : Transaction}, t.WellFormed →
    (t.performAll cs).WellFormed ∧ (t.performAll cs).base = t.base
      ∧ (t.performAll cs).commit = t.commit.writeAll cs
  | [], _, h => ⟨h, rfl, rfl⟩
  | c :: cs, t, h => by
    obtain ⟨hstep, hbase, hcommit⟩ := h.perform c
    obtain ⟨hall, hbase', hcommit'⟩ := performAll cs hstep
    exact ⟨hall, hbase'.trans hbase, hcommit'.trans (by rw [hcommit]; rfl)⟩

end WellFormed

theorem performAll_append (t : Transaction) (cs ds : List Call) :
    t.performAll (cs ++ ds) = (t.performAll cs).performAll ds :=
  List.foldl_append

end Transaction

/-! ## Histories -/

namespace Graph

variable {g : Graph}

theorem WellFormed.performAll_begin (h : g.WellFormed) (cs : List Call) :
    (g.begin.performAll cs).WellFormed ∧ (g.begin.performAll cs).base = g
      ∧ (g.begin.performAll cs).commit = g.writeAll cs := by
  obtain ⟨hall, hbase, hcommit⟩ :=
    Transaction.WellFormed.performAll cs (Transaction.wellFormed_begin h)
  exact ⟨hall, hbase, by rw [hcommit, Transaction.commit_begin]⟩

theorem WellFormed.finish_of_ne (h : g.WellFormed) (cs : List Call) {e : Ending}
    (he : e ≠ .commit) : (g.begin.performAll cs).finish e = g := by
  cases e with
  | commit => exact absurd rfl he
  | rollback => exact (h.performAll_begin cs).2.1
  | drop => exact (h.performAll_begin cs).2.1

/-- A transaction writes what its calls write if it commits, and else nothing. -/
theorem WellFormed.take_eq (h : g.WellFormed) (e : Episode) :
    g.take e = g.writeAll (if e.ending = .commit then e.calls else []) := by
  unfold take
  split_ifs with he
  · rw [he]
    exact (h.performAll_begin e.calls).2.2
  · exact h.finish_of_ne e.calls he

theorem WellFormed.take (h : g.WellFormed) (e : Episode) : (g.take e).WellFormed := by
  by_cases he : e.ending = .commit
  · unfold Graph.take
    rw [he]
    exact (h.performAll_begin e.calls).1.wellFormed_commit
  · unfold Graph.take
    rw [h.finish_of_ne e.calls he]
    exact h

theorem WellFormed.after : ∀ (history : List Episode) {g : Graph}, g.WellFormed →
    (g.after history).WellFormed
  | [], _, h => h
  | e :: history, _, h => WellFormed.after history (h.take e)

theorem after_append (g : Graph) (history later : List Episode) :
    g.after (history ++ later) = (g.after history).after later :=
  List.foldl_append

end Graph

theorem wellFormed_after_empty (name : String) (history : List Episode) :
    ((Graph.empty name).after history).WellFormed :=
  (Graph.wellFormed_empty name).after history

/-! ## Reading ahead -/

/-- A transaction answers every read as a graph does; the edges on both sides of a vertex may come
in another order. -/
structure ReadsAs (t : Transaction) (g : Graph) : Prop where
  vertex : ∀ id, vertex? t id = vertex? g id
  verticesWith : ∀ key value, verticesWith t key value = verticesWith g key value
  vertexWith : ∀ key value, vertexWith? t key value = vertexWith? g key value
  outward : ∀ x label, edgesAt t x .outward label = edgesAt g x .outward label
  inward : ∀ x label, edgesAt t x .inward label = edgesAt g x .inward label
  both : ∀ x label, (edgesAt t x .both label).Perm (edgesAt g x .both label)
  hasEdge : ∀ source label target, hasEdge t source label target = hasEdge g source label target
  allVertices : allVertices t = allVertices g
  allEdges : allEdges t = allEdges g

namespace Transaction.WellFormed

variable {t : Transaction}

/-- Base and overlay list the edges on both sides one after the other, the commit lists all that
leave before all that enter. -/
theorem incident_both_commit (h : t.WellFormed) (x : VertexId) :
    (Readable.incident t x .both).Perm (Readable.incident t.commit x .both) := by
  have hover := h.overlay.incident_both x
  rw [h.coherent_commit.incident_both, h.allEdges_commit]
  show (Readable.incident t.base x .both ++ Readable.incident t.overlay x .both).Perm
    ((Readable.allEdges t.base ++ Readable.allEdges t.overlay).filter _
      ++ (Readable.allEdges t.base ++ Readable.allEdges t.overlay).filter _)
  rw [h.base.incident_both, hover, List.filter_append, List.filter_append, List.append_assoc,
    List.append_assoc]
  refine .append_left _ ?_
  rw [← List.append_assoc, ← List.append_assoc]
  exact .append_right _ List.perm_append_comm

theorem readsAs_commit (h : t.WellFormed) : ReadsAs t t.commit where
  vertex id := (h.vertex?_commit id).symm
  verticesWith key value := (h.verticesWith_commit key value).symm
  vertexWith key value := (h.vertexWith?_commit key value).symm
  outward x _ := congrArg (List.filter _) (h.incident_outward_commit x).symm
  inward x _ := congrArg (List.filter _) (h.incident_inward_commit x).symm
  both x _ := (h.incident_both_commit x).filter _
  hasEdge source label target := (h.hasEdge_commit source label target).symm
  allVertices := h.allVertices_commit.symm
  allEdges := h.allEdges_commit.symm

/-- No vertex of the graph or the transaction has the id that comes next. -/
theorem vertex?_nextVertex (h : t.WellFormed) : Readable.vertex? t.base t.overlay.nextVertex = none
    ∧ Readable.vertex? t t.overlay.nextVertex = none := by
  constructor
  · rcases hv : Readable.vertex? t.base t.overlay.nextVertex with _ | v
    · rfl
    · exact absurd (h.base.vertex_lt hv) (Nat.not_lt.2 h.nextVertex_le)
  · rw [← h.vertex?_commit]
    rcases hv : Readable.vertex? t.commit t.overlay.nextVertex with _ | v
    · rfl
    · have hlt := h.coherent_commit.vertex_lt hv
      rw [h.commit_nextVertex] at hlt
      exact absurd hlt (Nat.lt_irrefl _)

/-- An edge that is added gets an id that no edge of the graph or the transaction has. -/
theorem id_ne_of_addEdge (h : t.WellFormed) {label : String} {source target : VertexId}
    {ps : Properties} {id : EdgeId} {t' : Transaction}
    (hadd : t.addEdge label source target ps = .ok (id, t')) {e : Edge}
    (he : e ∈ allEdges t.base ∨ e ∈ allEdges t) : e.id ≠ id := by
  have hid : id = t.overlay.nextEdge := by
    obtain ⟨u, -, hadd⟩ := exists_of_bind_ok hadd
    obtain ⟨v, -, hadd⟩ := exists_of_bind_ok hadd
    exact (congrArg Prod.fst (Except.ok.inj hadd)).symm
  have hmem : e ∈ allEdges t := he.elim (fun he => List.mem_append_left _ he) fun he => he
  rw [← h.allEdges_commit] at hmem
  have hlt := h.coherent_commit.edge_id_lt hmem
  rw [h.commit_nextEdge] at hlt
  rw [hid]
  exact Nat.ne_of_lt hlt

end Transaction.WellFormed

/-- After any history and any calls, an open transaction answers every read as a snapshot of its
commit does. A call that fails changes nothing, the ids of a call are new to the graph and to the
transaction, and a transaction that does not commit might as well not have begun. -/
theorem reads_commit (name : String) (history : List Episode) (calls : List Call) :
    let g := (Graph.empty name).after history
    let t := g.begin.performAll calls
    ReadsAs t t.commit
    ∧ (∀ c error later, t.call c = .error error →
      g.begin.performAll (calls ++ c :: later) = g.begin.performAll (calls ++ later))
    ∧ (∀ label ps id t', t.addVertex label ps = (id, t') →
      vertex? g id = none ∧ vertex? t id = none)
    ∧ (∀ label source target ps id t', t.addEdge label source target ps = .ok (id, t') →
      ∀ e, e ∈ allEdges g ∨ e ∈ allEdges t → e.id ≠ id)
    ∧ ∀ ending later, ending ≠ .commit →
      (Graph.empty name).after (history ++ ⟨calls, ending⟩ :: later)
        = (Graph.empty name).after (history ++ later) := by
  intro g t
  have hg : g.WellFormed := wellFormed_after_empty name history
  obtain ⟨ht, hbase, -⟩ := hg.performAll_begin calls
  refine ⟨ht.readsAs_commit, fun c error later hfail => ?_, fun label ps id t' hadd => ?_,
    fun label source target ps id t' hadd e he => ?_, fun ending later hending => ?_⟩
  · have hstay : t.perform c = t := by
      unfold Transaction.perform
      rw [hfail]
    rw [Transaction.performAll_append, Transaction.performAll_append]
    show (t.perform c).performAll later = t.performAll later
    rw [hstay]
  · have hid : id = t.overlay.nextVertex := (congrArg Prod.fst hadd).symm
    have hnew := ht.vertex?_nextVertex
    rw [hbase, ← hid] at hnew
    exact hnew
  · rw [← hbase] at he
    exact ht.id_ne_of_addEdge hadd he
  · rw [Graph.after_append, Graph.after_append]
    show (g.take ⟨calls, ending⟩).after later = g.after later
    exact congrArg (Graph.after · later) (hg.finish_of_ne calls hending)

/-! ## Indexes and scans -/

/-- The reads of a graph, each told by a scan of all vertices or all edges. -/
structure Graph.Scanned (g : Graph) : Prop where
  vertices_ascending : (allVertices g).Pairwise fun u v => u.id < v.id
  edges_ascending : (allEdges g).Pairwise fun d e => d.id < e.id
  vertex_lt : ∀ v ∈ allVertices g, v.id < g.nextVertex
  edge_lt : ∀ e ∈ allEdges g, e.id < g.nextEdge
  ends : ∀ e ∈ allEdges g, (vertex? g e.source).isSome ∧ (vertex? g e.target).isSome
  verticesWith : ∀ key value,
    verticesWith g key value = (allVertices g).filter fun v => v.property? key == some value
  outward : ∀ x label,
    edgesAt g x .outward label = (allEdges g).filter fun e => e.source == x && e.matches label
  inward : ∀ x label,
    edgesAt g x .inward label = (allEdges g).filter fun e => e.target == x && e.matches label
  both : ∀ x label,
    edgesAt g x .both label = edgesAt g x .outward label ++ edgesAt g x .inward label
  hasEdge : ∀ source label target,
    hasEdge g source label target
      = (edgesAt g source .outward (some label)).any fun e => e.target == target

theorem Graph.WellFormed.scanned {g : Graph} (h : g.WellFormed) : g.Scanned where
  vertices_ascending := h.vertices_ascending
  edges_ascending := h.edges_ascending
  vertex_lt _ := h.vertex_id_lt
  edge_lt _ := h.edge_id_lt
  ends e he := by
    obtain ⟨⟨u, hu, hsource⟩, ⟨v, hv, htarget⟩⟩ := h.closed e he
    rw [← hsource, ← htarget, h.mem_allVertices.1 hu, h.mem_allVertices.1 hv]
    exact ⟨rfl, rfl⟩
  verticesWith := h.verticesWith_eq
  outward x label := by
    unfold edgesAt
    rw [h.incident_outward, List.filter_filter]
    exact List.filter_congr fun e _ => Bool.and_comm _ _
  inward x label := by
    unfold edgesAt
    rw [h.incident_inward, List.filter_filter]
    exact List.filter_congr fun e _ => Bool.and_comm _ _
  both x label := by
    unfold edgesAt
    rw [h.incident_both, h.incident_outward, h.incident_inward, List.filter_append]
  hasEdge source label target := by
    rw [Bool.eq_iff_iff, h.hasEdge_iff, List.any_eq_true]
    unfold edgesAt
    simp only [h.incident_outward, List.mem_filter, beq_iff_eq, Edge.matches, Option.all_some]
    constructor
    · rintro ⟨e, he, rfl, rfl, rfl⟩
      exact ⟨e, ⟨⟨he, rfl⟩, rfl⟩, rfl⟩
    · rintro ⟨e, ⟨⟨he, rfl⟩, rfl⟩, rfl⟩
      exact ⟨e, he, rfl, rfl, rfl⟩

/-- After any history of transactions, committed, rolled back or dropped, the indexes of a graph say
what its vertices and edges say. -/
theorem scanned_after (name : String) (history : List Episode) :
    ((Graph.empty name).after history).Scanned :=
  (wellFormed_after_empty name history).scanned

end Lineage
