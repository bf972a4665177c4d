import Lineage.Proofs.Growth

/-!
# What consolidation writes

All that consolidation ever does to a graph is one of three writes (`Write`): a vertex under a node
id that no vertex has, an edge between two vertices that it does not join yet, or the sub-process of
a fragment whose columns are not linked, with its three edges and, where the graph has none, the
vertex of its process. A predicate on items says what may be written; an invariant of consolidated
graphs is then one case analysis on a write.
-/

namespace Lineage

open Std Consolidation

/-- A thing to be written, told by node ids alone. -/
inductive Item where
  /-- A vertex that stands for an instance. -/
  | node (label : NodeLabel) (nodeId : String) (properties : Properties)
  | process (p : ProcessRef)
  | edge (label : EdgeLabel) (source target : String)
  /-- The sub-process of a fragment, between its columns and owned by its process. -/
  | step (f : Fragment)

/-- An item that has no part in the flow between columns. -/
def Item.IsBeside : Item → Prop
  | .node label _ _ => label ≠ .process ∧ label ≠ .subProcess
  | .edge label _ _ => label ≠ .columnAndProcess ∧ label ≠ .subprocessToProcess
  | .process _ | .step _ => False

@[simp]
theorem Item.isBeside_node {l : NodeLabel} {n : String} {ps : Properties} :
    (Item.node l n ps).IsBeside ↔ l ≠ .process ∧ l ≠ .subProcess :=
  Iff.rfl

@[simp]
theorem Item.isBeside_edge {l : EdgeLabel} {m n : String} :
    (Item.edge l m n).IsBeside ↔ l ≠ .columnAndProcess ∧ l ≠ .subprocessToProcess :=
  Iff.rfl

/-- An edge of a label runs from one vertex to another. -/
def Edge.Runs (e : Edge) (label : EdgeLabel) (u v : Vertex) : Prop :=
  e.label = label.name ∧ e.source = u.id ∧ e.target = v.id

section Writes

variable (P : Item → Prop)

/-- The vertex of a process, and the vertices that have to be added to have it. -/
inductive Owner (g : Graph) (p : ProcessRef) : Vertex → List Vertex → Prop
  | existing {q : Vertex} (mem : q ∈ allVertices g) (label_eq : q.label = NodeLabel.process.name)
      (nodeId_eq : q.nodeId? = some p.guid) : Owner g p q []
  | created {q : Vertex} (item : P (.process p)) (label_eq : q.label = NodeLabel.process.name)
      (properties_eq : q.properties = processProperties p.guid p)
      (new : ∀ u ∈ allVertices g, u.label = NodeLabel.process.name → u.nodeId? ≠ some p.guid) :
      Owner g p q [q]

/-- A sub-process `s` of a fragment is added between two vertices, with the edges to its process. -/
structure StepWrite [StepIds] (g g' : Graph) (f : Fragment) (u v s q : Vertex) (vs : List Vertex)
    (e₁ e₂ e₃ : Edge) : Prop where
  item : P (.step f)
  source_eq : vertexWith? g Key.nodeId f.columnIn = some u
  target_eq : vertexWith? g Key.nodeId f.columnOut = some v
  new : ¬ g.Linked u.id v.id f.process.guid
  label_eq : s.label = NodeLabel.subProcess.name
  properties_eq : s.properties = processProperties (StepIds.nodeId s.id) f.process
  owner : Owner P g f.process q vs
  runs_in : e₁.Runs .columnAndProcess u s
  runs_out : e₂.Runs .columnAndProcess s v
  runs_up : e₃.Runs .subprocessToProcess s q
  vertices_eq : allVertices g' = allVertices g ++ s :: vs
  edges_eq : allEdges g' = allEdges g ++ [e₁, e₂, e₃]

inductive Write [StepIds] (g g' : Graph) : Prop
  | node {label : NodeLabel} {n : String} {v : Vertex} (item : P (.node label n v.properties))
      (label_eq : v.label = label.name) (nodeId_eq : v.nodeId? = some n)
      (new : ∀ u ∈ allVertices g, u.nodeId? ≠ some n)
      (vertices_eq : allVertices g' = allVertices g ++ [v]) (edges_eq : allEdges g' = allEdges g)
  | edge {label : EdgeLabel} {m n : String} {u v : Vertex} {e : Edge}
      (item : P (.edge label m n)) (source_mem : u ∈ allVertices g) (source_id : u.nodeId? = some m)
      (target_mem : v ∈ allVertices g) (target_id : v.nodeId? = some n)
      (new : ¬ g.Joined label u.id v.id)
      (new_back : label = .synonym → ¬ g.Joined label v.id u.id) (runs : e.Runs label u v)
      (vertices_eq : allVertices g' = allVertices g) (edges_eq : allEdges g' = allEdges g ++ [e])
  | step {f : Fragment} {u v s q : Vertex} {vs : List Vertex} {e₁ e₂ e₃ : Edge}
      (added : StepWrite P g g' f u v s q vs e₁ e₂ e₃)

/-- Any number of writes, through well-formed graphs. -/
def Writes [StepIds] : Graph → Graph → Prop :=
  Relation.ReflTransGen fun g g' => g'.WellFormed ∧ Write P g g'

end Writes

section Properties

variable {P Q : Item → Prop} {g g' : Graph}

/-- A vertex with a label is not the one that was added with another. -/
theorem Graph.mem_of_append_of_label_ne {v w : Vertex} {l m : NodeLabel}
    (heq : allVertices g' = allVertices g ++ [w]) (hw : w.label = l.name) (hne : l ≠ m)
    (hv : v ∈ allVertices g') (hlabel : v.label = m.name) : v ∈ allVertices g := by
  rw [heq] at hv
  refine (List.mem_append.1 hv).resolve_right fun hv => ?_
  rw [List.mem_singleton.1 hv, hw] at hlabel
  exact hne (NodeLabel.name_injective hlabel)

theorem Owner.mono (h : ∀ i, P i → Q i) {p : ProcessRef} {q : Vertex} {vs : List Vertex} :
    Owner P g p q vs → Owner Q g p q vs
  | .existing hmem hlabel hid => .existing hmem hlabel hid
  | .created hitem hlabel hps hnew => .created (h _ hitem) hlabel hps hnew

theorem Owner.mem {p : ProcessRef} {q : Vertex} {vs : List Vertex}
    (heq : allVertices g' = allVertices g ++ vs) : Owner P g p q vs → q ∈ allVertices g'
  | .existing hmem _ _ => heq ▸ List.mem_append_left _ hmem
  | .created _ _ _ _ => heq ▸ List.mem_append_right _ List.mem_cons_self

theorem Owner.label_eq {p : ProcessRef} {q : Vertex} {vs : List Vertex} :
    Owner P g p q vs → q.label = NodeLabel.process.name
  | .existing _ hlabel _ => hlabel
  | .created _ hlabel _ _ => hlabel

theorem Owner.eq_of_mem {p : ProcessRef} {q : Vertex} {vs : List Vertex}
    (howner : Owner P g p q vs) {w : Vertex} (hw : w ∈ vs) : w = q := by
  cases howner with
  | existing _ _ _ => cases hw
  | created _ _ _ _ => exact List.mem_singleton.1 hw

variable [StepIds]

namespace StepWrite

variable {f : Fragment} {u v s q w : Vertex} {vs : List Vertex} {e₁ e₂ e₃ e : Edge}

theorem mem_step (h : StepWrite P g g' f u v s q vs e₁ e₂ e₃) : s ∈ allVertices g' :=
  h.vertices_eq ▸ List.mem_append_right _ List.mem_cons_self

theorem mem_owner (h : StepWrite P g g' f u v s q vs e₁ e₂ e₃) : q ∈ allVertices g' := by
  rw [h.vertices_eq, List.mem_append, List.mem_cons]
  cases h.owner with
  | existing hq _ _ => exact .inl hq
  | created _ _ _ _ => simp

/-- The new sub-process comes after all vertices before it, and before its owner if that is new. -/
theorem id_lt (h : StepWrite P g g' f u v s q vs e₁ e₂ e₃) (hg' : g'.Coherent) :
    (∀ w ∈ allVertices g, ∀ x ∈ s :: vs, w.id < x.id) ∧ ∀ x ∈ vs, s.id < x.id := by
  have hascending := hg'.vertices_ascending
  rw [h.vertices_eq, List.pairwise_append, List.pairwise_cons] at hascending
  exact ⟨hascending.2.2, hascending.2.1.1⟩

theorem id_ne (h : StepWrite P g g' f u v s q vs e₁ e₂ e₃) (hg' : g'.Coherent)
    (hw : w ∈ allVertices g) : w.id ≠ s.id :=
  Nat.ne_of_lt ((h.id_lt hg').1 w hw s List.mem_cons_self)

theorem owner_ne (h : StepWrite P g g' f u v s q vs e₁ e₂ e₃) (hg' : g'.Coherent) :
    q.id ≠ s.id := by
  have hafter := (h.id_lt hg').2
  cases h.owner with
  | existing hq _ _ => exact h.id_ne hg' hq
  | created _ _ _ _ => exact (Nat.ne_of_lt (hafter q List.mem_cons_self)).symm

theorem mem_cases (h : StepWrite P g g' f u v s q vs e₁ e₂ e₃) (hw : w ∈ allVertices g') :
    w ∈ allVertices g ∨ w = s ∨ w ∈ vs := by
  simpa [h.vertices_eq] using hw

theorem joined_in (h : StepWrite P g g' f u v s q vs e₁ e₂ e₃) :
    g'.Joined .columnAndProcess u.id s.id :=
  ⟨e₁, by simp [h.edges_eq], h.runs_in.2.1, h.runs_in.1, h.runs_in.2.2⟩

theorem joined_out (h : StepWrite P g g' f u v s q vs e₁ e₂ e₃) :
    g'.Joined .columnAndProcess s.id v.id :=
  ⟨e₂, by simp [h.edges_eq], h.runs_out.2.1, h.runs_out.1, h.runs_out.2.2⟩

theorem joined_up (h : StepWrite P g g' f u v s q vs e₁ e₂ e₃) :
    g'.Joined .subprocessToProcess s.id q.id :=
  ⟨e₃, by simp [h.edges_eq], h.runs_up.2.1, h.runs_up.1, h.runs_up.2.2⟩

/-- Each new edge has an end in the new sub-process. -/
theorem touches (h : StepWrite P g g' f u v s q vs e₁ e₂ e₃) (he : e ∈ [e₁, e₂, e₃]) :
    e.source = s.id ∨ e.target = s.id := by
  simp only [List.mem_cons, List.not_mem_nil, or_false] at he
  rcases he with rfl | rfl | rfl
  · exact .inr h.runs_in.2.2
  · exact .inl h.runs_out.2.1
  · exact .inl h.runs_up.2.1

end StepWrite

theorem Write.mono (h : ∀ i, P i → Q i) : Write P g g' → Write Q g g'
  | .node hitem hlabel hid hnew hv he => .node (h _ hitem) hlabel hid hnew hv he
  | .edge hitem hu hm hv hn hnew hback hruns hvs hes =>
    .edge (h _ hitem) hu hm hv hn hnew hback hruns hvs hes
  | .step hadded => .step { hadded with item := h _ hadded.item, owner := hadded.owner.mono h }

theorem Write.grows : Write P g g' → g.Grows g'
  | .node _ _ _ _ hv he => ⟨hv ▸ List.prefix_append _ _, he ▸ List.prefix_rfl⟩
  | .edge _ _ _ _ _ _ _ _ hv he => ⟨hv ▸ List.prefix_rfl, he ▸ List.prefix_append _ _⟩
  | .step hadded => ⟨hadded.vertices_eq ▸ List.prefix_append _ _,
    hadded.edges_eq ▸ List.prefix_append _ _⟩

namespace Writes

theorem refl (g : Graph) : Writes P g g := Relation.ReflTransGen.refl

theorem single (hg' : g'.WellFormed) (h : Write P g g') : Writes P g g' :=
  Relation.ReflTransGen.single ⟨hg', h⟩

theorem trans {g'' : Graph} (h : Writes P g g') (h' : Writes P g' g'') : Writes P g g'' :=
  Relation.ReflTransGen.trans h h'

theorem mono (h : ∀ i, P i → Q i) (hw : Writes P g g') : Writes Q g g' := by
  induction hw with
  | refl => exact .refl _
  | tail _ hstep ih => exact Relation.ReflTransGen.tail ih ⟨hstep.1, hstep.2.mono h⟩

theorem grows (h : Writes P g g') : g.Grows g' := by
  induction h with
  | refl => exact .refl _
  | tail _ hw ih => exact ih.trans hw.2.grows

theorem wellFormed (h : Writes P g g') (hg : g.WellFormed) : g'.WellFormed := by
  induction h with
  | refl => exact hg
  | tail _ hw _ => exact hw.1

/-- An invariant of single writes is one of any number, also where it leans on a fact about the
last graph that graphs hand down to those they grew from. -/
theorem invariant {Inv Last : Graph → Prop} (hlast : ∀ {g g'}, g.Grows g' → Last g' → Last g)
    (hstep : ∀ {g g'}, g.WellFormed → g'.WellFormed → Last g' → Write P g g' → Inv g → Inv g')
    (hw : Writes P g g') (hg : g.WellFormed) (hl : Last g') (hinv : Inv g) : Inv g' := by
  induction hw with
  | refl => exact hinv
  | tail hw hstep' ih =>
    have hl' := hlast hstep'.2.grows hl
    exact hstep (wellFormed hw hg) hstep'.1 hl hstep'.2 (ih hl')

/-- Where no sub-process is written, the edges of its labels are those of before. -/
theorem mem_edges_of_isBeside (hP : ∀ i, P i → i.IsBeside) (h : Writes P g g') {e : Edge}
    (he : e ∈ allEdges g') (hlabel : e.label = EdgeLabel.columnAndProcess.name) :
    e ∈ allEdges g := by
  induction h with
  | refl => exact he
  | tail _ hstep ih =>
    refine ih ?_
    cases hstep.2 with
    | node _ _ _ _ _ hes => exact hes ▸ he
    | edge hitem _ _ _ _ _ _ hruns _ hes =>
      rw [hes] at he
      rcases List.mem_append.1 he with he | he
      · exact he
      · rw [List.mem_singleton.1 he, hruns.1] at hlabel
        exact absurd (EdgeLabel.name_injective hlabel) (hP _ hitem).1
    | step hadded => exact (hP _ hadded.item).elim

theorem mem_vertices_of_isBeside (hP : ∀ i, P i → i.IsBeside) (h : Writes P g g') {v : Vertex}
    (hv : v ∈ allVertices g') : v ∈ allVertices g
      ∨ ∃ label n, P (.node label n v.properties) ∧ v.label = label.name
        ∧ v.nodeId? = some n := by
  induction h with
  | refl => exact .inl hv
  | tail _ hstep ih =>
    cases hstep.2 with
    | node hitem hlabel hid _ hvs _ =>
      rw [hvs] at hv
      rcases List.mem_append.1 hv with hv | hv
      · exact ih hv
      · rw [List.mem_singleton.1 hv]
        exact .inr ⟨_, _, hitem, hlabel, hid⟩
    | edge _ _ _ _ _ _ _ _ hvs _ => exact ih (hvs ▸ hv)
    | step hadded => exact (hP _ hadded.item).elim

/-- Where no sub-process is written, a fragment that is present was so before. -/
theorem present_of_isBeside (hP : ∀ i, P i → i.IsBeside) (hg : g.WellFormed) (h : Writes P g g')
    {columnIn columnOut processGuid : String} (hp : g'.Present columnIn columnOut processGuid) :
    g.Present columnIn columnOut processGuid := by
  have hg' := h.wellFormed hg
  have hback : ∀ {w : Vertex} {i : VertexId}, w ∈ allVertices g' → w.id = i →
      (∃ w' ∈ allVertices g, w'.id = i) → w ∈ allVertices g := by
    rintro w _ hw rfl ⟨w', hw', hid⟩
    exact hg'.eq_of_vertex_id (h.grows.mem_vertices hw') hw hid ▸ hw'
  obtain ⟨u, v, hu, hv, s, hs, hlabel, hguid, ⟨d, hd, hdu, hdl, hds⟩, ⟨e, he, hes, hel, hev⟩⟩ := hp
  have hd := h.mem_edges_of_isBeside hP hd hdl
  have he := h.mem_edges_of_isBeside hP he hel
  have hu' := hback (hg'.mem_of_vertexWith? hu).1 hdu.symm (hg.exists_source hd)
  have hv' := hback (hg'.mem_of_vertexWith? hv).1 hev.symm (hg.exists_target he)
  have hs' := hback hs hds.symm (hg.exists_target hd)
  have hfound {w : Vertex} {n : String} (hw : w ∈ allVertices g)
      (heq : vertexWith? g' Key.nodeId n = some w) : vertexWith? g Key.nodeId n = some w :=
    h.grows.vertexWith?_of_mem hg.toCoherent hg'.toCoherent hw heq
  exact ⟨u, v, hfound hu' hu, hfound hv' hv, s, hs', hlabel, hguid, ⟨d, hd, hdu, hdl, hds⟩,
    ⟨e, he, hes, hel, hev⟩⟩

end Writes

end Properties

/-! ## Transactions that write -/

variable [StepIds]

/-- A transaction has moved on by writes alone. -/
structure Transaction.Advances (P : Item → Prop) (t t' : Transaction) : Prop where
  wellFormed : t'.WellFormed
  base_eq : t'.base = t.base
  writes : Writes P t.commit t'.commit

namespace Transaction.Advances

variable {P Q : Item → Prop} {t t' : Transaction}

theorem refl (h : t.WellFormed) : Advances P t t := ⟨h, rfl, .refl _⟩

theorem trans {t'' : Transaction} (h : Advances P t t') (h' : Advances P t' t'') :
    Advances P t t'' :=
  ⟨h'.wellFormed, h'.base_eq.trans h.base_eq, h.writes.trans h'.writes⟩

theorem mono (hPQ : ∀ i, P i → Q i) (h : Advances P t t') : Advances Q t t' :=
  ⟨h.wellFormed, h.base_eq, h.writes.mono hPQ⟩

theorem grows (h : Advances P t t') : t.commit.Grows t'.commit := h.writes.grows

theorem mem_vertices (h : Advances P t t') {v : Vertex} (hv : v ∈ allVertices t.commit) :
    v ∈ allVertices t'.commit :=
  h.grows.mem_vertices hv

theorem vertexWith? (ht : t.WellFormed) (h : Advances P t t') {key value : String} {v : Vertex}
    (hv : Lineage.vertexWith? t.commit key value = some v) :
    Lineage.vertexWith? t'.commit key value = some v :=
  h.grows.vertexWith? ht.coherent_commit h.wellFormed.coherent_commit hv

end Transaction.Advances

end Lineage
