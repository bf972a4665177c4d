import Mathlib.Data.Set.Insert
import Lineage.Proofs.Hiding
import Lineage.Proofs.Outcomes
import Lineage.Proofs.Containers

/-!
# Only structure tells the table

Relationships that carry meaning or data flow do not lead to a container. They stand between the
structural ones at a vertex, and take ids from them, but what is left when they are passed over is
the same list, so two buffer graphs that differ in nothing else meet the same vertices in the same
order (`Graph.SameStructure.expandBy_ok`). The same tables are found then, and a fragment fails for
want of one over either graph or over neither. Consolidation does write other terms, and numbers its
vertices accordingly, but the tables that a column is included in are those it was included in
before, and the one that was found (`Graph.tablesOf_of_applied`).
-/

namespace Lineage

open Std Consolidation
open List (Forall₂)

theorem exists_of_map_ok {ε α β : Type} {x : Except ε α} {f : α → β} {b : β}
    (h : x.map f = .ok b) : ∃ a, x = .ok a ∧ f a = b := by
  cases x with
  | error e => cases h
  | ok a => exact ⟨a, rfl, Except.ok.inj h⟩

theorem eq_error_of_map {ε α β : Type} {x : Except ε α} {f : α → β} {e : ε}
    (h : x.map f = .error e) : x = .error e := by
  cases x with
  | error e' => exact congrArg Except.error (Except.error.inj h)
  | ok a => cases h

theorem filterMap_eq_filterMap {α β γ : Type} {R : α → β → Prop} {f : α → Option γ}
    {f' : β → Option γ} (hf : ∀ a b, R a b → f a = f' b) {as : List α} {bs : List β}
    (h : Forall₂ R as bs) : as.filterMap f = bs.filterMap f' := by
  induction h with
  | nil => rfl
  | cons hab _ ih => rw [List.filterMap_cons, List.filterMap_cons, hf _ _ hab, ih]

/-- Two edges of one label run between the same vertices. -/
structure Edge.Parallel (d e : Edge) : Prop where
  label_eq : d.label = e.label
  source_eq : d.source = e.source
  target_eq : d.target = e.target

instance {d e : Edge} : Decidable (d.Parallel e) :=
  decidable_of_iff (d.label = e.label ∧ d.source = e.source ∧ d.target = e.target)
    ⟨fun ⟨hlabel, hs, ht⟩ => ⟨hlabel, hs, ht⟩, fun h => ⟨h.label_eq, h.source_eq, h.target_eq⟩⟩

theorem Edge.Parallel.symm {d e : Edge} (h : d.Parallel e) : e.Parallel d :=
  ⟨h.label_eq.symm, h.source_eq.symm, h.target_eq.symm⟩

theorem Edge.Parallel.other_eq {d e : Edge} (h : d.Parallel e) (x : VertexId) :
    d.other x = e.other x := by
  rw [Edge.other, Edge.other, h.source_eq, h.target_eq]

namespace Graph

/-- Two graphs have the same vertices, and the same structural edges in the same order. -/
structure SameStructure (g g' : Graph) : Prop where
  vertices : allVertices g = allVertices g'
  edges : Forall₂ Edge.Parallel ((allEdges g).filter fun e => TypeName.isStructural e.label)
    ((allEdges g').filter fun e => TypeName.isStructural e.label)

namespace SameStructure

variable {g g' : Graph} {depths : SearchDepths}

theorem symm (h : g.SameStructure g') : g'.SameStructure g where
  vertices := h.vertices.symm
  edges := h.edges.flip.imp fun _ _ hde => hde.symm

section Searches

variable (h : g.SameStructure g') (hg : g.Coherent) (hg' : g'.Coherent)

include h hg hg'

/-- What is left at a vertex when the other edges are passed over. -/
theorem forall₂_incident (x : VertexId) :
    Forall₂ Edge.Parallel ((Readable.incident g x .both).filter structuralRule.accepts)
      ((Readable.incident g' x .both).filter structuralRule.accepts) := by
  have hends : ∀ p : Edge → Bool, (∀ d e, d.Parallel e → p d = p e) →
      Forall₂ Edge.Parallel (((allEdges g).filter p).filter structuralRule.accepts)
        (((allEdges g').filter p).filter structuralRule.accepts) := by
    intro p hp
    rw [List.filter_comm, List.filter_comm _ p]
    exact rel_filter hp h.edges
  rw [hg.incident_both, hg'.incident_both, List.filter_append, List.filter_append]
  exact List.rel_append (hends _ fun d e hde => by rw [hde.source_eq])
    (hends _ fun d e hde => by rw [hde.target_eq])

theorem requireVertex_ok {i : VertexId} {v : Vertex} (hv : requireVertex g i = .ok v) :
    requireVertex g' i = .ok v := by
  obtain ⟨hmem, rfl⟩ := hg.mem_of_requireVertex hv
  exact hg'.requireVertex_of_mem (h.vertices ▸ hmem)

theorem vertexWith?_eq (key value : String) :
    vertexWith? g key value = vertexWith? g' key value := by
  rw [hg.vertexWith?_eq, hg'.vertexWith?_eq, h.vertices]

theorem extensions_eq (met : List Reached) (w : Walk) :
    extensions g structuralRule met w = extensions g' structuralRule met w :=
  filterMap_eq_filterMap (fun d e hde => by simp only [hde.other_eq])
    (h.forall₂_incident hg hg' w.last)

theorem meetEnd_ok {met found : List Reached} {w : Walk} (hmeet : meetEnd g met w = .ok found) :
    meetEnd g' met w = .ok found := by
  unfold meetEnd at hmeet ⊢
  split_ifs at hmeet ⊢
  · exact hmeet
  · obtain ⟨v, hv, rfl⟩ := exists_of_map_ok hmeet
    rw [h.requireVertex_ok hg hg' hv]
    rfl

theorem visitLevel_ok (onward : Bool) : ∀ (ws : List Walk) {met : List Reached}
    {p : List Reached × List Walk}, visitLevel g structuralRule onward met ws = .ok p →
      visitLevel g' structuralRule onward met ws = .ok p
  | [], _, _, hvisit => hvisit
  | w :: ws, met, p, hvisit => by
    rw [visitLevel] at hvisit ⊢
    obtain ⟨met₁, hmeet, hvisit⟩ := exists_of_bind_ok hvisit
    obtain ⟨q, hrest, hp⟩ := exists_of_bind_ok hvisit
    rw [bind_of_ok (h.meetEnd_ok hg hg' hmeet), bind_of_ok (visitLevel_ok onward ws hrest),
      ← h.extensions_eq hg hg']
    exact hp

theorem visitLevels_ok : ∀ (hops : ℕ) {ws : List Walk} {met found : List Reached},
    visitLevels g structuralRule hops met ws = .ok found →
      visitLevels g' structuralRule hops met ws = .ok found
  | 0, ws, met, found, hvisit => by
    rw [visitLevels_zero, ← map_fst_visitLevel structuralRule false] at hvisit ⊢
    obtain ⟨p, hlevel, rfl⟩ := exists_of_map_ok hvisit
    rw [h.visitLevel_ok hg hg' false ws hlevel]
    rfl
  | hops + 1, ws, met, found, hvisit => by
    rw [visitLevels_succ] at hvisit ⊢
    obtain ⟨p, hlevel, hrest⟩ := exists_of_bind_ok hvisit
    rw [bind_of_ok (h.visitLevel_ok hg hg' true ws hlevel)]
    exact visitLevels_ok hops hrest

theorem expandBy_ok {start : VertexId} {maxHops : ℕ} {met : List Reached}
    (hmet : expandBy g structuralRule start maxHops = .ok met) :
    expandBy g' structuralRule start maxHops = .ok met :=
  h.visitLevels_ok hg hg' maxHops hmet

theorem nearestContainer_ok {start : VertexId} {wanted : String → Bool} {maxHops : ℕ}
    {found : Option Vertex} (hfound : nearestContainer g start wanted maxHops = .ok found) :
    nearestContainer g' start wanted maxHops = .ok found := by
  obtain ⟨met, hmet, heq⟩ := exists_of_bind_ok hfound
  exact (bind_of_ok (h.expandBy_ok hg hg' hmet) _).trans heq

theorem enclosed {column table : Vertex} {n : String} (henc : Enclosed depths g column table n) :
    Enclosed depths g' column table n :=
  ⟨h.nearestContainer_ok hg hg' henc.1, henc.2⟩

theorem houses {n : String} (hhouses : g.Houses depths n) : g'.Houses depths n := by
  obtain ⟨inst, table, m, hinst, henc⟩ := hhouses
  exact ⟨inst, table, m, h.vertexWith?_eq hg hg' _ _ ▸ hinst, h.enclosed hg hg' henc⟩

end Searches

/-- A fragment ends over one graph as it does over the other. -/
theorem ending_eq (h : g.SameStructure g') (hg : g.Coherent) (hg' : g'.Coherent) (main : Graph)
    (f : Fragment) (s : String) : ending depths g main f s = ending depths g' main f s := by
  refine outcomeBy_congr (fun n => ?_) (fun n => ⟨h.houses hg hg', h.symm.houses hg' hg⟩) f s
  rw [Finds, Finds, h.vertexWith?_eq hg hg']

end SameStructure

end Graph

/-! ## The tables of a column -/

/-- An edge that is no part of a step was there before, or was written as an item. -/
theorem Writes.edge_cases [StepIds] {P : Item → Prop} {g g' : Graph} (hw : Writes P g g')
    {l : EdgeLabel} (hbeside : l ≠ .columnAndProcess ∧ l ≠ .subprocessToProcess) {e : Edge}
    (he : e ∈ allEdges g') (hlabel : e.label = l.name) : e ∈ allEdges g
      ∨ ∃ m n u v, P (.edge l m n) ∧ u ∈ allVertices g' ∧ u.nodeId? = some m
        ∧ v ∈ allVertices g' ∧ v.nodeId? = some n ∧ e.source = u.id ∧ e.target = v.id := by
  induction hw with
  | refl => exact .inl he
  | @tail g₁ g₂ _ hstep ih =>
    have hgrows := hstep.2.grows
    have hearlier : e ∈ allEdges g₁ → e ∈ allEdges g
        ∨ ∃ m n u v, P (.edge l m n) ∧ u ∈ allVertices g₂ ∧ u.nodeId? = some m
          ∧ v ∈ allVertices g₂ ∧ v.nodeId? = some n ∧ e.source = u.id ∧ e.target = v.id := by
      intro he
      refine (ih he).imp_right ?_
      rintro ⟨m, n, u, v, hitem, hu, hm, hv, hn, hends⟩
      exact ⟨m, n, u, v, hitem, hgrows.mem_vertices hu, hm, hgrows.mem_vertices hv, hn, hends⟩
    cases hstep.2 with
    | node _ _ _ _ _ hes => exact hearlier (hes ▸ he)
    | edge hitem hu hm hv hn _ _ hruns _ hes =>
      rw [hes] at he
      rcases List.mem_append.1 he with he | he
      · exact hearlier he
      · obtain rfl := List.mem_singleton.1 he
        obtain rfl := EdgeLabel.name_injective (hlabel.symm.trans hruns.1)
        exact .inr ⟨_, _, _, _, hitem, hgrows.mem_vertices hu, hm, hgrows.mem_vertices hv, hn,
          hruns.2⟩
    | step hadded =>
      rw [hadded.edges_eq] at he
      rcases List.mem_append.1 he with he | he
      · exact hearlier he
      · simp only [List.mem_cons, List.not_mem_nil, or_false] at he
        rcases he with rfl | rfl | rfl
        · exact absurd (EdgeLabel.name_injective (hlabel.symm.trans hadded.runs_in.1)) hbeside.1
        · exact absurd (EdgeLabel.name_injective (hlabel.symm.trans hadded.runs_out.1)) hbeside.1
        · exact absurd (EdgeLabel.name_injective (hlabel.symm.trans hadded.runs_up.1)) hbeside.2

/-- A fragment includes its columns in the tables around them, and nothing else in anything. -/
theorem FragmentItem.of_includedIn {depths : SearchDepths} {buffer : Graph} {f : Fragment}
    {x : TableRole → Vertex} {m n : String}
    (hi : FragmentItem depths buffer f x (.edge .includedIn m n)) :
    ∃ role inst table, m = f.column role ∧ vertexWith? buffer Key.guid (f.column role) = some inst
      ∧ Enclosed depths buffer inst table n := by
  have hattach : ∀ {inst c}, ¬ AttachItem buffer inst c (.edge .includedIn m n) := by
    rintro inst c ⟨-, -, -, ⟨⟩⟩
  cases hi with
  | core hi =>
    cases hi with
    | asset _ hi =>
      cases hi with
      | attached hi => exact absurd hi hattach
    | table _ _ hi => cases hi
  | @link role inst table k _ hinst henc hi =>
    generalize hj : (Item.edge .includedIn m n) = j at hi
    cases hi with
    | flow => cases role <;> cases hj
    | within =>
      obtain ⟨-, rfl, rfl⟩ := Item.edge.inj hj
      exact ⟨role, inst, table, rfl, hinst, henc⟩
    | attached _ _ hi => exact absurd (hj ▸ hi) hattach

namespace Graph

/-- The node ids of what the vertex with a node id is included in. -/
def tablesOf (g : Graph) (n : String) : Set (Option String) :=
  {m | ∃ u y, vertexWith? g Key.nodeId n = some u ∧ y ∈ allVertices g
    ∧ g.Joined .includedIn u.id y.id ∧ y.nodeId? = m}

theorem Grows.tablesOf_subset {g g' : Graph} (h : g.Grows g') (hg : g.Coherent)
    (hg' : g'.Coherent) (n : String) : g.tablesOf n ⊆ g'.tablesOf n := by
  rintro m ⟨u, y, hu, hy, hjoined, hm⟩
  exact ⟨u, y, h.vertexWith? hg hg' hu, h.mem_vertices hy, h.joined hjoined, hm⟩

/-- A column of a fragment that is applied is included in what it was included in before, and in the
nearest table around its instance. -/
theorem tablesOf_of_applied [StepIds] {depths : SearchDepths} {buffer main main' : Graph}
    {f : Fragment} {subProcess : String} (hb : buffer.WellFormed) (hm : main.WellFormed)
    (h : consolidate depths buffer main f = .ok (.applied subProcess, main')) (role : TableRole) :
    ∃ inst table n, vertexWith? buffer Key.guid (f.column role) = some inst
      ∧ Enclosed depths buffer inst table n
      ∧ main'.tablesOf (f.column role) = insert (some n) (main.tablesOf (f.column role)) := by
  have hcases := consolidate_cases depths hb hm f
  rw [h] at hcases
  cases hcases with
  | @applied x s u v q _ _ hplaced hwrites hspans _ _ _ =>
    have hm' := hwrites.wellFormed hm
    obtain ⟨inst, table, n, hinst, henc, hx⟩ := hplaced role
    refine ⟨inst, table, n, hinst, henc, Set.Subset.antisymm ?_ ?_⟩
    · rintro k ⟨w, y, hw, hy, ⟨e, he, hsource, hlabel, htarget⟩, hk⟩
      obtain ⟨hwmem, hwid⟩ := hm'.mem_of_vertexWith? hw
      rcases hwrites.edge_cases (by decide) he hlabel with hold |
        ⟨c, d, w', y', hitem, hw', hc, hy', hd, hsource', htarget'⟩
      · -- an edge from before has both its ends from before
        obtain ⟨w', hw', hid⟩ := hm.exists_source hold
        obtain ⟨y', hy', hyid⟩ := hm.exists_target hold
        obtain rfl := hm'.eq_of_vertex_id (hwrites.grows.mem_vertices hw') hwmem
          (hid.trans hsource)
        obtain rfl := hm'.eq_of_vertex_id (hwrites.grows.mem_vertices hy') hy (hyid.trans htarget)
        exact .inr ⟨w', y', hwrites.grows.vertexWith?_of_mem hm.toCoherent hm'.toCoherent hw' hw,
          hy', ⟨e, hold, hsource, hlabel, htarget⟩, hk⟩
      · obtain rfl := hm'.eq_of_vertex_id hw' hwmem (hsource'.symm.trans hsource)
        obtain rfl := hm'.eq_of_vertex_id hy' hy (htarget'.symm.trans htarget)
        obtain ⟨role', inst', table', rfl, hinst', henc'⟩ := hitem.of_includedIn
        have hcolumn : f.column role = f.column role' := Option.some.inj (hwid.symm.trans hc)
        rw [← hcolumn] at hinst'
        obtain rfl := Option.some.inj (hinst.symm.trans hinst')
        obtain ⟨-, rfl⟩ := henc.unique henc'
        exact .inl (hk.symm.trans hd)
    · refine Set.insert_subset ?_
        (hwrites.grows.tablesOf_subset hm.toCoherent hm'.toCoherent _)
      obtain ⟨hxmem, hxid⟩ := hm'.mem_of_vertexWith? hx
      cases role with
      | input => exact ⟨u, x .input, hspans.source_eq, hxmem, hspans.table_in.within, hxid⟩
      | output => exact ⟨v, x .output, hspans.target_eq, hxmem, hspans.table_out.within, hxid⟩

/-! ## Over either graph -/

/-- What is found in one buffer graph is found in the other, and a fragment comes to the same over
either, as far as its tables go. -/
structure Interchangeable [StepIds] (depths : SearchDepths) (g g' main : Graph) (f : Fragment) :
    Prop where
  nearest : ∀ (start : VertexId) (wanted : String → Bool) (maxHops : ℕ) (found : Option Vertex),
    nearestContainer g start wanted maxHops = .ok found
      ↔ nearestContainer g' start wanted maxHops = .ok found
  exists_nearest : ∀ start ∈ allVertices g, ∀ (wanted : String → Bool) (maxHops : ℕ),
    ∃ found, nearestContainer g start.id wanted maxHops = .ok found
  missing : ∀ column, consolidate depths g main f = .error (.missingTable column)
    ↔ consolidate depths g' main f = .error (.missingTable column)
  applied : (∃ s main', consolidate depths g main f = .ok (.applied s, main'))
    ↔ ∃ s main', consolidate depths g' main f = .ok (.applied s, main')
  tables : ∀ {s s' main₁ main₂}, consolidate depths g main f = .ok (.applied s, main₁) →
    consolidate depths g' main f = .ok (.applied s', main₂) → ∀ role,
      (main₁.tablesOf (f.column role)).Nonempty
        ∧ main₁.tablesOf (f.column role) = main₂.tablesOf (f.column role)

namespace SameStructure

variable [StepIds] {g g' main : Graph}

/-- A fragment ends over one graph as it does over the other. -/
theorem exists_ending (h : g.SameStructure g') (hg : g.WellFormed) (hg' : g'.WellFormed)
    (hm : main.WellFormed) (depths : SearchDepths) (f : Fragment) : ∃ s s',
      (consolidate depths g main f).map Prod.fst = ending depths g main f s
        ∧ (consolidate depths g' main f).map Prod.fst = ending depths g main f s' := by
  obtain ⟨s, hs⟩ := exists_consolidate_eq_ending depths hg hm f
  obtain ⟨s', hs'⟩ := exists_consolidate_eq_ending depths hg' hm f
  rw [← h.ending_eq hg.toCoherent hg'.toCoherent] at hs'
  exact ⟨s, s', hs, hs'⟩

theorem missingTable (h : g.SameStructure g') (hg : g.WellFormed) (hg' : g'.WellFormed)
    (hm : main.WellFormed) {depths : SearchDepths} {f : Fragment} {column : String}
    (hmissing : consolidate depths g main f = .error (.missingTable column)) :
    consolidate depths g' main f = .error (.missingTable column) := by
  obtain ⟨s, s', hs, hs'⟩ := h.exists_ending hg hg' hm depths f
  rw [hmissing] at hs
  rcases outcomeBy_cases g.Finds _ (g.Houses depths) f with ⟨err, -, hend⟩ | hend | hend
  · obtain rfl := Except.error.inj (hs.trans (hend s))
    exact eq_error_of_map (hs'.trans (hend s'))
  · cases hs.trans (hend s)
  · cases hs.trans (hend s)

theorem applied (h : g.SameStructure g') (hg : g.WellFormed) (hg' : g'.WellFormed)
    (hm : main.WellFormed) {depths : SearchDepths} {f : Fragment} {subProcess : String}
    {main' : Graph} (happlied : consolidate depths g main f = .ok (.applied subProcess, main')) :
    ∃ s main', consolidate depths g' main f = .ok (.applied s, main') := by
  obtain ⟨s, s', hs, hs'⟩ := h.exists_ending hg hg' hm depths f
  rw [happlied] at hs
  rcases outcomeBy_cases g.Finds _ (g.Houses depths) f with ⟨err, -, hend⟩ | hend | hend
  · cases hs.trans (hend s)
  · cases hs.trans (hend s)
  · obtain ⟨⟨_, main₂⟩, hok, rfl⟩ := exists_of_map_ok (hs'.trans (hend s'))
    exact ⟨s', main₂, hok⟩

theorem tablesOf_eq (h : g.SameStructure g') (hg : g.WellFormed) (hg' : g'.WellFormed)
    (hm : main.WellFormed) {depths : SearchDepths} {f : Fragment} {s s' : String}
    {main₁ main₂ : Graph} (h₁ : consolidate depths g main f = .ok (.applied s, main₁))
    (h₂ : consolidate depths g' main f = .ok (.applied s', main₂)) (role : TableRole) :
    (main₁.tablesOf (f.column role)).Nonempty
      ∧ main₁.tablesOf (f.column role) = main₂.tablesOf (f.column role) := by
  obtain ⟨inst₁, table₁, n₁, hinst₁, henc₁, heq₁⟩ := tablesOf_of_applied hg hm h₁ role
  obtain ⟨inst₂, table₂, n₂, hinst₂, henc₂, heq₂⟩ := tablesOf_of_applied hg' hm h₂ role
  rw [h.vertexWith?_eq hg.toCoherent hg'.toCoherent] at hinst₁
  obtain rfl := Option.some.inj (hinst₁.symm.trans hinst₂)
  obtain ⟨-, rfl⟩ := (h.enclosed hg.toCoherent hg'.toCoherent henc₁).unique henc₂
  exact ⟨heq₁ ▸ Set.insert_nonempty _ _, heq₁.trans heq₂.symm⟩

end SameStructure

/-- Two buffer graphs with the same vertices and the same structural edges do for each other: the
same containers are found in them, and a fragment that is consolidated into one and the same graph
lacks a table over either or over neither, and includes its columns in the same tables. -/
theorem interchangeable_of_sameStructure [StepIds] {g g' main : Graph} (h : g.SameStructure g')
    (hg : g.WellFormed) (hg' : g'.WellFormed) (hm : main.WellFormed) (depths : SearchDepths)
    (f : Fragment) : Interchangeable depths g g' main f where
  nearest _ _ _ _ := ⟨h.nearestContainer_ok hg.toCoherent hg'.toCoherent,
    h.symm.nearestContainer_ok hg'.toCoherent hg.toCoherent⟩
  exists_nearest _ hstart wanted maxHops := by
    obtain ⟨found, hfound, -⟩ := hg.exists_nearestContainer hstart wanted maxHops
    exact ⟨found, hfound⟩
  missing _ := ⟨h.missingTable hg hg' hm, h.symm.missingTable hg' hg hm⟩
  applied := ⟨fun ⟨_, _, happlied⟩ => h.applied hg hg' hm happlied,
    fun ⟨_, _, happlied⟩ => h.symm.applied hg' hg hm happlied⟩
  tables := h.tablesOf_eq hg hg' hm

end Graph

/-- Two tables with a column each, and a term. -/
def sampleAssets : List Event :=
  [("t", "RelationalTable"), ("u", "RelationalTable"), ("a", "RelationalColumn"),
    ("b", "RelationalColumn"), ("g", "GlossaryTerm")].map fun (n, type) =>
      .newEntity { guid := n, type }

/-- A relationship between two of them. -/
def sampleTie (type m n : String) : Event :=
  .newRelationship { guid := m ++ n, type, endOne := m, endTwo := n }

/-- The column `a` is next to the other table by way of the term, and by way of the other column. -/
theorem interchangeable_of_sameStructure_sampleAssets :
    let plain := Buffer.recordAll (.empty "buffer") (sampleAssets
      ++ [sampleTie "NestedSchemaAttribute" "t" "a", sampleTie "NestedSchemaAttribute" "u" "b"])
    let tangled := Buffer.recordAll (.empty "buffer") (sampleAssets
      ++ [sampleTie "SemanticAssignment" "u" "g", sampleTie "SemanticAssignment" "a" "g",
        sampleTie "DataFlow" "a" "u", sampleTie "NestedSchemaAttribute" "t" "a",
        sampleTie "LineageMapping" "a" "b", sampleTie "NestedSchemaAttribute" "u" "b"])
    let f : Fragment := ⟨"a", "b", ⟨"p", none⟩⟩
    plain.SameStructure tangled ∧ plain.WellFormed ∧ tangled.WellFormed
      ∧ (Graph.empty "main").WellFormed
      ∧ (consolidate {} plain (.empty "main") f).map Prod.fst = .ok (.applied "sub#2")
      ∧ (consolidate {} tangled (.empty "main") f).map Prod.fst = .ok (.applied "sub#3")
      ∧ Graph.Interchangeable {} plain tangled (.empty "main") f := by
  intro plain tangled f
  have hsame : plain.SameStructure tangled := ⟨by decide +kernel, by decide +kernel⟩
  have hplain : plain.WellFormed :=
    ((Buffer.Built.empty "buffer").recordAll _).identified.toWellFormed
  have htangled : tangled.WellFormed :=
    ((Buffer.Built.empty "buffer").recordAll _).identified.toWellFormed
  have hmain := Graph.wellFormed_empty "main"
  exact ⟨hsame, hplain, htangled, hmain, by decide +kernel, by decide +kernel,
    Graph.interchangeable_of_sameStructure hsame hplain htangled hmain {} f⟩

end Lineage
