import Mathlib.Algebra.Ring.Parity
import Lineage.Proofs.Distinct
import Lineage.Proofs.SingleTerminals

/-!
# Vertices in a line

Where every vertex of a line has the one before it for its only predecessor, and the first has none
(`Graph.Line`), walking back from a vertex goes through the line down to the first, and through
nothing else (`Line.mem_lineage_iff`). So what feeds the last vertex is answered with just the line,
each vertex and each edge once (`Line.exists_answer`).
-/

namespace Lineage

open Std Query
open Relation (ReflTransGen)

/-! ## Two sequences by turns -/

/-- The members of two sequences by turns. -/
def alternate {α : Type} (stop via : ℕ → α) (t : ℕ) : α :=
  if t % 2 = 0 then stop (t / 2) else via (t / 2)

section Alternate

variable {α β : Type} {stop via : ℕ → α}

@[simp]
theorem alternate_even (k : ℕ) : alternate stop via (2 * k) = stop k := by
  rw [alternate, if_pos (by omega), Nat.mul_div_cancel_left k (by omega)]

@[simp]
theorem alternate_odd (k : ℕ) : alternate stop via (2 * k + 1) = via k := by
  rw [alternate, if_neg (by omega), show (2 * k + 1) / 2 = k by omega]

theorem map_alternate (f : α → β) (t : ℕ) :
    f (alternate stop via t) = alternate (fun k => f (stop k)) (fun k => f (via k)) t :=
  apply_ite f _ _ _

theorem alternate_congr {stop' via' : ℕ → α} {i t : ℕ} (hstop : ∀ k ≤ i, stop k = stop' k)
    (hvia : ∀ k < i, via k = via' k) (ht : t ≤ 2 * i) :
    alternate stop via t = alternate stop' via' t := by
  obtain ⟨k, rfl | rfl⟩ := Nat.even_or_odd' t
  · simpa using hstop k (by omega)
  · simpa using hvia k (by omega)

end Alternate

/-! ## Lines of a graph -/

namespace Graph

/-- The first vertex has no predecessor, and every other one has that before it and no other. -/
structure Line (g : Graph) (label : EdgeLabel) (node : ℕ → Vertex) (last : ℕ) : Prop where
  mem : ∀ t ≤ last, node t ∈ allVertices g
  first : ∀ x, ¬ g.Joined label x (node 0).id
  joined_iff : ∀ t < last, ∀ x, g.Joined label x (node (t + 1)).id ↔ x = (node t).id

/-- Where stops and what leads from each to the next follow each other by turns. -/
theorem line_alternate {g : Graph} {label : EdgeLabel} {stop via : ℕ → Vertex} {i : ℕ}
    (hstop : ∀ k ≤ i, stop k ∈ allVertices g) (hvia : ∀ k < i, via k ∈ allVertices g)
    (hfirst : ∀ x, ¬ g.Joined label x (stop 0).id)
    (hto : ∀ k < i, ∀ x, g.Joined label x (via k).id ↔ x = (stop k).id)
    (hfrom : ∀ k < i, ∀ x, g.Joined label x (stop (k + 1)).id ↔ x = (via k).id) :
    g.Line label (alternate stop via) (2 * i) := by
  refine ⟨fun t ht => ?_, hfirst, fun t ht x => ?_⟩
  · obtain ⟨k, rfl | rfl⟩ := Nat.even_or_odd' t
    · simpa using hstop k (by omega)
    · simpa using hvia k (by omega)
  · obtain ⟨k, rfl | rfl⟩ := Nat.even_or_odd' t
    · simpa using hto k (by omega) x
    · rw [show 2 * k + 1 + 1 = 2 * (k + 1) by omega]
      simpa using hfrom k (by omega) x

namespace Line

variable {g : Graph} {label : EdgeLabel} {node : ℕ → Vertex} {last s t : ℕ} {v : Vertex}

/-- No vertex comes twice: the ways back from both would be of one length. -/
theorem eq_of_node_eq (h : g.Line label node last) (hg : g.Coherent) : ∀ {s t : ℕ}, s ≤ last →
    t ≤ last → node s = node t → s = t
  | 0, 0, _, _, _ => rfl
  | 0, t + 1, _, ht, heq =>
    absurd ((h.joined_iff t ht _).2 rfl) (heq ▸ h.first (node t).id)
  | s + 1, 0, hs, _, heq =>
    absurd ((h.joined_iff s hs _).2 rfl) (heq ▸ h.first (node s).id)
  | s + 1, t + 1, hs, ht, heq => by
    have hid : (node s).id = (node t).id :=
      (h.joined_iff t ht _).1 (heq ▸ (h.joined_iff s hs _).2 rfl)
    have hprev := hg.eq_of_vertex_id (h.mem s (by omega)) (h.mem t (by omega)) hid
    rw [h.eq_of_node_eq hg (by omega) (by omega) hprev]

/-- A walk back from a vertex stays in the line. -/
theorem exists_node_of_walk (h : g.Line label node last) (ht : t ≤ last) {x : VertexId}
    (hwalk : ReflTransGen (g.Farther .source label) (node t).id x) : ∃ s ≤ t, (node s).id = x := by
  induction hwalk with
  | refl => exact ⟨t, le_rfl, rfl⟩
  | @tail y x _ hstep ih =>
    obtain ⟨s, hs, rfl⟩ := ih
    have hj : g.Joined label x (node s).id := hstep
    cases s with
    | zero => exact absurd hj (h.first x)
    | succ s => exact ⟨s, by omega, ((h.joined_iff s (by omega) x).1 hj).symm⟩

/-- The walk back comes to every vertex before. -/
theorem walk (h : g.Line label node last) : ∀ {s t : ℕ}, s ≤ t → t ≤ last →
    ReflTransGen (g.Farther .source label) (node t).id (node s).id := by
  intro s t hst ht
  induction t, hst using Nat.le_induction with
  | base => exact .refl
  | succ t _ ih => exact .head ((h.joined_iff t ht _).2 rfl) (ih (by omega))

theorem mem_lineage_iff (h : g.Line label node last) (hg : g.Coherent) (ht : t ≤ last) :
    v ∈ g.lineage .source label (node t) ↔ ∃ s ≤ t, node s = v := by
  constructor
  · rintro ⟨hv, hwalk⟩
    obtain ⟨s, hs, hid⟩ := h.exists_node_of_walk ht hwalk
    exact ⟨s, hs, hg.eq_of_vertex_id (h.mem s (hs.trans ht)) hv hid⟩
  · rintro ⟨s, hs, rfl⟩
    exact ⟨h.mem s (hs.trans ht), h.walk hs ht⟩

theorem frontier_eq (h : g.Line label node last) (hg : g.Coherent) (ht : t ≤ last) :
    g.frontier .source label (node t) = {node 0} := by
  ext v
  rw [Set.mem_singleton_iff]
  constructor
  · rintro ⟨hv, hend⟩
    obtain ⟨s, hs, rfl⟩ := (h.mem_lineage_iff hg ht).1 hv
    cases s with
    | zero => rfl
    | succ s => exact absurd ((h.joined_iff s (by omega) _).2 rfl) (hend (node s).id)
  · rintro rfl
    exact ⟨(h.mem_lineage_iff hg ht).2 ⟨0, t.zero_le, rfl⟩, h.first⟩

/-- The edges of the lineage lead from each vertex to the next. -/
theorem mem_lineageEdges_iff (h : g.Line label node last) (hg : g.Coherent) (ht : t ≤ last)
    {f : ResponseEdge} : f ∈ g.lineageEdges .source label (node t)
      ↔ ∃ s < t, ⟨label.name, (node s).responseId, (node (s + 1)).responseId⟩ = f := by
  constructor
  · rintro ⟨u, hu, v, hv, hstep, rfl⟩
    obtain ⟨s, hs, rfl⟩ := (h.mem_lineage_iff hg ht).1 hu
    have hj : g.Joined label v.id (node s).id := hstep
    cases s with
    | zero => exact absurd hj (h.first v.id)
    | succ s =>
      have hid := (h.joined_iff s (by omega) v.id).1 hj
      obtain rfl := hg.eq_of_vertex_id (h.mem s (by omega)) hv hid.symm
      exact ⟨s, hs, rfl⟩
  · rintro ⟨s, hs, rfl⟩
    exact ⟨node (s + 1), (h.mem_lineage_iff hg ht).2 ⟨s + 1, hs, rfl⟩, node s,
      h.mem s (by omega), (h.joined_iff s (by omega) _).2 rfl, rfl⟩

end Line

end Graph

/-! ## Answers -/

/-- What tells a vertex of a response: its id, its type and its guid. -/
def ResponseVertex.identity (v : ResponseVertex) : String × String × Option String :=
  (v.id, v.type, v.guid)

def Vertex.identity (v : Vertex) : String × String × Option String :=
  (v.responseId, v.label, v.guid?)

/-- A response shows the members of a sequence up to the last, each once, with an edge from each to
the next, and no more. -/
structure Response.IsLine (r : Response) (label : EdgeLabel)
    (node : ℕ → String × String × Option String) (last : ℕ) : Prop where
  ids_injective : ∀ s ≤ last, ∀ t ≤ last, (node s).1 = (node t).1 → s = t
  vertices : (r.vertices.map ResponseVertex.identity).Perm ((List.range (last + 1)).map node)
  edges : r.edges.Perm
    ((List.range last).map fun t => ⟨label.name, (node t).1, (node (t + 1)).1⟩)

namespace Response.IsLine

variable {r : Response} {label : EdgeLabel} {node node' : ℕ → String × String × Option String}
  {last : ℕ}

theorem length_vertices (h : r.IsLine label node last) : r.vertices.length = last + 1 := by
  simpa using h.vertices.length_eq

theorem length_edges (h : r.IsLine label node last) : r.edges.length = last := by
  simpa using h.edges.length_eq

theorem congr (h : r.IsLine label node last) (heq : ∀ t ≤ last, node t = node' t) :
    r.IsLine label node' last where
  ids_injective s hs t ht := by
    rw [← heq s hs, ← heq t ht]
    exact h.ids_injective s hs t ht
  vertices := by
    rw [← List.map_congr_left fun t ht => heq t (Nat.lt_succ_iff.1 (List.mem_range.1 ht))]
    exact h.vertices
  edges := by
    refine h.edges.trans (.of_eq (List.map_congr_left fun t ht => ?_))
    have hlt := List.mem_range.1 ht
    rw [heq t hlt.le, heq (t + 1) hlt]

end Response.IsLine

namespace Graph.Line

variable {g : Graph} {view : View} {node : ℕ → Vertex} {last : ℕ} {text : String}

theorem isLine (h : g.Line view.edgeLabel node last) (hg : g.Coherent) (hdistinct : g.Distinct)
    {w : Whitelist} {r : Response}
    (hdepicts : r.Depicts w (g.lineage .source view.edgeLabel (node last)))
    (hedges : ∀ f, f ∈ r.edges ↔ f ∈ g.lineageEdges .source view.edgeLabel (node last))
    (hnodup : r.edges.Nodup) : r.IsLine view.edgeLabel (fun t => (node t).identity) last := by
  have hids : ∀ s ≤ last, ∀ t ≤ last, (node s).responseId = (node t).responseId → s = t :=
    fun s hs t ht heq =>
      h.eq_of_node_eq hg hs ht (hdistinct (h.mem s hs) (h.mem t ht) heq)
  have hfaithful := hdepicts.faithful (hdistinct.mono fun _ hv => hv.1)
  refine ⟨hids, ?_, ?_⟩
  · have hnodup' : ((List.range (last + 1)).map fun t => (node t).identity).Nodup := by
      refine List.Nodup.map_on (fun s hs t ht heq => ?_) List.nodup_range
      rw [List.mem_range] at hs ht
      exact hids s (by omega) t (by omega) (congrArg Prod.fst heq)
    have hnodup'' : (r.vertices.map ResponseVertex.identity).Nodup := by
      refine List.Nodup.of_map Prod.fst ?_
      rw [List.map_map]
      exact hdepicts.ids_nodup
    rw [List.perm_ext_iff_of_nodup hnodup'' hnodup']
    intro i
    simp only [List.mem_map, List.mem_range]
    constructor
    · rintro ⟨x, hx, rfl⟩
      obtain ⟨v, hv, rfl⟩ := hdepicts.drawn x hx
      obtain ⟨s, hs, rfl⟩ := (h.mem_lineage_iff hg le_rfl).1 hv
      exact ⟨s, by omega, rfl⟩
    · rintro ⟨s, hs, rfl⟩
      exact ⟨_, hfaithful (node s) ((h.mem_lineage_iff hg le_rfl).2 ⟨s, by omega, rfl⟩), rfl⟩
  · have hnodup' : ((List.range last).map fun t => (⟨view.edgeLabel.name, (node t).identity.1,
        (node (t + 1)).identity.1⟩ : ResponseEdge)).Nodup := by
      refine List.Nodup.map_on (fun s hs t ht heq => ?_) List.nodup_range
      rw [List.mem_range] at hs ht
      exact hids s (by omega) t (by omega) (congrArg ResponseEdge.source heq)
    rw [List.perm_ext_iff_of_nodup hnodup hnodup']
    intro f
    rw [hedges, h.mem_lineageEdges_iff hg le_rfl, List.mem_map]
    simp only [List.mem_range]
    rfl

/-- What feeds the last vertex of a line is answered with the line. -/
theorem exists_answer (h : g.Line view.edgeLabel node last) (hg : g.WellFormed)
    (hdistinct : g.Distinct) (w : Whitelist) (graph : GraphName)
    (hq : findNode? g text = some (node last)) :
    ∃ r, answer g w graph .ultimateSource view text = .ok r
      ∧ r.IsLine view.edgeLabel (fun t => (node t).identity) last := by
  have hT := h.frontier_eq hg.toCoherent le_rfl
  cases last with
  | zero =>
    have hr := answer_of_frontier_eq_self w graph hg hq hT
    refine ⟨_, hr, ?_, ?_, ?_⟩
    · exact fun s hs t ht _ => by omega
    · exact .refl _
    · exact .refl _
  | succ t =>
    have hne : node 0 ≠ node (t + 1) := fun heq => by
      have := h.eq_of_node_eq hg.toCoherent (by omega) (by omega) heq
      omega
    obtain ⟨r, hr, hdepicts, hedges⟩ :=
      exists_depicts_of_frontier_eq_singleton w graph view hg hq hne hT
    obtain ⟨r', hr', hshows⟩ := exists_answer_of_frontier_eq_singleton w graph hg hq hne hT
    obtain rfl : r = r' := Except.ok.inj (hr.symm.trans hr')
    exact ⟨r, hr, h.isLine hg.toCoherent hdistinct hdepicts hedges hshows.edges_nodup⟩

variable (view) in
/-- What feeds the last stop is answered with the stops and what is between them, by turns. -/
theorem exists_answer_alternate {stop via : ℕ → Vertex} {i : ℕ}
    {stop' via' : ℕ → String × String × Option String}
    (h : g.Line view.edgeLabel (alternate stop via) (2 * i)) (hg : g.WellFormed)
    (hdistinct : g.Distinct) (hstop : ∀ k ≤ i, (stop k).identity = stop' k)
    (hvia : ∀ k < i, (via k).identity = via' k) (hq : findNode? g text = some (stop i))
    (w : Whitelist) (graph : GraphName) :
    ∃ r, answer g w graph .ultimateSource view text = .ok r
      ∧ r.IsLine view.edgeLabel (alternate stop' via') (2 * i) := by
  obtain ⟨r, hr, hline⟩ := h.exists_answer hg hdistinct w graph (by rwa [alternate_even])
  refine ⟨r, hr, hline.congr fun t ht => ?_⟩
  rw [map_alternate Vertex.identity]
  exact alternate_congr hstop hvia ht

end Graph.Line

end Lineage
