import Mathlib.Data.List.Nodup
import Mathlib.Data.List.Perm.Subperm
import Lineage.Graph.Reach
import Lineage.Proofs.Distances
import Lineage.Proofs.Searching

/-!
# All that is reached

In a well-formed graph the search for all that is reached from a vertex does not fail, and it finds
just that (`exists_reach`): the vertices that edges lead to, each once and nearer ones first; the
edges met on the way, each once; and the vertices from which no edge goes on. Cycles and several
edges between two vertices make no difference. The search moves over the list of the vertices found
and puts behind it what is new, so what counts is that from the vertices passed every edge leads
back into the list (`Reach.Searched`); a round passes one vertex, and there are no more than the
graph has. The list spans two distances from the position on, so what is new is as far as any of it
(`Searched.atDistance_new`).
-/

namespace Lineage

open Relation (ReflTransGen)

namespace Graph

variable {g : Graph}

/-- An edge of a label that is met at one vertex leads to another. -/
def Onward (g : Graph) (direction : Direction) (label : String) (x y : VertexId) : Prop :=
  ∃ e ∈ edgesAt g x direction (some label), e.other x = y

theorem Coherent.onward_eq_leads (h : g.Coherent) (d : Direction) (label : String) :
    g.Onward d label = g.Leads d fun e => e.label == label := by
  funext x y
  refine propext ⟨?_, ?_⟩
  · rintro ⟨e, he, hother⟩
    obtain ⟨hinc, hlabel⟩ := mem_edgesAt.1 he
    obtain ⟨hmem, hleads⟩ := h.mem_incident_iff.1 ⟨hinc, hother⟩
    exact ⟨e, hmem, beq_iff_eq.2 hlabel, hleads⟩
  · rintro ⟨e, hmem, hlabel, hleads⟩
    obtain ⟨hinc, hother⟩ := h.mem_incident_iff.2 ⟨hmem, hleads⟩
    exact ⟨e, mem_edgesAt.2 ⟨hinc, beq_iff_eq.1 hlabel⟩, hother⟩

theorem Coherent.onward_outward (h : g.Coherent) {label : EdgeLabel} {x y : VertexId} :
    g.Onward .outward label.name x y ↔ g.Joined label x y := by
  rw [h.onward_eq_leads]
  constructor
  · rintro ⟨e, he, hlabel, hsource, htarget⟩
    exact ⟨e, he, hsource, beq_iff_eq.1 hlabel, htarget⟩
  · rintro ⟨e, he, hsource, hlabel, htarget⟩
    exact ⟨e, he, beq_iff_eq.2 hlabel, hsource, htarget⟩

theorem Coherent.onward_inward (h : g.Coherent) {label : EdgeLabel} {x y : VertexId} :
    g.Onward .inward label.name x y ↔ g.Joined label y x := by
  rw [h.onward_eq_leads]
  constructor
  · rintro ⟨e, he, hlabel, htarget, hsource⟩
    exact ⟨e, he, hsource, beq_iff_eq.1 hlabel, htarget⟩
  · rintro ⟨e, he, hsource, hlabel, htarget⟩
    exact ⟨e, he, beq_iff_eq.2 hlabel, htarget, hsource⟩

end Graph

namespace Reach

variable {g : Graph} {d : Direction} {label : String} {start : Vertex}

/-! ## Distinct edges -/

theorem distinctEdges_spec : ∀ (es : List Edge), ((distinctEdges es).map Edge.id).Nodup
    ∧ (∀ e ∈ distinctEdges es, e ∈ es) ∧ ∀ e ∈ es, ∃ f ∈ distinctEdges es, f.id = e.id
  | [] => by simp [distinctEdges]
  | e :: es => by
    obtain ⟨hnodup, hmem, hexists⟩ := distinctEdges_spec (es.filter fun f => (f.id == e.id) = false)
    have hcons : distinctEdges (e :: es)
        = e :: distinctEdges (es.filter fun f => (f.id == e.id) = false) := List.eraseDupsBy_cons
    rw [hcons]
    refine ⟨?_, ?_, ?_⟩
    · rw [List.map_cons, List.nodup_cons]
      refine ⟨fun hid => ?_, hnodup⟩
      obtain ⟨f, hf, heq⟩ := List.mem_map.1 hid
      simpa [heq] using (List.mem_filter.1 (hmem f hf)).2
    · refine List.forall_mem_cons.2 ⟨List.mem_cons_self, fun f hf => ?_⟩
      exact List.mem_cons_of_mem _ (List.mem_filter.1 (hmem f hf)).1
    · refine List.forall_mem_cons.2 ⟨⟨e, List.mem_cons_self, rfl⟩, fun f hf => ?_⟩
      by_cases heq : f.id = e.id
      · exact ⟨e, List.mem_cons_self, heq.symm⟩
      · obtain ⟨f', hf', hid⟩ := hexists f (List.mem_filter.2 ⟨hf, by simpa using heq⟩)
        exact ⟨f', List.mem_cons_of_mem _ hf', hid⟩
  termination_by es => es.length
  decreasing_by exact Nat.lt_succ_of_le (List.length_filter_le _ _)

/-- Where ids tell edges apart, no edge is lost. -/
theorem mem_distinctEdges {es : List Edge} (h : ∀ e ∈ es, ∀ f ∈ es, e.id = f.id → e = f)
    {e : Edge} : e ∈ distinctEdges es ↔ e ∈ es := by
  obtain ⟨-, hmem, hexists⟩ := distinctEdges_spec es
  refine ⟨hmem e, fun he => ?_⟩
  obtain ⟨f, hf, hid⟩ := hexists e he
  exact h f (hmem f hf) e he hid ▸ hf

/-! ## One vertex followed -/

theorem exists_discover (hg : g.WellFormed) (v : Vertex) : ∀ (es : List Edge) {found : List Vertex},
    (∀ e ∈ es, e ∈ Readable.incident g v.id d) → (found.map Vertex.id).Nodup →
      ∃ found', discover g v es found = .ok found' ∧ found <+: found'
        ∧ (found'.map Vertex.id).Nodup
        ∧ (∀ u ∈ found', u ∈ found ∨ u ∈ allVertices g ∧ ∃ e ∈ es, e.other v.id = u.id)
        ∧ ∀ e ∈ es, ∃ u ∈ found', u.id = e.other v.id
  | [], found, _, hnodup => ⟨found, rfl, List.prefix_rfl, hnodup, fun u hu => .inl hu, by simp⟩
  | e :: es, found, hes, hnodup => by
    have hrest := fun f hf => hes f (List.mem_cons_of_mem _ hf)
    unfold discover
    split_ifs with hany
    · obtain ⟨w, hw, hid⟩ := List.any_eq_true.1 hany
      obtain ⟨found', heq, hprefix, hnodup', hfrom, hall⟩ := exists_discover hg v es hrest hnodup
      refine ⟨found', heq, hprefix, hnodup', fun u hu => (hfrom u hu).imp_right ?_, ?_⟩
      · rintro ⟨hu, f, hf, hother⟩
        exact ⟨hu, f, List.mem_cons_of_mem _ hf, hother⟩
      · exact List.forall_mem_cons.2 ⟨⟨w, hprefix.subset hw, beq_iff_eq.1 hid⟩, hall⟩
    · obtain ⟨w, hw, hid, hreq⟩ := hg.requireVertex_other (hes e List.mem_cons_self)
      have hnew : ∀ u ∈ found, u.id ≠ w.id := fun u hu heq =>
        hany (List.any_eq_true.2 ⟨u, hu, beq_iff_eq.2 (heq.trans hid)⟩)
      have hnodup₁ : ((found ++ [w]).map Vertex.id).Nodup := by
        rw [List.map_append, List.map_singleton, ← List.concat_eq_append, List.nodup_concat]
        refine ⟨fun hmem => ?_, hnodup⟩
        obtain ⟨u, hu, heq⟩ := List.mem_map.1 hmem
        exact hnew u hu heq
      obtain ⟨found', heq, hprefix, hnodup', hfrom, hall⟩ := exists_discover hg v es hrest hnodup₁
      refine ⟨found', (bind_of_ok hreq _).trans heq, (List.prefix_append _ _).trans hprefix,
        hnodup', fun u hu => ?_, ?_⟩
      · rcases hfrom u hu with hu | ⟨hu, f, hf, hother⟩
        · rcases List.mem_append.1 hu with hu | hu
          · exact .inl hu
          · rw [List.mem_singleton.1 hu]
            exact .inr ⟨hw, e, List.mem_cons_self, hid.symm⟩
        · exact .inr ⟨hu, f, List.mem_cons_of_mem _ hf, hother⟩
      · refine List.forall_mem_cons.2 ⟨⟨w, hprefix.subset ?_, hid⟩, hall⟩
        exact List.mem_append_right _ List.mem_cons_self

/-! ## The search -/

/-- In a list that is ordered what comes behind is related to what comes before. -/
theorem rel_of_getElem? {α : Type} {R : α → α → Prop} {xs : List α} (h : xs.Pairwise R) {i j : Nat}
    {x y : α} (hx : xs[i]? = some x) (hy : xs[j]? = some y) (hij : i < j) : R x y := by
  obtain ⟨hi, rfl⟩ := List.getElem?_eq_some_iff.1 hx
  obtain ⟨hj, rfl⟩ := List.getElem?_eq_some_iff.1 hy
  exact List.pairwise_iff_getElem.1 h i j hi hj hij

/-- The search has come to a position in the list of the vertices found. -/
structure Searched (g : Graph) (d : Direction) (label : String) (start : Vertex) (position : Nat)
    (found : List Vertex) : Prop where
  head : found.head? = some start
  distinct : (found.map Vertex.id).Nodup
  reached : ∀ u ∈ found, u ∈ allVertices g ∧ ReflTransGen (g.Onward d label) start.id u.id
  followed : ∀ i < position, ∀ v, found[i]? = some v → ∀ y, g.Onward d label v.id y →
    ∃ u ∈ found, u.id = y
  ascending : found.Pairwise fun u v => NoFarther (g.Onward d label) start.id u.id v.id
  /-- From the position on the list spans two distances. -/
  near : ∀ v, found[position]? = some v → ∀ u ∈ found, ∀ {m n},
    AtDistance (g.Onward d label) start.id m v.id → AtDistance (g.Onward d label) start.id n u.id →
      n ≤ m + 1

theorem searched_start (hstart : start ∈ allVertices g) : Searched g d label start 0 [start] where
  head := rfl
  distinct := by simp
  reached u hu := by
    rw [List.mem_singleton.1 hu]
    exact ⟨hstart, .refl⟩
  followed i hi := absurd hi (Nat.not_lt_zero i)
  ascending := List.pairwise_singleton _ _
  near v _ u hu m n _ hn := by
    rw [List.mem_singleton.1 hu] at hn
    have := hn.unique atDistance_self
    omega

namespace Searched

variable {position m n : Nat} {found : List Vertex} {u v : Vertex}

theorem length_le (h : Searched g d label start position found) :
    found.length ≤ (allVertices g).length := by
  have hnodup : found.Nodup := .of_map _ h.distinct
  exact (hnodup.subperm fun u hu => (h.reached u hu).1).length_le

/-- Nothing behind the position is nearer than the vertex there. -/
theorem le_of_getElem? (h : Searched g d label start position found)
    (hv : found[position]? = some v) (hm : AtDistance (g.Onward d label) start.id m v.id) {i : Nat}
    (hi : position ≤ i) (hu : found[i]? = some u)
    (hn : AtDistance (g.Onward d label) start.id n u.id) : m ≤ n := by
  rcases Nat.lt_or_eq_of_le hi with hi | rfl
  · exact rel_of_getElem? h.ascending hv hu hi hm hn
  · obtain rfl := Option.some.inj (hv.symm.trans hu)
    exact (hm.unique hn).le

/-- All that is no farther than the vertex at the position has been found. -/
theorem exists_mem_of_le (h : Searched g d label start position found)
    (hv : found[position]? = some v) (hm : AtDistance (g.Onward d label) start.id m v.id) :
    ∀ {n : Nat}, n ≤ m → ∀ {y : VertexId}, AtDistance (g.Onward d label) start.id n y →
      ∃ u ∈ found, u.id = y
  | 0, _, y, hy => ⟨start, List.mem_of_head? h.head, hy.eq_of_zero.symm⟩
  | n + 1, hle, y, hy => by
    obtain ⟨z, hz, hstep⟩ := hy.exists_prev
    obtain ⟨u, hu, rfl⟩ := h.exists_mem_of_le hv hm (by omega) hz
    obtain ⟨i, hi⟩ := List.mem_iff_getElem?.1 hu
    refine h.followed i ?_ u hi y hstep
    by_contra hbehind
    have := h.le_of_getElem? hv hm (by omega) hi hz
    omega

theorem atDistance_new (h : Searched g d label start position found)
    (hv : found[position]? = some v) (hm : AtDistance (g.Onward d label) start.id m v.id)
    (hnew : ∀ w ∈ found, w.id ≠ u.id) (hstep : g.Onward d label v.id u.id) :
    AtDistance (g.Onward d label) start.id (m + 1) u.id := by
  obtain ⟨n, hn, hdist⟩ := hm.exists_next hstep
  have hlt : m < n := by
    by_contra hle
    obtain ⟨w, hw, hid⟩ := h.exists_mem_of_le hv hm (Nat.not_lt.1 hle) hdist
    exact hnew w hw hid
  obtain rfl : n = m + 1 := by omega
  exact hdist

theorem ascending_append (h : Searched g d label start position found)
    (hv : found[position]? = some v) (hm : AtDistance (g.Onward d label) start.id m v.id)
    {new : List Vertex}
    (hnew : ∀ u ∈ new, AtDistance (g.Onward d label) start.id (m + 1) u.id) :
    (found ++ new).Pairwise fun u v => NoFarther (g.Onward d label) start.id u.id v.id := by
  refine List.pairwise_append.2 ⟨h.ascending, List.pairwise_of_forall_mem_list ?_, ?_⟩
  · intro u hu w hw k n hk hn
    rw [hk.unique (hnew u hu), hn.unique (hnew w hw)]
  · intro u hu w hw k n hk hn
    rw [hn.unique (hnew w hw)]
    exact h.near v hv u hu hm hk

/-- To follow the edges of the vertex at the position moves the search on by one. -/
theorem exists_next (h : Searched g d label start position found) (hg : g.WellFormed)
    (hv : found[position]? = some v) :
    ∃ found', discover g v (onward g d label v) found = .ok found'
      ∧ Searched g d label start (position + 1) found' := by
  obtain ⟨found', heq, ⟨new, rfl⟩, hnodup, hfrom, hall⟩ := exists_discover (d := d) hg v
    (onward g d label v) (fun e he => (Graph.mem_edgesAt.1 he).1) h.distinct
  obtain ⟨hvmem, hpath⟩ := h.reached v (List.mem_of_getElem? hv)
  obtain ⟨m, hm⟩ := exists_atDistance_iff.2 hpath
  have hnew : ∀ u ∈ new, AtDistance (g.Onward d label) start.id (m + 1) u.id := by
    intro u hu
    have hfresh : ∀ w ∈ found, w.id ≠ u.id := by
      rw [List.map_append] at hnodup
      exact fun w hw heq => List.disjoint_of_nodup_append hnodup (List.mem_map_of_mem hw)
        (heq ▸ List.mem_map_of_mem hu)
    rcases hfrom u (List.mem_append_right _ hu) with hmem | ⟨-, hstep⟩
    · exact absurd rfl (hfresh u hmem)
    · exact h.atDistance_new hv hm hfresh hstep
  have hascending := h.ascending_append hv hm hnew
  have hlt : position < found.length := (List.getElem?_eq_some_iff.1 hv).1
  refine ⟨_, heq, ?_, hnodup, fun u hu => ?_, fun i hi w hw y hy => ?_, hascending, ?_⟩
  · rw [List.head?_append, h.head, Option.some_or]
  · rcases hfrom u hu with hu | ⟨hu, e, he, hother⟩
    · exact h.reached u hu
    · exact ⟨hu, hpath.tail ⟨e, he, hother⟩⟩
  · rw [List.getElem?_append_left (by omega)] at hw
    rcases Nat.lt_succ_iff_lt_or_eq.1 hi with hi | rfl
    · obtain ⟨u, hu, hid⟩ := h.followed i hi w hw y hy
      exact ⟨u, List.mem_append_left _ hu, hid⟩
    · obtain rfl := Option.some.inj (hv.symm.trans hw)
      obtain ⟨e, he, rfl⟩ := hy
      exact hall e he
  · intro w hw u hu k n hk hn
    have hmk : m ≤ k :=
      rel_of_getElem? hascending (List.getElem?_append_left hlt ▸ hv) hw (Nat.lt_succ_self _) hm hk
    rcases List.mem_append.1 hu with hu | hu
    · have := h.near v hv u hu hm hn
      omega
    · have := hn.unique (hnew u hu)
      omega

theorem closureFrom_of_getElem?_eq_none (h : found[position]? = none) :
    ∀ rounds, closureFrom g d label rounds position found = .ok found
  | 0 => rfl
  | rounds + 1 => by rw [closureFrom, h]

theorem through (h : Searched g d label start position found) (hle : found.length ≤ position) :
    Searched g d label start found.length found :=
  { h with
    followed := fun i hi => h.followed i (by omega)
    near := fun v hv => absurd hv (by simp) }

/-- From some number of rounds on the search comes to the same end. -/
theorem exists_closureFrom (hg : g.WellFormed) : ∀ (enough : Nat) {position : Nat}
    {found : List Vertex}, Searched g d label start position found →
      (allVertices g).length < enough + position →
        ∃ all, (∀ rounds ≥ enough, closureFrom g d label rounds position found = .ok all)
          ∧ Searched g d label start all.length all
  | 0, position, found, h, hlt => by
    have hle : found.length ≤ position := by
      have := h.length_le
      omega
    have hnone := List.getElem?_eq_none_iff.2 hle
    exact ⟨found, fun rounds _ => closureFrom_of_getElem?_eq_none hnone rounds, h.through hle⟩
  | enough + 1, position, found, h, hlt => by
    cases hv : found[position]? with
    | none =>
      have hle := List.getElem?_eq_none_iff.1 hv
      exact ⟨found, fun rounds _ => closureFrom_of_getElem?_eq_none hv rounds, h.through hle⟩
    | some v =>
      obtain ⟨found', heq, hnext⟩ := h.exists_next hg hv
      obtain ⟨all, hall, hsearched⟩ := exists_closureFrom hg enough hnext (by omega)
      refine ⟨all, fun rounds hrounds => ?_, hsearched⟩
      obtain ⟨more, rfl⟩ := Nat.exists_eq_add_of_le' hrounds
      rw [← Nat.add_assoc, closureFrom, hv]
      exact (bind_of_ok heq _).trans (hall _ (by omega))

/-- When the search is through, nothing that can be reached is missing. -/
theorem mem_iff (h : Searched g d label start found.length found) (hg : g.Coherent) {v : Vertex} :
    v ∈ found ↔ v ∈ allVertices g ∧ ReflTransGen (g.Onward d label) start.id v.id := by
  refine ⟨h.reached v, fun ⟨hv, hpath⟩ => ?_⟩
  have hfound : ∀ y, ReflTransGen (g.Onward d label) start.id y → ∃ u ∈ found, u.id = y := by
    intro y hy
    induction hy with
    | refl => exact ⟨start, List.mem_of_head? h.head, rfl⟩
    | tail _ hstep ih =>
      obtain ⟨u, hu, rfl⟩ := ih
      obtain ⟨i, hi⟩ := List.mem_iff_getElem?.1 hu
      exact h.followed i (List.getElem?_eq_some_iff.1 hi).1 u hi _ hstep
  obtain ⟨u, hu, hid⟩ := hfound v.id hpath
  exact hg.eq_of_vertex_id (h.reached u hu).1 hv hid ▸ hu

end Searched

/-! ## All of it -/

/-- What is found is what is reached from a vertex. -/
structure Exact (g : Graph) (d : Direction) (label : String) (start : Vertex) (r : Reach) :
    Prop where
  head : r.vertices.head? = some start
  vertices_nodup : (r.vertices.map Vertex.id).Nodup
  ascending : r.vertices.Pairwise fun u v => NoFarther (g.Onward d label) start.id u.id v.id
  mem_vertices : ∀ v, v ∈ r.vertices
    ↔ v ∈ allVertices g ∧ ReflTransGen (g.Onward d label) start.id v.id
  edges_nodup : (r.edges.map Edge.id).Nodup
  mem_edges : ∀ e, e ∈ r.edges ↔ ∃ v ∈ r.vertices, e ∈ edgesAt g v.id d (some label)
  terminals_sublist : r.terminals.Sublist r.vertices
  mem_terminals : ∀ v, v ∈ r.terminals ↔ v ∈ r.vertices ∧ ∀ y, ¬ g.Onward d label v.id y

theorem Exact.terminals_nodup {r : Reach} (h : r.Exact g d label start) :
    (r.terminals.map Vertex.id).Nodup :=
  h.vertices_nodup.sublist (h.terminals_sublist.map _)

theorem isEmpty_onward {v : Vertex} :
    (onward g d label v).isEmpty = true ↔ ∀ y, ¬ g.Onward d label v.id y := by
  rw [List.isEmpty_iff, List.eq_nil_iff_forall_not_mem]
  exact ⟨fun h y ⟨e, he, _⟩ => h e he, fun h e he => h _ ⟨e, he, rfl⟩⟩

theorem exists_closure (hg : g.WellFormed) (hstart : start ∈ allVertices g) (d : Direction)
    (label : String) : ∃ all, (∀ rounds > (allVertices g).length,
      closureFrom g d label rounds 0 [start] = .ok all) ∧ Searched g d label start all.length all :=
  Searched.exists_closureFrom hg _ (searched_start hstart) (Nat.lt_succ_self _)

theorem exists_reach (hg : g.WellFormed) (hstart : start ∈ allVertices g) (d : Direction)
    (label : String) : ∃ r, reach g start d label = .ok r ∧ r.Exact g d label start := by
  obtain ⟨all, hclosure, h⟩ := exists_closure hg hstart d label
  have hedge : ∀ e ∈ all.flatMap (onward g d label), e ∈ allEdges g := by
    intro e he
    obtain ⟨v, -, he⟩ := List.mem_flatMap.1 he
    exact hg.mem_incident (Graph.mem_edgesAt.1 he).1
  have hids : ∀ e ∈ all.flatMap (onward g d label), ∀ f ∈ all.flatMap (onward g d label),
      e.id = f.id → e = f := fun e he f hf hid => hg.eq_of_edge_id (hedge e he) (hedge f hf) hid
  refine ⟨_, bind_of_ok (hclosure _ (Nat.lt_succ_self _)) _, h.head, h.distinct, h.ascending,
    fun v => h.mem_iff hg.toCoherent, (distinctEdges_spec _).1, fun e => ?_, ?_, fun v => ?_⟩
  · rw [mem_distinctEdges hids, List.mem_flatMap]
    rfl
  · exact List.filter_sublist
  · rw [List.mem_filter, isEmpty_onward]

/-- More rounds than the search is given find no more. -/
theorem closureFrom_of_reach (hg : g.WellFormed) (hstart : start ∈ allVertices g) {r : Reach}
    (hr : reach g start d label = .ok r) {rounds : Nat} (hlt : (allVertices g).length < rounds) :
    closureFrom g d label rounds 0 [start] = .ok r.vertices := by
  obtain ⟨all, hclosure, -⟩ := exists_closure hg hstart d label
  have hall : closure g d label start = .ok all := hclosure _ (Nat.lt_succ_self _)
  rw [reach, bind_of_ok hall] at hr
  obtain rfl := Except.ok.inj hr
  exact hclosure rounds hlt

end Reach

end Lineage
