import Lineage.Proofs.Expanding
import Lineage.Proofs.Roles

/-!
# The nearest container

Visiting walks only adds to what has been met, and what a level adds does not depend on whether its
walks are extended (`map_fst_visitLevel`). So the fewer hops are allowed, the sooner the expansion
stops, and what it has met by then is a prefix of what it would go on to meet
(`prefix_of_expandBy`). The container found is the first wanted vertex of the expansion, hence a
nearest one (`Graph.WellFormed.isNearest`), and it remains the first one when the expansion goes on
(`Graph.WellFormed.exists_contained`).
-/

namespace Lineage

open Consolidation

section Prefix

variable {γ : Type} [Readable γ] {g : γ} {rule : ExpansionRule}

theorem prefix_of_meetEnd {met found : List Reached} {w : Walk} (h : meetEnd g met w = .ok found) :
    met <+: found := by
  unfold meetEnd at h
  split_ifs at h
  · exact Except.ok.inj h ▸ List.prefix_rfl
  · cases hv : requireVertex g w.last with
    | error err =>
      rw [hv] at h
      cases h
    | ok v =>
      rw [hv] at h
      exact Except.ok.inj h ▸ List.prefix_append _ _

variable (rule) in
/-- What a level meets are the ends of its walks, whether or not they are extended. -/
theorem map_fst_visitLevel (onward : Bool) : ∀ (ws : List Walk) (met : List Reached),
    (visitLevel g rule onward met ws).map Prod.fst = ws.foldlM (meetEnd g) met
  | [], _ => rfl
  | w :: ws, met => by
    rw [visitLevel, List.foldlM_cons]
    cases meetEnd g met w with
    | error err => rfl
    | ok met₁ =>
      refine Eq.trans ?_ (map_fst_visitLevel onward ws met₁)
      cases h : visitLevel g rule onward met₁ ws with
      | error err => simp [bind, Except.bind, h, Except.map]
      | ok p => simp [bind, Except.bind, h, Except.map, pure, Except.pure]

theorem visitLevels_zero (met : List Reached) (ws : List Walk) :
    visitLevels g rule 0 met ws = ws.foldlM (meetEnd g) met := by
  cases ws with
  | nil => rfl
  | cons w ws => exact map_fst_visitLevel rule false (w :: ws) met

theorem visitLevels_succ (hops : ℕ) (met : List Reached) (ws : List Walk) :
    visitLevels g rule (hops + 1) met ws
      = visitLevel g rule true met ws >>= fun p => visitLevels g rule hops p.1 p.2 := by
  cases ws with
  | nil => cases hops <;> rfl
  | cons w ws =>
    rw [visitLevels]
    simp

theorem prefix_of_foldlM_meetEnd {ws : List Walk} {met found : List Reached}
    (h : ws.foldlM (meetEnd g) met = .ok found) : met <+: found :=
  foldlM_ok (P := (met <+: ·)) ws h List.prefix_rfl
    fun _ _ _ _ hmet hmeet => hmet.trans (prefix_of_meetEnd (g := g) hmeet)

theorem prefix_of_visitLevels : ∀ (hops : ℕ) {met found : List Reached} {ws : List Walk},
    visitLevels g rule hops met ws = .ok found → met <+: found
  | 0, _, _, _, h => by
    rw [visitLevels_zero] at h
    exact prefix_of_foldlM_meetEnd h
  | hops + 1, met, _, ws, h => by
    rw [visitLevels_succ] at h
    obtain ⟨p, hp, hrest⟩ := exists_of_bind_ok h
    have hfirst : ws.foldlM (meetEnd g) met = .ok p.1 := by
      rw [← map_fst_visitLevel rule, hp]
      rfl
    exact (prefix_of_foldlM_meetEnd hfirst).trans (prefix_of_visitLevels hops hrest)

/-- With more hops allowed the levels visited first are the same. -/
theorem prefix_of_visitLevels_of_le : ∀ {hops more : ℕ}, hops ≤ more →
    ∀ {met found found' : List Reached} {ws : List Walk},
      visitLevels g rule hops met ws = .ok found → visitLevels g rule more met ws = .ok found' →
        found <+: found'
  | 0, 0, _, _, _, _, _, h, h' => Except.ok.inj (h.symm.trans h') ▸ List.prefix_rfl
  | 0, more + 1, _, met, _, _, ws, h, h' => by
    rw [visitLevels_zero, ← map_fst_visitLevel rule true] at h
    rw [visitLevels_succ] at h'
    obtain ⟨p, hp, hrest⟩ := exists_of_bind_ok h'
    rw [hp] at h
    exact Except.ok.inj h ▸ prefix_of_visitLevels more hrest
  | hops + 1, more + 1, hle, _, _, _, _, h, h' => by
    rw [visitLevels_succ] at h h'
    obtain ⟨p, hp, hrest⟩ := exists_of_bind_ok h
    rw [bind_of_ok hp] at h'
    exact prefix_of_visitLevels_of_le (Nat.le_of_succ_le_succ hle) hrest h'

/-- The expansion for fewer hops is a prefix of the one for more. -/
theorem prefix_of_expandBy {start : VertexId} {hops more : ℕ} {met met' : List Reached}
    (hle : hops ≤ more) (h : expandBy g rule start hops = .ok met)
    (h' : expandBy g rule start more = .ok met') : met <+: met' :=
  prefix_of_visitLevels_of_le hle h h'

end Prefix

section Find

variable {α : Type} {p : α → Bool} {x y : α} {xs ys : List α}

theorem find?_of_prefix (h : xs <+: ys) (hx : xs.find? p = some x) : ys.find? p = some x := by
  obtain ⟨rest, rfl⟩ := h
  rw [List.find?_append, hx]
  rfl

/-- In an ascending list what is found comes no later in the order than anything else that is
wanted. -/
theorem rel_of_find? {R : α → α → Prop} (hrefl : ∀ x, R x x) (h : xs.Pairwise R)
    (hx : xs.find? p = some x) (hy : y ∈ xs) (hpy : p y = true) : R x y := by
  obtain ⟨-, before, after, rfl, hbefore⟩ := List.find?_eq_some_iff_append.1 hx
  rcases List.mem_append.1 hy with hy | hy
  · simpa [hpy] using hbefore y hy
  · rcases List.mem_cons.1 hy with rfl | hy
    · exact hrefl y
    · exact (List.pairwise_cons.1 (List.pairwise_append.1 h).2.1).1 y hy

end Find

namespace Graph

variable {g : Graph} {start u : Vertex} {wanted : String → Bool} {maxHops more n : ℕ}

/-- A wanted vertex other than the start is so many structural hops away. -/
structure ContainerAt (g : Graph) (start : Vertex) (wanted : String → Bool) (n : ℕ)
    (u : Vertex) : Prop where
  mem : u ∈ allVertices g
  ne_start : u ≠ start
  wanted : wanted u.label = true
  distance : AtDistance (structuralRule.Hop g) start.id n u.id

/-- What a search for a container may yield: a wanted vertex that is within the number of hops and
as near as any, or none if there is none. -/
def IsNearest (g : Graph) (start : Vertex) (wanted : String → Bool) (maxHops : ℕ) :
    Option Vertex → Prop
  | some u => ∃ n ≤ maxHops, g.ContainerAt start wanted n u
    ∧ ∀ m w, g.ContainerAt start wanted m w → n ≤ m
  | none => ∀ n ≤ maxHops, ∀ u, ¬ g.ContainerAt start wanted n u

/-- What a search for a container comes to, and what searches with more hops come to. -/
structure Contained (g : Graph) (start : Vertex) (wanted : String → Bool) (maxHops : ℕ)
    (met : List Reached) (found : Option Vertex) : Prop where
  expand_eq : expandBy g structuralRule start.id maxHops = .ok met
  found_eq : nearestContainer g start.id wanted maxHops = .ok found
  nearest : ∀ u, found = some u → ∃ n ≤ maxHops, g.ContainerAt start wanted n u
    ∧ ∀ m w, g.ContainerAt start wanted m w → n ≤ m
  none_iff : found = none ↔ ∀ n ≤ maxHops, ∀ u, ¬ g.ContainerAt start wanted n u
  expand_more : ∀ more ≥ maxHops,
    ∃ met', expandBy g structuralRule start.id more = .ok met' ∧ met <+: met'
  found_more : ∀ more ≥ maxHops, ∀ u, found = some u →
    nearestContainer g start.id wanted more = .ok (some u)

theorem ContainerAt.pos (h : g.ContainerAt start wanted n u) (hg : g.Coherent)
    (hstart : start ∈ allVertices g) : 0 < n := by
  refine Nat.pos_of_ne_zero fun hzero => h.ne_start ?_
  exact hg.eq_of_vertex_id h.mem hstart (hzero ▸ h.distance).eq_of_zero

section Expanded

variable {met : List Reached} (h : Expanded g structuralRule start maxHops met) (hg : g.Coherent)
  (hstart : start ∈ allVertices g)

include h hg hstart

/-- An expansion meets containers as wanted vertices at a depth above zero. -/
theorem containerAt_iff : g.ContainerAt start wanted n u ∧ n ≤ maxHops
    ↔ ⟨u, n⟩ ∈ met ∧ (decide (0 < n) && wanted u.label) = true := by
  rw [h.mem_iff, Bool.and_eq_true, decide_eq_true_iff]
  constructor
  · exact fun ⟨hu, hle⟩ => ⟨⟨hu.mem, hle, hu.distance⟩, hu.pos hg hstart, hu.wanted⟩
  · rintro ⟨⟨hmem, hle, hdist⟩, hpos, hwanted⟩
    refine ⟨⟨hmem, fun heq => ?_, hwanted, hdist⟩, hle⟩
    exact hpos.ne' (hdist.unique (heq ▸ atDistance_self))

theorem nearest_of_find? {r : Reached}
    (hr : met.find? (fun r => 0 < r.depth && wanted r.vertex.label) = some r) :
    (g.ContainerAt start wanted r.depth r.vertex ∧ r.depth ≤ maxHops)
      ∧ ∀ m w, g.ContainerAt start wanted m w → r.depth ≤ m := by
  have hwanted := List.find?_some hr
  have hat := (containerAt_iff h hg hstart).2 ⟨List.mem_of_find?_eq_some hr, hwanted⟩
  refine ⟨hat, fun m w hw => ?_⟩
  rcases Nat.le_total m maxHops with hm | hm
  · obtain ⟨hmem, hwanted⟩ := (containerAt_iff h hg hstart).1 ⟨hw, hm⟩
    exact rel_of_find? (R := fun r s => r.depth ≤ s.depth) (fun _ => le_rfl) h.ascending hr hmem
      hwanted
  · exact hat.2.trans hm

theorem find?_eq_none_iff :
    met.find? (fun r => 0 < r.depth && wanted r.vertex.label) = none
      ↔ ∀ n ≤ maxHops, ∀ u, ¬ g.ContainerAt start wanted n u := by
  rw [List.find?_eq_none]
  constructor
  · intro hnone n hle u hu
    obtain ⟨hmem, hwanted⟩ := (containerAt_iff h hg hstart).1 ⟨hu, hle⟩
    exact hnone _ hmem hwanted
  · intro hfree r hr hwanted
    obtain ⟨hat, hle⟩ := (containerAt_iff h hg hstart).2 ⟨hr, hwanted⟩
    exact hfree _ hle _ hat

end Expanded

theorem WellFormed.exists_contained (hg : g.WellFormed) (hstart : start ∈ allVertices g)
    (wanted : String → Bool) (maxHops : ℕ) :
    ∃ met found, Contained g start wanted maxHops met found := by
  obtain ⟨met, hmet, hexpanded⟩ := exists_expandBy structuralRule maxHops hg hstart
  have hfound : ∀ {hops met}, expandBy g structuralRule start.id hops = .ok met →
      nearestContainer g start.id wanted hops
        = .ok ((met.find? fun r => 0 < r.depth && wanted r.vertex.label).map (·.vertex)) :=
    fun h => bind_of_ok h _
  have hmore : ∀ more ≥ maxHops,
      ∃ met', expandBy g structuralRule start.id more = .ok met' ∧ met <+: met' := by
    intro more hle
    obtain ⟨met', hmet', -⟩ := exists_expandBy structuralRule more hg hstart
    exact ⟨met', hmet', prefix_of_expandBy hle hmet hmet'⟩
  refine ⟨met, _, hmet, hfound hmet, fun u hu => ?_, ?_, hmore, fun more hle u hu => ?_⟩
  · obtain ⟨r, hr, rfl⟩ := Option.map_eq_some_iff.1 hu
    obtain ⟨⟨hat, hle⟩, hleast⟩ := nearest_of_find? hexpanded hg.toCoherent hstart hr
    exact ⟨r.depth, hle, hat, hleast⟩
  · rw [Option.map_eq_none_iff]
    exact find?_eq_none_iff hexpanded hg.toCoherent hstart
  · obtain ⟨met', hmet', hprefix⟩ := hmore more hle
    obtain ⟨r, hr, rfl⟩ := Option.map_eq_some_iff.1 hu
    rw [hfound hmet', find?_of_prefix hprefix hr]
    rfl

theorem WellFormed.isNearest (hg : g.WellFormed) (hstart : start ∈ allVertices g)
    {found : Option Vertex} (h : nearestContainer g start.id wanted maxHops = .ok found) :
    g.IsNearest start wanted maxHops found := by
  obtain ⟨met, found', hcontained⟩ := hg.exists_contained hstart wanted maxHops
  obtain rfl : found' = found := Except.ok.inj (hcontained.found_eq.symm.trans h)
  cases found' with
  | none => exact hcontained.none_iff.1 rfl
  | some u => exact hcontained.nearest u rfl

end Graph

/-- In every buffer graph that events make, the search for a container yields a nearest one, and
none only where there is none within the number of hops. With more hops allowed the expansion goes
on where it stopped, and what has been found is found again. -/
theorem Buffer.Built.nearestContainer_stable {buffer : Graph} (h : Buffer.Built buffer)
    {start : Vertex} (hstart : start ∈ allVertices buffer) (wanted : String → Bool) (maxHops : ℕ) :
    ∃ met found, buffer.Contained start wanted maxHops met found :=
  h.identified.toWellFormed.exists_contained hstart wanted maxHops

/-- A column between two tables that are equally near. -/
def sampleContainers : List Event :=
  [.newEntity { guid := "c", type := "RelationalColumn" },
    .newEntity { guid := "t", type := "RelationalTable" },
    .newEntity { guid := "u", type := "RelationalTable" },
    .newRelationship { guid := "q", type := "NestedSchemaAttribute", endOne := "u", endTwo := "c" },
    .newRelationship { guid := "r", type := "NestedSchemaAttribute", endOne := "t", endTwo := "c" }]

theorem nearestContainer_stable_sampleContainers :
    let buffer := Buffer.recordAll (.empty "buffer") sampleContainers
    let start : Vertex := ⟨0, "RelationalColumn", (∅ : Properties).insert Key.guid "c"⟩
    Buffer.Built buffer ∧ start ∈ allVertices buffer
      ∧ ∃ met found, buffer.Contained start TypeName.isTableLike 2 met found := by
  intro buffer start
  have hbuilt : Buffer.Built buffer := (Buffer.Built.empty "buffer").recordAll sampleContainers
  have hstart : start ∈ allVertices buffer := by decide +kernel
  exact ⟨hbuilt, hstart, hbuilt.nearestContainer_stable hstart TypeName.isTableLike 2⟩

/-- Of two that are equally near, the one whose edge is older is found. -/
example : nearestContainer (Buffer.recordAll (.empty "buffer") sampleContainers) 0
    TypeName.isTableLike 2
      = .ok (some ⟨2, "RelationalTable", (∅ : Properties).insert Key.guid "u"⟩) := by
  decide +kernel

end Lineage
