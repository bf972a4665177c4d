import Mathlib.Data.List.Chain
import Mathlib.Data.List.Nodup
import Mathlib.Data.Nat.Find
import Mathlib.Logic.Relation

/-!
# Distances

The distance of one vertex from another is the least number of steps that lead there
(`AtDistance`). Whatever can be reached is at some distance (`exists_atDistance_iff`), and what is
at a distance above zero has one before it that is nearer by one (`AtDistance.exists_prev`). So the
distances grow with every step of a shortest path, which for that reason meets no vertex twice: to
be reached is to be reached by a simple path (`exists_isSimplePath_iff`).
-/

namespace Lineage

open Relation (ReflTransGen)

variable {α : Type*}

/-- A number of steps of a relation leads from one vertex to another. -/
inductive InSteps (r : α → α → Prop) (x : α) : ℕ → α → Prop
  | zero : InSteps r x 0 x
  | succ {n : ℕ} {y z : α} (steps : InSteps r x n y) (step : r y z) : InSteps r x (n + 1) z

/-- The least number of steps that lead from one vertex to another. -/
structure AtDistance (r : α → α → Prop) (x : α) (n : ℕ) (y : α) : Prop where
  inSteps : InSteps r x n y
  least : ∀ {m}, InSteps r x m y → n ≤ m

/-- One vertex is no farther away than another. -/
def NoFarther (r : α → α → Prop) (x y z : α) : Prop :=
  ∀ {m n}, AtDistance r x m y → AtDistance r x n z → m ≤ n

/-- A way from one vertex to another that meets no vertex twice. -/
structure IsSimplePath (r : α → α → Prop) (x y : α) (p : List α) : Prop where
  head : p.head? = some x
  last : p.getLast? = some y
  chain : p.IsChain r
  nodup : p.Nodup

variable {r : α → α → Prop} {x y z : α} {m n : ℕ}

theorem InSteps.reflTransGen (h : InSteps r x n y) : ReflTransGen r x y := by
  induction h with
  | zero => exact .refl
  | succ _ step ih => exact ih.tail step

theorem exists_inSteps (h : ReflTransGen r x y) : ∃ n, InSteps r x n y := by
  induction h with
  | refl => exact ⟨0, .zero⟩
  | tail _ step ih =>
    obtain ⟨n, hn⟩ := ih
    exact ⟨n + 1, hn.succ step⟩

theorem InSteps.exists_atDistance (h : InSteps r x n y) : ∃ m ≤ n, AtDistance r x m y := by
  classical
  have hex : ∃ m, InSteps r x m y := ⟨n, h⟩
  exact ⟨Nat.find hex, Nat.find_min' hex h, Nat.find_spec hex, fun hm => Nat.find_min' hex hm⟩

theorem exists_atDistance_iff : (∃ n, AtDistance r x n y) ↔ ReflTransGen r x y := by
  constructor
  · rintro ⟨n, hn⟩
    exact hn.inSteps.reflTransGen
  · intro h
    obtain ⟨n, hn⟩ := exists_inSteps h
    obtain ⟨m, -, hm⟩ := hn.exists_atDistance
    exact ⟨m, hm⟩

theorem atDistance_self : AtDistance r x 0 x := ⟨.zero, fun _ => Nat.zero_le _⟩

namespace AtDistance

theorem unique (h : AtDistance r x m y) (h' : AtDistance r x n y) : m = n :=
  Nat.le_antisymm (h.least h'.inSteps) (h'.least h.inSteps)

theorem eq_of_zero (h : AtDistance r x 0 y) : y = x := by
  cases h.inSteps
  rfl

theorem exists_prev (h : AtDistance r x (n + 1) y) : ∃ z, AtDistance r x n z ∧ r z y := by
  cases h.inSteps with
  | @succ _ z _ steps step =>
    refine ⟨z, ⟨steps, fun hm => ?_⟩, step⟩
    have := h.least (hm.succ step)
    omega

theorem exists_next (h : AtDistance r x n y) (step : r y z) : ∃ m ≤ n + 1, AtDistance r x m z :=
  (h.inSteps.succ step).exists_atDistance

/-- A shortest path leads through vertices no farther than its end. -/
theorem exists_isSimplePath (h : AtDistance r x n y) :
    ∃ p, IsSimplePath r x y p ∧ ∀ z ∈ p, ∃ m ≤ n, AtDistance r x m z := by
  induction n generalizing y with
  | zero =>
    obtain rfl := h.eq_of_zero
    exact ⟨[y], ⟨rfl, rfl, .singleton y, by simp⟩, by simpa using h⟩
  | succ n ih =>
    obtain ⟨z, hz, step⟩ := h.exists_prev
    obtain ⟨p, hp, hnear⟩ := ih hz
    have hnew : y ∉ p := by
      intro hy
      obtain ⟨m, hm, hdist⟩ := hnear y hy
      have := h.unique hdist
      omega
    refine ⟨p ++ [y], ⟨by simp [hp.head], by simp, ?_, ?_⟩, ?_⟩
    · refine List.isChain_append.2 ⟨hp.chain, .singleton y, fun u hu v hv => ?_⟩
      rw [hp.last, Option.mem_some_iff] at hu
      rw [List.head?_singleton, Option.mem_some_iff] at hv
      exact hu ▸ hv ▸ step
    · rw [← List.concat_eq_append, List.nodup_concat]
      exact ⟨hnew, hp.nodup⟩
    · intro w hw
      rcases List.mem_append.1 hw with hw | hw
      · obtain ⟨m, hm, hdist⟩ := hnear w hw
        exact ⟨m, by omega, hdist⟩
      · rw [List.mem_singleton.1 hw]
        exact ⟨n + 1, le_rfl, h⟩

end AtDistance

theorem IsSimplePath.reflTransGen {p : List α} (h : IsSimplePath r x y p) : ReflTransGen r x y := by
  have hne : p ≠ [] := by
    rintro rfl
    simpa using h.head
  have hpath := List.relationReflTransGen_of_exists_isChain p h.chain hne
  rwa [(List.head_eq_iff_head?_eq_some hne).2 h.head,
    (List.getLast_eq_iff_getLast?_eq_some hne).2 h.last] at hpath

theorem exists_isSimplePath_iff : (∃ p, IsSimplePath r x y p) ↔ ReflTransGen r x y := by
  constructor
  · rintro ⟨p, hp⟩
    exact hp.reflTransGen
  · intro h
    obtain ⟨n, hn⟩ := exists_atDistance_iff.2 h
    obtain ⟨p, hp, -⟩ := hn.exists_isSimplePath
    exact ⟨p, hp⟩

end Lineage
