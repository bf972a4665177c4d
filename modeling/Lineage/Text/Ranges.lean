/-!
# Ranges of code points

A class of characters is given by closed ranges of code points, in ascending order, so that a search
ends at the first range beyond the code point in question.
-/

namespace Lineage

/-- Whether a code point is in one of the ranges. -/
def inRanges : List (Nat × Nat) → Nat → Bool
  | [], _ => false
  | (first, last) :: rest, n => first ≤ n && (n ≤ last || inRanges rest n)

theorem exists_mem_of_inRanges {ranges : List (Nat × Nat)} {n : Nat}
    (h : inRanges ranges n = true) : ∃ r ∈ ranges, r.1 ≤ n ∧ n ≤ r.2 := by
  induction ranges with
  | nil => simp [inRanges] at h
  | cons r rest ih =>
    simp only [inRanges, Bool.and_eq_true, Bool.or_eq_true, decide_eq_true_eq] at h
    obtain ⟨hr, h | h⟩ := h
    · exact ⟨r, by simp, hr, h⟩
    · obtain ⟨s, hs, hn⟩ := ih h
      exact ⟨s, by simp [hs], hn⟩

end Lineage
