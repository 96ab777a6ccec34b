/-!
# Ranges of characters

A class of characters of the character standard, as the ranges that make it up.

Main statement: on ascending ranges, the search that stops at the first range reaching as far as the
character finds it exactly if one of the ranges holds it (`Ranges.covers_iff`).
-/

namespace Shorthand.Text

/-- Ranges of characters by number, both ends included. -/
abbrev Ranges := List (Nat × Nat)

namespace Ranges

/-- Whether the ranges ascend from `start` without overlap, and none is empty. -/
def ascendingFrom (start : Nat) : Ranges → Bool
  | [] => true
  | (low, high) :: rest => start ≤ low && low ≤ high && ascendingFrom (high + 1) rest

/-- Whether the ranges ascend without overlap, and none is empty. -/
def ascending (rs : Ranges) : Bool :=
  rs.ascendingFrom 0

/-- Whether a number lies in one of the ascending ranges. The first range that reaches as far
decides. -/
def covers : Ranges → Nat → Bool
  | [], _ => false
  | (low, high) :: rest, n => if n ≤ high then low ≤ n else covers rest n

theorem le_of_mem_ascendingFrom {start : Nat} {rs : Ranges} (h : rs.ascendingFrom start = true)
    {r : Nat × Nat} (hr : r ∈ rs) : start ≤ r.1 := by
  induction rs generalizing start with
  | nil => simp at hr
  | cons s rest ih =>
    simp only [ascendingFrom, Bool.and_eq_true, decide_eq_true_eq] at h
    rcases List.mem_cons.1 hr with rfl | hr
    · exact h.1.1
    · have := ih h.2 hr
      omega

theorem covers_iff_of_ascendingFrom {start : Nat} {rs : Ranges} {n : Nat}
    (h : rs.ascendingFrom start = true) : rs.covers n = true ↔ ∃ r ∈ rs, r.1 ≤ n ∧ n ≤ r.2 := by
  induction rs generalizing start with
  | nil => simp [covers]
  | cons s rest ih =>
    simp only [ascendingFrom, Bool.and_eq_true, decide_eq_true_eq] at h
    simp only [covers, List.mem_cons, or_and_right, exists_or, exists_eq_left]
    split
    case isTrue reached =>
      -- the ranges that follow begin after this one
      have later : ¬ ∃ r ∈ rest, r.1 ≤ n ∧ n ≤ r.2 := by
        rintro ⟨r, hr, low, -⟩
        have := le_of_mem_ascendingFrom h.2 hr
        omega
      rw [or_iff_left later, decide_eq_true_eq, and_iff_left reached]
    case isFalse passed =>
      rw [ih h.2, or_iff_right fun inside => passed inside.2]

/-- The search finds a number exactly if one of the ranges holds it. -/
theorem covers_iff {rs : Ranges} {n : Nat} (h : rs.ascending = true) :
    rs.covers n = true ↔ ∃ r ∈ rs, r.1 ≤ n ∧ n ≤ r.2 :=
  covers_iff_of_ascendingFrom h

end Ranges

end Shorthand.Text
