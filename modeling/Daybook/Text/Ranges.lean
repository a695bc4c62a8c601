/-!
# Sets of code points

A property of characters is a list of closed ranges of code points in rising order, so that a
search may stop at the first range that lies above the point. Letters, currency signs and widths are
such properties.
-/

namespace Daybook.Text

/-- Whether a point lies in one of the ranges, which are in rising order. -/
def covers : List (Nat × Nat) → Nat → Bool
  | [], _ => false
  | (low, high) :: ranges, n => !(n < low) && (n ≤ high || covers ranges n)

/-- A point that is covered lies in a listed range. -/
theorem exists_range_of_covers : ∀ {ranges : List (Nat × Nat)} {n : Nat},
    covers ranges n → ∃ r ∈ ranges, r.1 ≤ n ∧ n ≤ r.2
  | [], _, h => by simp [covers] at h
  | (low, high) :: ranges, n, h => by
    simp only [covers, Bool.and_eq_true, Bool.not_eq_true', decide_eq_false_iff_not, Nat.not_lt,
      Bool.or_eq_true, decide_eq_true_eq] at h
    rcases h with ⟨hlow, hhigh | hrest⟩
    · exact ⟨(low, high), List.mem_cons_self, hlow, hhigh⟩
    · obtain ⟨r, hr, hn⟩ := exists_range_of_covers hrest
      exact ⟨r, List.mem_cons_of_mem _ hr, hn⟩

end Daybook.Text
