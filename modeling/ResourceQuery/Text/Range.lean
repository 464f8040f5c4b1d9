/-!
# Tables of ranges of code points

A table is a list of ranges, both ends included, that are disjoint and in ascending order. In such
a list the search for a code point may stop at the first range above it.
-/

namespace ResourceQuery.Text

set_option autoImplicit false

/-- Whether `n` lies in one of the ranges, which stand in ascending order. -/
def inRanges : List (Nat × Nat) → Nat → Bool
  | [], _ => false
  | (low, high) :: rest, n => decide (low ≤ n) && (decide (n ≤ high) || inRanges rest n)

/-- Whether all ranges lie above `bound`, and each above the one before it. -/
def ascendFrom : Nat → List (Nat × Nat) → Bool
  | _, [] => true
  | bound, (low, high) :: rest =>
    decide (bound < low) && decide (low ≤ high) && ascendFrom high rest

theorem lt_of_mem_of_ascendFrom {bound : Nat} {ranges : List (Nat × Nat)} {r : Nat × Nat}
    (h : ascendFrom bound ranges = true) (hr : r ∈ ranges) : bound < r.1 := by
  induction ranges generalizing bound with
  | nil => cases hr
  | cons head rest ih =>
    obtain ⟨low, high⟩ := head
    simp only [ascendFrom, Bool.and_eq_true, decide_eq_true_eq] at h
    rcases List.mem_cons.mp hr with rfl | hr
    · exact h.1.1
    · have := ih h.2 hr
      omega

theorem inRanges_iff {bound : Nat} {ranges : List (Nat × Nat)} {n : Nat}
    (h : ascendFrom bound ranges = true) :
    inRanges ranges n = true ↔ ∃ r ∈ ranges, r.1 ≤ n ∧ n ≤ r.2 := by
  induction ranges generalizing bound with
  | nil => simp [inRanges]
  | cons head rest ih =>
    obtain ⟨low, high⟩ := head
    simp only [ascendFrom, Bool.and_eq_true, decide_eq_true_eq] at h
    simp only [inRanges, Bool.and_eq_true, Bool.or_eq_true, decide_eq_true_eq, ih h.2]
    constructor
    · rintro ⟨hlow, hhigh | ⟨r, hr, hin⟩⟩
      · exact ⟨(low, high), List.mem_cons_self, hlow, hhigh⟩
      · exact ⟨r, List.mem_cons_of_mem _ hr, hin⟩
    · rintro ⟨r, hr, hle, hge⟩
      rcases List.mem_cons.mp hr with rfl | hr
      · exact ⟨hle, .inl hge⟩
      · have := lt_of_mem_of_ascendFrom h.2 hr
        exact ⟨by omega, .inr ⟨r, hr, hle, hge⟩⟩

/-- A table of ranges in ascending order. -/
structure Ranges where
  list : List (Nat × Nat)
  ascends : ascendFrom 0 list = true

namespace Ranges

def contains (table : Ranges) (n : Nat) : Bool := inRanges table.list n

theorem contains_iff {table : Ranges} {n : Nat} :
    table.contains n = true ↔ ∃ r ∈ table.list, r.1 ≤ n ∧ n ≤ r.2 := inRanges_iff table.ascends

end Ranges

end ResourceQuery.Text
