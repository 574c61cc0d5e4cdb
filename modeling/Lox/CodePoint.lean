/-!
# Sets of code points

A set of code points is given by closed ranges of them. The tables of this kind hold properties of
Unicode 17 and keep their ranges ascending and apart, so that each range is as long as it can be.
-/

namespace Lox

namespace CodePoints

/-- Does a gap separate each range from the next, and from the code points below the bound? -/
def ascendingFrom : (bound : Nat) → List (Nat × Nat) → Bool
  | _, [] => true
  | bound, r :: rest => bound ≤ r.1 && r.1 ≤ r.2 && ascendingFrom (r.2 + 2) rest

end CodePoints

/-- A set of code points, as closed ranges that are ascending and apart. -/
structure CodePoints where
  ranges : List (Nat × Nat)
  ascending : CodePoints.ascendingFrom 0 ranges = true := by decide +kernel

namespace CodePoints

/-- Is the character in the set? -/
def contains (s : CodePoints) (c : Char) : Bool :=
  s.ranges.any fun r => r.1 ≤ c.toNat && c.toNat ≤ r.2

/-- Ranges that start at a bound hold no character below it. -/
private theorem any_eq_false_of_lt {bound : Nat} {ranges : List (Nat × Nat)} {c : Char}
    (h : ascendingFrom bound ranges = true) (hc : c.toNat < bound) :
    (ranges.any fun r => r.1 ≤ c.toNat && c.toNat ≤ r.2) = false := by
  induction ranges generalizing bound with
  | nil => rfl
  | cons r rest ih =>
    simp only [ascendingFrom, Bool.and_eq_true, decide_eq_true_eq] at h
    obtain ⟨⟨h₁, h₂⟩, h₃⟩ := h
    rw [List.any_cons, ih h₃ (by omega), Bool.or_false, Bool.and_eq_false_iff]
    exact .inl (decide_eq_false (by omega))

/-- A character below the first range is not in the set. -/
theorem contains_eq_false_of_lt {s : CodePoints} {c : Char}
    (h : ∀ r ∈ s.ranges.head?, c.toNat < r.1) : s.contains c = false := by
  obtain ⟨ranges, hranges⟩ := s
  cases ranges with
  | nil => rfl
  | cons r rest =>
    -- the ranges start at their first code point as well as at zero
    simp only [ascendingFrom, Bool.and_eq_true, decide_eq_true_eq] at hranges
    refine any_eq_false_of_lt ?_ (h r rfl)
    simp [ascendingFrom, hranges]

end CodePoints

end Lox
