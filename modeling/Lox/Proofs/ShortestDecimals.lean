import Lox.Proofs.ReadBack
import Mathlib.Data.Nat.Dist

/-!
# The search finds the shortest decimal

If a grid has a point in an interval at all, one of the two neighbours of the value is in it, and a
grid that is finer than one with a point has a point as well. So it is enough to look one grid up:
where the search ends no coarser grid has a point, and on its grid no point of the interval is
nearer to the value.

## Key results

- `Interval.pick?_eq_none_iff`: nothing is picked just where the grid has no point
- `Interval.coarsest_isBest`: the search ends at the nearest point of the coarsest grid
- `Magnitude.shortest_isBest`: so does the shortest decimal of a double
-/

namespace Lox

namespace Interval

variable {tie : TieRule} {i : Interval} {spacing c c' : Nat}

/-! ## One grid -/

/-- An interval has no gaps. -/
theorem contains_of_between {a p b : Nat} (ha : i.contains a) (hb : i.contains b) (hap : a ≤ p)
    (hpb : p ≤ b) : i.contains p := by
  obtain ⟨low, value, high, closed⟩ := i
  cases closed <;> simp [contains] at ha hb ⊢ <;> omega

/-- If any multiple is in an interval, one of the two around the value is. -/
theorem contains_neighbour (hspacing : 0 < spacing) (hvalue : i.contains i.value)
    (hc : i.contains (c * spacing)) :
    i.contains (i.value / spacing * spacing) ∨ i.contains ((i.value / spacing + 1) * spacing) := by
  have hbelow : i.value / spacing * spacing ≤ i.value := Nat.div_mul_le_self ..
  have habove : i.value < (i.value / spacing + 1) * spacing := by
    rw [Nat.add_one_mul]
    exact Nat.lt_div_mul_add hspacing
  rcases Nat.lt_or_ge (i.value / spacing) c with hlt | hge
  · exact .inr (contains_of_between hvalue hc habove.le (Nat.mul_le_mul_right spacing hlt))
  · exact .inl (contains_of_between hc hvalue (Nat.mul_le_mul_right spacing hge) hbelow)

/-- Nothing is picked just where the grid has no point. -/
theorem pick?_eq_none_iff (hspacing : 0 < spacing) (hvalue : i.contains i.value) :
    i.pick? tie spacing = none ↔ ¬ i.Meets spacing := by
  constructor
  · rintro h ⟨c, hc⟩
    unfold pick? at h
    rcases contains_neighbour hspacing hvalue hc with hn | hn <;>
      grind
  · intro h
    cases hpick : i.pick? tie spacing with
    | none => rfl
    | some c => exact absurd ⟨c, contains_of_pick? hpick⟩ h

/-- No point of the grid in the interval is nearer to the value than the one that is picked. -/
theorem dist_of_pick?_le (hspacing : 0 < spacing) (hvalue : i.contains i.value)
    (h : i.pick? tie spacing = some c) (hc' : i.contains (c' * spacing)) :
    (c * spacing).dist i.value ≤ (c' * spacing).dist i.value := by
  have hbelow : i.value / spacing * spacing ≤ i.value := Nat.div_mul_le_self ..
  have habove : i.value < (i.value / spacing + 1) * spacing := by
    rw [Nat.add_one_mul]
    exact Nat.lt_div_mul_add hspacing
  unfold pick? at h
  dsimp only at h
  unfold Nat.dist
  generalize i.value / spacing = below at *
  -- the other point lies behind one of the two neighbours, which is then in the interval
  rcases Nat.lt_or_ge below c' with hlt | hge
  · have hle := Nat.mul_le_mul_right spacing hlt
    have hin := contains_of_between hvalue hc' habove.le hle
    grind
  · have hle := Nat.mul_le_mul_right spacing hge
    have hin := contains_of_between hc' hvalue hle hbelow
    grind

/-! ## All grids -/

/-- A power of ten and a coefficient are the best choice for a decimal in the interval: every point
    that any grid has there is on this grid or on a finer one, and no other point of the grid is
    nearer to the value. -/
structure IsBest (i : Interval) (grid coefficient : Nat) : Prop where
  contains : i.contains (coefficient * 10 ^ grid)
  nearest : ∀ c, i.contains (c * 10 ^ grid) →
    (coefficient * 10 ^ grid).dist i.value ≤ (c * 10 ^ grid).dist i.value
  coarsest : ∀ c grid', i.contains (c * 10 ^ grid') → grid' ≤ grid

/-- If the next grid has no point in an interval, none that is coarser has one. -/
theorem le_of_not_meets {grid grid' : Nat} (hnext : ¬ i.Meets (10 ^ (grid + 1)))
    (hc : i.contains (c * 10 ^ grid')) : grid' ≤ grid := by
  refine Nat.le_of_not_lt fun hlt => hnext ?_
  obtain ⟨k, rfl⟩ := Nat.exists_eq_add_of_le hlt
  rw [Nat.pow_add] at hc
  exact Meets.finer ⟨c, hc⟩

/-- What is picked on a grid is the best choice if the next grid has no point. -/
theorem isBest_of_pick? {grid : Nat} (hvalue : i.contains i.value)
    (h : i.pick? tie (10 ^ grid) = some c) (hnext : ¬ i.Meets (10 ^ (grid + 1))) :
    i.IsBest grid c where
  contains := contains_of_pick? h
  nearest _ := dist_of_pick?_le (Nat.pow_pos (by decide)) hvalue h
  coarsest _ _ := le_of_not_meets hnext

/-- Going to coarser grids ends at the best choice, if the bound is at a grid without points. -/
theorem climb_isBest (hvalue : i.contains i.value) (fuel grid : Nat)
    (h : i.pick? tie (10 ^ grid) = some c) (hfuel : ¬ i.Meets (10 ^ (grid + fuel + 1))) :
    i.IsBest (i.climb tie fuel grid c).1 (i.climb tie fuel grid c).2 := by
  induction fuel generalizing grid c with
  | zero => exact isBest_of_pick? hvalue h hfuel
  | succ fuel ih =>
    unfold climb
    cases hpick : i.pick? tie (Nat.pow 10 (grid + 1)) with
    | none =>
      exact isBest_of_pick? hvalue h ((pick?_eq_none_iff (Nat.pow_pos (by decide)) hvalue).mp hpick)
    | some c' => exact ih (grid + 1) hpick (by rwa [Nat.add_right_comm grid 1])

/-- Going to finer grids from one without points ends at the best choice. -/
theorem descend_isBest (hvalue : i.contains i.value) (grid : Nat) (h : ¬ i.Meets (10 ^ grid)) :
    i.IsBest (i.descend tie grid).1 (i.descend tie grid).2 := by
  induction grid with
  | zero => exact absurd ⟨i.value, by simpa using hvalue⟩ h
  | succ grid ih =>
    unfold descend
    cases hpick : i.pick? tie (Nat.pow 10 grid) with
    | none => exact ih ((pick?_eq_none_iff (Nat.pow_pos (by decide)) hvalue).mp hpick)
    | some c => exact isBest_of_pick? hvalue hpick h

/-- A grid that is wider than the upper bound has no point in an interval without zero. -/
theorem not_meets_of_lt (hzero : i.contains 0 = false) (h : i.high < spacing) :
    ¬ i.Meets spacing := by
  rintro ⟨c, hc⟩
  rcases Nat.eq_zero_or_pos c with rfl | hpos
  · rw [Nat.zero_mul, hzero] at hc
    cases hc
  · have hle : c * spacing ≤ i.high := by
      unfold contains at hc
      cases hclosed : i.closed <;> simp [hclosed] at hc <;> omega
    have := Nat.le_mul_of_pos_left spacing hpos
    omega

/-- The search ends at the nearest point of the coarsest grid. -/
theorem coarsest_isBest (tie : TieRule) (hvalue : i.contains i.value)
    (hzero : i.contains 0 = false) : i.IsBest (i.coarsest tie).1 (i.coarsest tie).2 := by
  unfold coarsest
  dsimp only
  split
  · rename_i c hpick
    refine climb_isBest hvalue _ _ hpick (not_meets_of_lt hzero ?_)
    -- beyond its own number of bits no power of ten fits below the interval
    calc i.high < 2 ^ (i.high.log2 + 1) := Nat.lt_log2_self
      _ ≤ 10 ^ (i.high.log2 + 1) := Nat.pow_le_pow_left (by decide) _
      _ ≤ _ := Nat.pow_le_pow_right (by decide) (by omega)
  · rename_i hpick
    exact descend_isBest hvalue _ ((pick?_eq_none_iff (Nat.pow_pos (by decide)) hvalue).mp hpick)

end Interval

namespace Magnitude

/-- Zero does not round to another double. -/
theorem contains_zero_eq_false {x : Magnitude} (h : x.mantissa ≠ 0) :
    (Interval.ofMagnitude x).contains 0 = false := by
  have hlow : 0 < (Interval.ofMagnitude x).low := by
    unfold Interval.ofMagnitude
    exact Nat.mul_pos (by split <;> omega) (Interval.unit_pos 1076 x.scale)
  unfold Interval.contains
  split
  · simp
    omega
  · simp

/-- The shortest decimal of a double that is not zero: of those that round to it, none is on a
    coarser grid, and none on the same grid is nearer to it. -/
theorem shortest_isBest (tie : TieRule) {x : Magnitude} (h : x.mantissa ≠ 0) :
    (Interval.ofMagnitude x).IsBest ((x.shortest tie).exponent + 1076).toNat
      (x.shortest tie).coefficient := by
  have hbest := Interval.coarsest_isBest tie (Interval.contains_value x) (contains_zero_eq_false h)
  rw [shortest_of_ne_zero h]
  simpa using hbest

end Magnitude

end Lox
