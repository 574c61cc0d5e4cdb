import Lox.Decimal.Shortest
import Lox.Proofs.FloatBits
import Lox.Proofs.NumeralCorrect

/-!
# Shortest decimals read back

The numbers that round to a double lie around it, half way to its neighbours, and the neighbours of
a double are those whose bits come next. So whatever a decimal in this interval is, it is read as
the double again; and the search for the shortest one only yields decimals in the interval.

## Key results

- `Magnitude.units_strictMono`: finite doubles are ordered as their bits are
- `Magnitude.IsNearest.unique`, `Rounds.unique`: a quotient rounds to one double
- `Rounds.of_contains`: what lies in the interval of a double rounds to it
- `Magnitude.contains_shortest`: the shortest decimal does
-/

namespace Lox

/-! ## Doubles in their order -/

namespace Magnitude

/-- The next double is one unit of the scale further. -/
theorem units_ofBits_succ (b : Nat) :
    (ofBits (b + 1)).units = (ofBits b).units + 2 ^ (ofBits b).scale := by
  unfold ofBits
  dsimp only
  rcases Nat.lt_or_ge (b % 0x10000000000000 + 1) 0x10000000000000 with h | h
  · -- the exponent stays
    have hdiv : (b + 1) / 0x10000000000000 = b / 0x10000000000000 := by omega
    have hmod : (b + 1) % 0x10000000000000 = b % 0x10000000000000 + 1 := by omega
    rw [hdiv, hmod]
    split
    · simp [units]
    · simp only [units, ← Nat.add_assoc, Nat.succ_mul]
  · -- the fraction is full, and the next double is the first one with the next exponent
    have hdiv : (b + 1) / 0x10000000000000 = b / 0x10000000000000 + 1 := by omega
    have hmod : (b + 1) % 0x10000000000000 = 0 := by omega
    have hfull : b % 0x10000000000000 = 0xfffffffffffff := by omega
    rw [hdiv, hmod, hfull, if_neg (Nat.succ_ne_zero _)]
    by_cases he : b / 0x10000000000000 = 0
    · rw [if_pos he, he]
      rfl
    · rw [if_neg he]
      obtain ⟨e, he⟩ := Nat.exists_eq_succ_of_ne_zero he
      simp only [units, he, Nat.succ_eq_add_one, Nat.add_sub_cancel, Nat.pow_succ]
      omega

/-- Finite doubles are ordered as their bits are. -/
theorem units_strictMono : StrictMono fun b => (ofBits b).units :=
  strictMono_nat_of_lt_succ fun b => by
    rw [units_ofBits_succ]
    exact Nat.lt_add_of_pos_right (Nat.two_pow_pos _)

/-- A magnitude is even just if its bits are. -/
theorem mantissa_ofBits_mod_two (b : Nat) : (ofBits b).mantissa % 2 = b % 2 := by
  unfold ofBits
  dsimp only
  split <;> dsimp only <;> omega

/-- A magnitude is what its bits stand for. -/
theorem WellFormed.exists_bits {x : Magnitude} (h : x.WellFormed) :
    ∃ b < 0x7ff0000000000000, ofBits b = x :=
  ⟨x.bits, bits_lt h, ofBits_bits h⟩

variable {num den : Nat}

/-- Of two doubles that are nearest to a quotient, none is greater: between them there would be
    another one, or they would have consecutive mantissas. -/
private theorem IsNearest.not_lt (hden : 0 < den) {b c : Nat} (hc : c < 0x7ff0000000000000)
    (hx : (ofBits b).IsNearest num den) (hy : (ofBits c).IsNearest num den) : ¬ b < c := by
  intro hlt
  have hunits : (ofBits b).units < (ofBits c).units := units_strictMono hlt
  -- both are equally near, so both mantissas are even and there is a double between them
  have heq := Nat.le_antisymm (hx.le _ hy.wellFormed) (hy.le _ hx.wellFormed)
  have hb₂ := hx.even _ hy.wellFormed hunits.ne' heq.symm
  have hc₂ := hy.even _ hx.wellFormed hunits.ne heq
  rw [mantissa_ofBits_mod_two] at hb₂ hc₂
  have hbetween : b + 1 < c := by omega
  have hless : (ofBits b).units * den < (ofBits (b + 1)).units * den :=
    Nat.mul_lt_mul_of_pos_right (units_strictMono (Nat.lt_succ_self b)) hden
  have hgreater : (ofBits (b + 1)).units * den < (ofBits c).units * den :=
    Nat.mul_lt_mul_of_pos_right (units_strictMono hbetween) hden
  have hle := hx.le _ (wellFormed_ofBits (by omega : b + 1 < _))
  unfold apart at heq hle
  omega

/-- At most one double is nearest to a quotient. -/
theorem IsNearest.unique (hden : 0 < den) {x y : Magnitude} (hx : x.IsNearest num den)
    (hy : y.IsNearest num den) : x = y := by
  obtain ⟨b, hb, rfl⟩ := hx.wellFormed.exists_bits
  obtain ⟨c, hc, rfl⟩ := hy.wellFormed.exists_bits
  have hbc := IsNearest.not_lt hden hc hx hy
  have hcb := IsNearest.not_lt hden hb hy hx
  rw [Nat.le_antisymm (Nat.not_lt.mp hcb) (Nat.not_lt.mp hbc)]

end Magnitude

/-- A quotient rounds to one double. -/
theorem Rounds.unique {num den : Nat} (hden : 0 < den) {x y : Float} (hx : Rounds num den x)
    (hy : Rounds num den y) : x = y := by
  refine Double.ofFloat_injective ?_
  rcases hx with ⟨h, hx⟩ | ⟨h, hx, hx'⟩ <;> rcases hy with ⟨h', hy⟩ | ⟨h', hy, hy'⟩
  · rw [hx, hy]
  · omega
  · omega
  · rw [hx, hy, hx'.unique hden hy']

/-! ## The interval of a double -/

/-- The number of units `10 ^ -1076` in a unit `2 ^ -1074`. -/
@[irreducible] def grain : Nat :=
  4 * Nat.pow 5 1076

/-- The grain is this product. -/
private theorem grain_eq : grain = 4 * Nat.pow 5 1076 := by
  unfold grain
  rfl

/-- The grain is positive. -/
theorem grain_pos : 0 < grain := by
  have hpos : ∀ n, 0 < 4 * Nat.pow 5 n := fun n => Nat.mul_pos (by decide) (Nat.pow_pos (by decide))
  rw [grain_eq]
  exact hpos 1076

/-- So many grains make a power of ten. -/
theorem grain_mul : grain * 2 ^ 1074 = 10 ^ 1076 := by
  rw [grain_eq]
  decide +kernel

namespace Interval

open Magnitude

/-- The value of a magnitude is in the middle of its interval. -/
theorem value_ofMagnitude (x : Magnitude) : (ofMagnitude x).value = x.units * grain := by
  simp only [ofMagnitude, units, grain_eq, Nat.shiftLeft_eq]
  -- the power is never computed: it is only a factor of both sides
  generalize Nat.pow 5 1076 = k
  ring

/-- The upper bound is half way to the next double. -/
theorem two_mul_high (b : Nat) :
    2 * (ofMagnitude (ofBits b)).high =
      (ofBits b).units * grain + (ofBits (b + 1)).units * grain := by
  rw [units_ofBits_succ]
  simp only [ofMagnitude, units, grain_eq, Nat.shiftLeft_eq]
  generalize Nat.pow 5 1076 = k
  ring

/-- Doubles before a power of two are twice as dense as those after it. -/
private theorem scale_ofBits_succ (b : Nat) :
    (ofBits (b + 1)).mantissa = 0x10000000000000 ∧ (ofBits (b + 1)).scale ≠ 0 ∧
        (ofBits (b + 1)).scale = (ofBits b).scale + 1 ∨
      ¬ ((ofBits (b + 1)).mantissa = 0x10000000000000 ∧ (ofBits (b + 1)).scale ≠ 0) ∧
        (ofBits (b + 1)).scale = (ofBits b).scale := by
  unfold ofBits
  dsimp only
  split <;> split <;> dsimp only <;> omega

/-- The lower bound is half way to the double before. -/
theorem two_mul_low (b : Nat) :
    2 * (ofMagnitude (ofBits (b + 1))).low =
      (ofBits b).units * grain + (ofBits (b + 1)).units * grain := by
  have hunits := units_ofBits_succ b
  have hscale := scale_ofBits_succ b
  generalize ofBits (b + 1) = y at hunits hscale ⊢
  generalize ofBits b = x at hunits hscale ⊢
  obtain ⟨n, hn⟩ : ∃ n, y.mantissa = n + 1 := by
    refine Nat.exists_eq_succ_of_ne_zero fun h => ?_
    have hpos := Nat.two_pow_pos x.scale
    rw [units, h, Nat.zero_mul] at hunits
    omega
  simp only [ofMagnitude, Nat.shiftLeft_eq, grain_eq]
  generalize Nat.pow 5 1076 = k
  rcases hscale with ⟨hm, hs, hscale⟩ | ⟨hdense, hscale⟩
  · -- the double before a power of two is half as far away as the one behind it
    have hy : y.units = (2 * n + 2) * 2 ^ x.scale := by
      rw [units, hn, hscale, Nat.pow_succ]
      ring
    have hx : x.units = (2 * n + 1) * 2 ^ x.scale := by
      rw [hy, Nat.succ_mul] at hunits
      exact (Nat.add_right_cancel hunits).symm
    have hlow : 4 * (n + 1) - 1 = 4 * n + 3 := by omega
    rw [if_pos ⟨hm, hs⟩, hn, hlow, hx, hy, hscale, Nat.pow_succ]
    ring
  · have hy : y.units = (n + 1) * 2 ^ x.scale := by rw [units, hn, hscale]
    have hx : x.units = n * 2 ^ x.scale := by
      rw [hy, Nat.succ_mul] at hunits
      exact (Nat.add_right_cancel hunits).symm
    have hlow : 4 * (n + 1) - 2 = 4 * n + 2 := by omega
    rw [if_neg hdense, hn, hlow, hx, hy, hscale]
    ring

variable {x : Magnitude} {p : Nat}

/-- The bounds belong to the interval of a double with an even mantissa. -/
theorem le_of_contains (h : (ofMagnitude x).contains p) :
    (ofMagnitude x).low ≤ p ∧ p ≤ (ofMagnitude x).high ∧
      (p = (ofMagnitude x).low ∨ p = (ofMagnitude x).high → x.mantissa % 2 = 0) := by
  have hclosed : (ofMagnitude x).closed = decide (x.mantissa % 2 = 0) := rfl
  rw [contains, hclosed] at h
  by_cases heven : x.mantissa % 2 = 0
  · simp only [heven, decide_true, if_true, Bool.and_eq_true, decide_eq_true_eq] at h
    exact ⟨h.1, h.2, fun _ => heven⟩
  · simp only [heven, decide_false, Bool.false_eq_true, if_false, Bool.and_eq_true,
      decide_eq_true_eq] at h
    exact ⟨h.1.le, h.2.le, fun hbound => absurd hbound (by omega)⟩

/-- A point in the interval of a double is nearer to it than to those before and behind it, or a
    bound. -/
private theorem nearer_of_contains {b c : Nat} (h : (ofMagnitude (ofBits b)).contains p) :
    apart ((ofBits b).units * grain) p ≤ apart ((ofBits c).units * grain) p ∧
      (c ≠ b → apart ((ofBits c).units * grain) p = apart ((ofBits b).units * grain) p →
        (ofBits b).mantissa % 2 = 0) := by
  obtain ⟨hlow, hhigh, hbound⟩ := le_of_contains h
  have hmono {i j : Nat} (hij : i ≤ j) : (ofBits i).units * grain ≤ (ofBits j).units * grain :=
    Nat.mul_le_mul_right grain (units_strictMono.monotone hij)
  have hstrict (i : Nat) : (ofBits i).units * grain < (ofBits (i + 1)).units * grain :=
    Nat.mul_lt_mul_of_pos_right (units_strictMono (Nat.lt_succ_self i)) grain_pos
  -- on either side the midpoint to the neighbour lies between the point and any other double
  rcases Nat.lt_trichotomy c b with hlt | rfl | hlt
  · obtain ⟨a, rfl⟩ := Nat.exists_eq_add_one_of_ne_zero (Nat.ne_zero_of_lt hlt)
    have hmid := two_mul_low a
    have hstep := hstrict a
    have hca := hmono (Nat.le_of_lt_succ hlt)
    unfold apart
    exact ⟨by omega, fun _ heq => hbound (by omega)⟩
  · exact ⟨Nat.le_refl _, fun hne => absurd rfl hne⟩
  · have hmid := two_mul_high b
    have hstep := hstrict b
    have hbc := hmono (show b + 1 ≤ c from hlt)
    unfold apart
    exact ⟨by omega, fun _ heq => hbound (by omega)⟩

/-- A quotient in the interval of a double is nearest to it. -/
theorem isNearest_of_contains (hx : x.WellFormed) {num den : Nat} (hden : 0 < den)
    (hp : p * den = num * 10 ^ 1076) (h : (ofMagnitude x).contains p) : x.IsNearest num den := by
  -- the distances that rounding compares are those of the point, up to a common factor
  have happart : ∀ y : Magnitude, apart (y.units * den) (num * 2 ^ 1074) * grain =
      apart (y.units * grain) p * den := by
    intro y
    have hnum : num * 2 ^ 1074 * grain = p * den := by
      rw [hp, ← grain_mul, Nat.mul_assoc, Nat.mul_comm (2 ^ 1074)]
    have hunits : y.units * den * grain = y.units * grain * den := Nat.mul_right_comm ..
    unfold apart
    rw [Nat.add_mul, Nat.add_mul, Nat.sub_mul, Nat.sub_mul, Nat.sub_mul, Nat.sub_mul, hnum, hunits]
  obtain ⟨b, hb, rfl⟩ := hx.exists_bits
  refine ⟨hx, fun y hy => ?_, fun y hy hne heq => ?_⟩
  · obtain ⟨c, hc, rfl⟩ := hy.exists_bits
    refine Nat.le_of_mul_le_mul_right ?_ grain_pos
    rw [happart, happart]
    exact Nat.mul_le_mul_right den (nearer_of_contains h).1
  · obtain ⟨c, hc, rfl⟩ := hy.exists_bits
    have heq := congrArg (· * grain) heq
    simp only [happart] at heq
    refine (nearer_of_contains (c := c) h).2 (fun hcb => hne (by rw [hcb])) ?_
    exact Nat.eq_of_mul_eq_mul_right hden heq

/-- The least number that rounds to infinity is half way between the greatest double and the one
    that would come next. -/
private theorem units_add_units_succ {b : Nat} (hb : b + 1 = 0x7ff0000000000000) :
    (ofBits b).units + (ofBits (b + 1)).units = 2 * overflow := by
  -- the greatest finite double has all bits set but the lowest one of the exponent
  have hdiv : b / 0x10000000000000 = 2046 := by omega
  have hmod : b % 0x10000000000000 = 0xfffffffffffff := by omega
  have hlast : ofBits b = ⟨0x1fffffffffffff, 2044 + 1⟩ := by
    unfold ofBits
    dsimp only
    rw [hdiv, hmod]
    rfl
  rw [units_ofBits_succ, hlast]
  unfold units overflow
  generalize 2044 = e
  dsimp only
  rw [Nat.pow_add_one]
  omega

/-- Nothing in the interval of a finite double rounds to infinity. -/
private theorem lt_overflow_of_contains (hx : x.WellFormed) (h : (ofMagnitude x).contains p) :
    p < overflow * grain := by
  obtain ⟨b, hb, rfl⟩ := hx.exists_bits
  obtain ⟨-, hhigh, hbound⟩ := le_of_contains h
  have hmid := two_mul_high b
  obtain ⟨top, htop⟩ : ∃ top, top + 1 = 0x7ff0000000000000 := ⟨0x7fefffffffffffff, rfl⟩
  have hsum := congrArg (· * grain) (units_add_units_succ htop)
  simp only [Nat.add_mul, Nat.mul_assoc] at hsum
  rcases Nat.lt_or_eq_of_le (show b ≤ top by omega) with hlt | rfl
  · have hbelow := Nat.mul_lt_mul_of_pos_right (units_strictMono hlt) grain_pos
    have hbehind := Nat.mul_le_mul_right grain
      (units_strictMono.monotone (show b + 1 ≤ top + 1 by omega))
    dsimp only at hbelow hbehind
    omega
  · -- the greatest double is odd, so its upper bound does not belong to its interval
    have hodd : p ≠ (ofMagnitude (ofBits b)).high := by
      intro heq
      have heven := hbound (.inr heq)
      rw [mantissa_ofBits_mod_two] at heven
      omega
    omega

end Interval

/-- What lies in the interval of a double rounds to it. -/
theorem Rounds.of_contains {x : Float} {m : Magnitude} (hx : Double.ofFloat x = .finite false m)
    {p num den : Nat} (hden : 0 < den) (hp : p * den = num * 10 ^ 1076)
    (h : (Interval.ofMagnitude m).contains p) : Rounds num den x := by
  have hm := Double.wellFormed_of_finite hx
  refine .finite ?_ hx (Interval.isNearest_of_contains hm hden hp h)
  -- compared in grains, in which the bounds of intervals are whole
  refine Nat.lt_of_mul_lt_mul_right (a := grain) ?_
  calc num * 2 ^ 1074 * grain = p * den := by
        rw [hp, ← grain_mul, Nat.mul_assoc, Nat.mul_comm (2 ^ 1074)]
    _ < Magnitude.overflow * grain * den :=
        Nat.mul_lt_mul_of_pos_right (Interval.lt_overflow_of_contains hm h) hden
    _ = Magnitude.overflow * den * grain := Nat.mul_right_comm ..

/-! ## The search for a decimal -/

namespace Interval

variable {tie : TieRule} {i : Interval}

/-- What is picked is in the interval. -/
theorem contains_of_pick? {spacing c : Nat} (h : i.pick? tie spacing = some c) :
    i.contains (c * spacing) := by
  unfold pick? at h
  dsimp only at h
  cases hbelow : i.contains (i.value / spacing * spacing) <;>
    cases habove : i.contains ((i.value / spacing + 1) * spacing) <;> rw [hbelow, habove] at h
  · cases h
  · cases h
    exact habove
  · cases h
    exact hbelow
  · -- the nearer one is taken, or on a tie what the rule says
    dsimp only at h
    split at h
    · cases h
      exact hbelow
    · split at h
      · cases h
        exact habove
      · cases tie with
        | up =>
          cases h
          exact habove
        | toEven =>
          have hc := Option.some.inj h
          split at hc <;> subst hc <;> assumption

/-- Going to coarser grids keeps to the interval. -/
theorem contains_climb (fuel grid c : Nat) (h : i.contains (c * 10 ^ grid)) :
    i.contains ((i.climb tie fuel grid c).2 * 10 ^ (i.climb tie fuel grid c).1) := by
  induction fuel generalizing grid c with
  | zero => exact h
  | succ fuel ih =>
    unfold climb
    cases hpick : i.pick? tie (Nat.pow 10 (grid + 1)) with
    | none => exact h
    | some c' => exact ih (grid + 1) c' (contains_of_pick? hpick)

/-- Going to finer grids ends in the interval. -/
theorem contains_descend (hvalue : i.contains i.value) (grid : Nat) :
    i.contains ((i.descend tie grid).2 * 10 ^ (i.descend tie grid).1) := by
  induction grid with
  | zero => simpa [descend] using hvalue
  | succ grid ih =>
    unfold descend
    cases hpick : i.pick? tie (Nat.pow 10 grid) with
    | none => exact ih
    | some c => exact contains_of_pick? hpick

/-- The coarsest decimal number of an interval is in it. -/
theorem contains_coarsest (hvalue : i.contains i.value) :
    i.contains ((i.coarsest tie).2 * 10 ^ (i.coarsest tie).1) := by
  unfold coarsest
  dsimp only
  split
  · rename_i c hpick
    exact contains_climb _ _ _ (contains_of_pick? hpick)
  · exact contains_descend hvalue _

/-- The unit in which an interval is counted is not zero. The exponent stays a variable, as the
    power is not to be computed. -/
theorem unit_pos (n scale : Nat) : 0 < Nat.pow 5 n <<< scale := by
  rw [Nat.shiftLeft_eq]
  exact Nat.mul_pos (Nat.pow_pos (by decide)) (Nat.two_pow_pos _)

/-- The value of a double lies in its interval. -/
theorem contains_value (x : Magnitude) : (ofMagnitude x).contains (ofMagnitude x).value := by
  have hpos := unit_pos 1076 x.scale
  -- the lower bound is nearer where the scale changes, but never at the value itself
  obtain ⟨below, hbelow, hlow⟩ : ∃ below, 0 < below ∧
      (if x.mantissa = 0x10000000000000 ∧ x.scale ≠ 0 then 1 else 2) = below :=
    ⟨_, by split <;> decide, rfl⟩
  unfold contains ofMagnitude
  simp only [hlow]
  generalize Nat.pow 5 1076 <<< x.scale = unit at hpos
  have hhigh : 4 * x.mantissa * unit < (4 * x.mantissa + 2) * unit :=
    Nat.mul_lt_mul_of_pos_right (by omega) hpos
  by_cases heven : x.mantissa % 2 = 0
  · have hle := Nat.mul_le_mul_right unit (Nat.sub_le (4 * x.mantissa) below)
    simp [heven, hle, hhigh.le]
  · have hlt : (4 * x.mantissa - below) * unit < 4 * x.mantissa * unit :=
      Nat.mul_lt_mul_of_pos_right (by omega) hpos
    simp [heven, hlt, hhigh]

end Interval

namespace Decimal

/-- A decimal in units of `10 ^ -1076`. -/
def point (d : Decimal) : Nat :=
  d.coefficient * 10 ^ (d.exponent + 1076).toNat

/-- A decimal number on a grid is so many times the spacing of the grid. -/
theorem point_mk (coefficient grid : Nat) :
    point ⟨coefficient, (grid : Int) - 1076⟩ = coefficient * 10 ^ grid := by
  rw [point, Int.sub_add_cancel, Int.toNat_natCast]

end Decimal

namespace Magnitude

variable {tie : TieRule} {x : Magnitude}

/-- The shortest text of zero is zero. -/
theorem shortest_of_eq_zero (h : x.mantissa = 0) : x.shortest tie = ⟨0, 0⟩ :=
  if_pos h

/-- The shortest text of any other number is the coarsest of its interval. -/
theorem shortest_of_ne_zero (h : x.mantissa ≠ 0) :
    x.shortest tie = ⟨((Interval.ofMagnitude x).coarsest tie).2,
      ((Interval.ofMagnitude x).coarsest tie).1 - 1076⟩ :=
  if_neg h

/-- The shortest decimal of a double is a multiple of the unit. -/
theorem le_exponent_shortest (x : Magnitude) (tie : TieRule) : -1076 ≤ (x.shortest tie).exponent := by
  by_cases h : x.mantissa = 0
  · rw [shortest_of_eq_zero h]
    decide
  · rw [shortest_of_ne_zero h]
    dsimp only
    omega

/-- The shortest decimal of a double lies in its interval. -/
theorem contains_shortest (x : Magnitude) (tie : TieRule) :
    (Interval.ofMagnitude x).contains (x.shortest tie).point := by
  have hvalue := Interval.contains_value x
  by_cases h : x.mantissa = 0
  · rw [Interval.value_ofMagnitude, units, h, Nat.zero_mul, Nat.zero_mul] at hvalue
    rwa [shortest_of_eq_zero h, Decimal.point, Nat.zero_mul]
  · rw [shortest_of_ne_zero h, Decimal.point_mk]
    exact Interval.contains_coarsest hvalue

variable {y : Magnitude}

/-- Doubles with one shortest decimal, however it is written, are the same. -/
theorem eq_of_point_shortest (hx : x.WellFormed) (hy : y.WellFormed)
    (h : (x.shortest tie).point = (y.shortest tie).point) : x = y := by
  have hpow : ∀ n, 0 < 10 ^ n := fun n => Nat.pow_pos (by decide)
  have hx' := Interval.isNearest_of_contains hx (hpow 1076) rfl (contains_shortest x tie)
  rw [h] at hx'
  exact hx'.unique (hpow 1076)
    (Interval.isNearest_of_contains hy (hpow 1076) rfl (contains_shortest y tie))

/-- The shortest decimal of a double that is not zero is not zero. -/
theorem coefficient_shortest_pos (hx : x.WellFormed) (h : x.mantissa ≠ 0) :
    0 < (x.shortest tie).coefficient := by
  refine Nat.pos_of_ne_zero fun hzero => h ?_
  have hpoint : (x.shortest tie).point = 0 := by rw [Decimal.point, hzero, Nat.zero_mul]
  have hpoint' : ((ofBits 0).shortest tie).point = 0 := by
    rw [shortest_of_eq_zero rfl, Decimal.point, Nat.zero_mul]
  rw [eq_of_point_shortest hx (wellFormed_ofBits (by decide)) (hpoint.trans hpoint'.symm)]
  rfl

/-- The shortest decimals of doubles are in the order of the doubles. -/
theorem point_shortest_lt (tie : TieRule) {b c : Nat} (hc : c < 0x7ff0000000000000) (h : b < c) :
    ((ofBits b).shortest tie).point < ((ofBits c).shortest tie).point := by
  obtain ⟨a, rfl⟩ := Nat.exists_eq_add_one_of_ne_zero (Nat.ne_zero_of_lt h)
  obtain ⟨-, hhigh, -⟩ := Interval.le_of_contains (contains_shortest (ofBits b) tie)
  obtain ⟨hlow, -, -⟩ := Interval.le_of_contains (contains_shortest (ofBits (a + 1)) tie)
  have hbelow := Interval.two_mul_high b
  have habove := Interval.two_mul_low a
  have hmono {i j : Nat} (hij : i ≤ j) : (ofBits i).units * grain ≤ (ofBits j).units * grain :=
    Nat.mul_le_mul_right grain (units_strictMono.monotone hij)
  have h₁ := hmono (show b ≤ a from Nat.le_of_lt_succ h)
  have h₂ := hmono (show b + 1 ≤ a + 1 from h)
  -- the intervals only share bounds, and one decimal cannot be that of two doubles
  refine Nat.lt_of_le_of_ne (by omega) fun heq => ?_
  have hbits := ofBits_injective
    (eq_of_point_shortest (wellFormed_ofBits (by omega)) (wellFormed_ofBits hc) heq)
  omega

end Magnitude

end Lox
