import Mathlib.Algebra.Group.Nat.Defs
import Lox.Decimal.Nearest

/-!
# Numerals are rounded correctly

`floatOfDigits` yields the double that is nearest to the number a numeral stands for, the one with
the even mantissa of two that are equally near, and infinity from half a step above the largest
double on. Everything is said in exact arithmetic, in units of `2 ^ -1074`.

## Key results

- `apart_roundHalfEven_le`, `roundHalfEven_even`: no whole number is nearer than the rounded one
- `Magnitude.nearest_isNearest`: the rounded mantissa at its scale is nearest among all magnitudes
- `toBits_ofBits`: a pattern that stands for a number is kept by `Float.ofBits`
- `floatOfDigits_rounds`: the double of a numeral is correctly rounded
-/

namespace Lox

/-- How far two numbers are apart. -/
def apart (a b : Nat) : Nat :=
  (a - b) + (b - a)

/-! ## Rounding a quotient -/

/-- A quotient is rounded to a neighbour that is at most half a step away, down only to an even
    one if it is exactly half. -/
private theorem roundHalfEven_cases (num den : Nat) :
    (roundHalfEven num den = num / den ∧ 2 * (num % den) ≤ den ∧
        (2 * (num % den) = den → num / den % 2 = 0)) ∨
      (roundHalfEven num den = num / den + 1 ∧ den ≤ 2 * (num % den) ∧
        (2 * (num % den) = den → (num / den + 1) % 2 = 0)) := by
  unfold roundHalfEven
  dsimp only
  -- below half, above half, and exactly half
  split
  · exact .inl ⟨rfl, by omega, by omega⟩
  · split
    · exact .inr ⟨rfl, by omega, by omega⟩
    · rcases Nat.mod_two_eq_zero_or_one (num / den) with h | h <;> rw [h]
      · exact .inl ⟨rfl, by omega, fun _ => rfl⟩
      · exact .inr ⟨rfl, by omega, by omega⟩

/-- The whole number nearest to a quotient is no further from it than any other. -/
theorem apart_roundHalfEven_le (num den c : Nat) :
    apart (roundHalfEven num den * den) num ≤ apart (c * den) num := by
  have hnum : num / den * den + num % den = num := Nat.div_add_mod' num den
  -- `c` lies on one side of the quotient or on the other
  have hc : c * den ≤ num / den * den ∨ num / den * den + den ≤ c * den := by
    rcases Nat.lt_or_ge (num / den) c with h | h
    · exact .inr (Nat.succ_mul _ den ▸ Nat.mul_le_mul_right den h)
    · exact .inl (Nat.mul_le_mul_right den h)
  unfold apart
  rcases roundHalfEven_cases num den with ⟨h, _, _⟩ | ⟨h, _, _⟩ <;> rw [h]
  · omega
  · rw [Nat.succ_mul]
    rcases Nat.eq_zero_or_pos den with rfl | hden
    · omega
    · have := Nat.mod_lt num hden
      omega

/-- If another whole number is equally near to a quotient, the rounded one is even. -/
theorem roundHalfEven_even {num den c : Nat} (hden : 0 < den) (hne : c ≠ roundHalfEven num den)
    (h : apart (c * den) num = apart (roundHalfEven num den * den) num) :
    roundHalfEven num den % 2 = 0 := by
  have hnum : num / den * den + num % den = num := Nat.div_add_mod' num den
  have hmod : num % den < den := Nat.mod_lt num hden
  have hsucc : (num / den + 1) * den = num / den * den + den := Nat.succ_mul _ _
  -- `c` is one of the two neighbours, or at least one step further away
  have hc : c * den + den ≤ num / den * den ∨ c = num / den ∨ c = num / den + 1 ∨
      num / den * den + den + den ≤ c * den := by
    rcases Nat.lt_trichotomy c (num / den) with hlt | heq | hgt
    · exact .inl (Nat.succ_mul c den ▸ Nat.mul_le_mul_right den hlt)
    · exact .inr (.inl heq)
    · rcases Nat.eq_or_lt_of_le hgt with heq | hgt
      · exact .inr (.inr (.inl heq.symm))
      · refine .inr (.inr (.inr ?_))
        rw [← hsucc, ← Nat.succ_mul]
        exact Nat.mul_le_mul_right den hgt
  unfold apart at h
  rcases roundHalfEven_cases num den with ⟨hr, hle, heven⟩ | ⟨hr, hle, heven⟩ <;>
    rw [hr] at hne h ⊢
  · refine heven ?_
    rcases hc with hc | hc | hc | hc
    · omega
    · exact absurd hc hne
    · rw [hc] at h
      omega
    · omega
  · refine heven ?_
    rcases hc with hc | hc | hc | hc
    · omega
    · rw [hc] at h
      omega
    · exact absurd hc hne
    · omega

/-! ## The nearest magnitude -/

namespace Magnitude

/-- The value of a magnitude in units of `2 ^ -1074`. -/
def units (x : Magnitude) : Nat :=
  x.mantissa * 2 ^ x.scale

/-- A magnitude of a finite double to which no other is nearer to a quotient; of two that are
    equally near it has the even mantissa. -/
structure IsNearest (x : Magnitude) (num den : Nat) : Prop where
  wellFormed : x.WellFormed
  le : ∀ y : Magnitude, y.WellFormed →
    apart (x.units * den) (num * 2 ^ 1074) ≤ apart (y.units * den) (num * 2 ^ 1074)
  even : ∀ y : Magnitude, y.WellFormed → y.units ≠ x.units →
    apart (y.units * den) (num * 2 ^ 1074) = apart (x.units * den) (num * 2 ^ 1074) →
    x.mantissa % 2 = 0

/-- Half a step above the largest finite double, in units of `2 ^ -1074`. -/
@[irreducible] def overflow : Nat :=
  (2 ^ 54 - 1) * 2 ^ 2044

variable {num den : Nat}

/-- The unit of the scale of the nearest magnitude, as it is compared with the quotient. -/
private def step (num den : Nat) : Nat :=
  den * 2 ^ (nearest num den).scale

/-- The step of the grid is positive. -/
private theorem step_pos (hden : 0 < den) : 0 < step num den :=
  Nat.mul_pos hden (Nat.two_pow_pos _)

/-- The mantissa of the nearest magnitude is the quotient by the step, rounded to even. -/
private theorem nearest_mantissa_eq :
    (nearest num den).mantissa = roundHalfEven (num * 2 ^ 1074) (step num den) := by
  simp only [nearest, step, Nat.shiftLeft_eq]

/-- The scale of the nearest magnitude leaves at most 53 bits for the mantissa. -/
private theorem lt_mul_step (hden : 0 < den) : num * 2 ^ 1074 < 2 ^ 53 * step num den := by
  simp only [step, nearest, Nat.shiftLeft_eq]
  generalize num * 2 ^ 1074 = units
  have hlog : units / den < 2 ^ ((units / den).log2 + 1) := Nat.lt_log2_self
  have hpow : 2 ^ ((units / den).log2 + 1) ≤ 2 ^ ((units / den).log2 - 52 + 53) :=
    Nat.pow_le_pow_right (by decide) (by omega)
  have hquot : units < 2 ^ ((units / den).log2 - 52 + 53) * den :=
    (Nat.div_lt_iff_lt_mul hden).mp (Nat.lt_of_lt_of_le hlog hpow)
  calc units < 2 ^ ((units / den).log2 - 52 + 53) * den := hquot
    _ = 2 ^ 53 * (den * 2 ^ ((units / den).log2 - 52)) := by
      rw [Nat.pow_add, Nat.mul_comm den, ← Nat.mul_assoc, Nat.mul_comm (2 ^ 53)]

/-- Above the lowest scale, the nearest magnitude needs 53 bits for the mantissa. -/
private theorem mul_step_le (hden : 0 < den) (hs : (nearest num den).scale ≠ 0) :
    2 ^ 52 * step num den ≤ num * 2 ^ 1074 := by
  simp only [step, nearest, Nat.shiftLeft_eq] at hs ⊢
  generalize num * 2 ^ 1074 = units at hs ⊢
  -- above the lowest scale the quotient has a leading bit to count from
  have hne : units / den ≠ 0 := by
    intro h
    rw [h] at hs
    exact hs (by decide)
  have hlog : 2 ^ (units / den).log2 ≤ units / den := Nat.log2_self_le hne
  have hsplit : (units / den).log2 = (units / den).log2 - 52 + 52 := by omega
  rw [hsplit, Nat.pow_add, Nat.le_div_iff_mul_le hden] at hlog
  calc 2 ^ 52 * (den * 2 ^ ((units / den).log2 - 52))
      = 2 ^ ((units / den).log2 - 52) * 2 ^ 52 * den := by
        rw [Nat.mul_comm, Nat.mul_comm den, Nat.mul_right_comm]
    _ ≤ units := hlog

/-- The mantissa of the nearest magnitude has 53 bits, or is the power of two above, and is full
    above the lowest scale. -/
private theorem nearest_mantissa (hden : 0 < den) :
    (nearest num den).mantissa ≤ 2 ^ 53 ∧
      ((nearest num den).scale ≠ 0 → 2 ^ 52 ≤ (nearest num den).mantissa) := by
  have hpos := @step_pos num den hden
  have hup : num * 2 ^ 1074 / step num den < 2 ^ 53 :=
    (Nat.div_lt_iff_lt_mul hpos).mpr (lt_mul_step hden)
  -- the quotient has at most 53 bits, and rounding adds at most one to it
  rw [nearest_mantissa_eq]
  refine ⟨?_, fun hs => ?_⟩
  · rcases roundHalfEven_cases (num * 2 ^ 1074) (step num den) with ⟨h, _⟩ | ⟨h, _⟩ <;> omega
  · have hdown : 2 ^ 52 ≤ num * 2 ^ 1074 / step num den :=
      (Nat.le_div_iff_mul_le hpos).mpr (mul_step_le hden hs)
    rcases roundHalfEven_cases (num * 2 ^ 1074) (step num den) with ⟨h, _⟩ | ⟨h, _⟩ <;> omega

/-- A magnitude is a whole number of steps, or needs a lower scale and is less than those that do
    not. -/
private theorem units_grid {y : Magnitude} (h : y.WellFormed) (hden : 0 < den) :
    (∃ c, y.units * den = c * step num den ∧ y.units = c * 2 ^ (nearest num den).scale) ∨
      ((nearest num den).scale ≠ 0 ∧ y.units * den < 2 ^ 52 * step num den) := by
  unfold units step
  generalize (nearest num den).scale = s
  -- at a lower scale the mantissa is too small to reach the steps of this one
  rcases Nat.lt_or_ge y.scale s with hlt | hge
  · refine .inr ⟨by omega, ?_⟩
    have hm : y.mantissa < 2 ^ 53 := h.mantissa_lt
    have hunits : y.mantissa * 2 ^ y.scale < 2 ^ 52 * 2 ^ s :=
      calc y.mantissa * 2 ^ y.scale
          < 2 ^ 53 * 2 ^ y.scale := Nat.mul_lt_mul_of_pos_right hm (Nat.two_pow_pos _)
        _ = 2 ^ 52 * 2 ^ (y.scale + 1) := by rw [Nat.pow_succ]; omega
        _ ≤ 2 ^ 52 * 2 ^ s := Nat.mul_le_mul_left _ (Nat.pow_le_pow_right (by decide) hlt)
    calc y.mantissa * 2 ^ y.scale * den
        < 2 ^ 52 * 2 ^ s * den := Nat.mul_lt_mul_of_pos_right hunits hden
      _ = 2 ^ 52 * (den * 2 ^ s) := by rw [Nat.mul_assoc, Nat.mul_comm den]
  · have hunits : y.mantissa * 2 ^ y.scale = y.mantissa * 2 ^ (y.scale - s) * 2 ^ s := by
      rw [Nat.mul_assoc, ← Nat.pow_add, Nat.sub_add_cancel hge]
    refine .inl ⟨y.mantissa * 2 ^ (y.scale - s), ?_, hunits⟩
    rw [hunits, Nat.mul_assoc, Nat.mul_comm den]

/-- A magnitude that needs a lower scale is further away than the nearest one. -/
private theorem apart_lt_of_lower (hden : 0 < den) {y : Magnitude}
    (hs : (nearest num den).scale ≠ 0) (hy : y.units * den < 2 ^ 52 * step num den) :
    apart ((nearest num den).mantissa * step num den) (num * 2 ^ 1074) <
      apart (y.units * den) (num * 2 ^ 1074) := by
  have hle := mul_step_le hden hs
  have hnear := apart_roundHalfEven_le (num * 2 ^ 1074) (step num den) (2 ^ 52)
  rw [← nearest_mantissa_eq] at hnear
  unfold apart at hnear ⊢
  omega

/-- A mantissa that was rounded up to a power of two is written at the next scale. -/
def carried (x : Magnitude) : Magnitude :=
  if x.mantissa = 0x20000000000000 then ⟨0x10000000000000, x.scale + 1⟩ else x

/-- Carrying keeps the bits. -/
private theorem carried_bits (x : Magnitude) : x.carried.bits = x.bits := by
  unfold carried
  split
  · simp only [bits]
    omega
  · rfl

/-- Carrying keeps the value. -/
private theorem carried_units (x : Magnitude) : x.carried.units = x.units := by
  unfold carried
  split
  · rename_i h
    simp only [units, h]
    rw [Nat.pow_succ]
    omega
  · rfl

/-- Carrying only makes a mantissa even. -/
private theorem carried_even {x : Magnitude} (h : x.mantissa % 2 = 0) :
    x.carried.mantissa % 2 = 0 := by
  unfold carried
  split
  · show 0x10000000000000 % 2 = 0
    decide
  · exact h

/-- Carrying keeps a mantissa full. -/
private theorem carried_full {x : Magnitude}
    (h : x.scale ≠ 0 → 2 ^ 52 ≤ x.mantissa) (hs : x.carried.scale ≠ 0) :
    2 ^ 52 ≤ x.carried.mantissa := by
  unfold carried at hs ⊢
  split at hs
  · rw [if_pos ‹_›]
    exact Nat.le_refl _
  · rw [if_neg ‹_›]
    exact h hs

/-- The nearest magnitude is one of a finite double, if its scale is. -/
private theorem nearest_wellFormed (hden : 0 < den)
    (hs : (nearest num den).carried.scale < 2046) : (nearest num den).carried.WellFormed := by
  obtain ⟨hle, hfull⟩ := @nearest_mantissa num den hden
  refine ⟨?_, carried_full hfull, hs⟩
  unfold carried
  split
  · show 0x10000000000000 < 0x20000000000000
    decide
  · omega

/-- The rounded mantissa at its scale is nearest to the quotient, unless the scale is too large
    for a double. -/
theorem nearest_isNearest (hden : 0 < den) (hs : (nearest num den).carried.scale < 2046) :
    (nearest num den).carried.IsNearest num den := by
  have hunits : (nearest num den).carried.units * den =
      (nearest num den).mantissa * step num den := by
    rw [carried_units, units, step, Nat.mul_assoc, Nat.mul_comm den]
  refine ⟨nearest_wellFormed hden hs, fun y hy => ?_, fun y hy hne htie => ?_⟩
  · rw [hunits]
    -- on the grid rounding is nearest; off the grid everything is further down
    rcases units_grid hy hden with ⟨c, hc, _⟩ | ⟨h₀, hlt⟩
    · rw [hc, nearest_mantissa_eq]
      exact apart_roundHalfEven_le _ _ c
    · exact Nat.le_of_lt (apart_lt_of_lower hden h₀ hlt)
  · rw [hunits] at htie
    rcases units_grid hy hden with ⟨c, hc, hc'⟩ | ⟨h₀, hlt⟩
    -- another magnitude on the grid is another number of steps
    · have hcm : c ≠ (nearest num den).mantissa := by
        rintro rfl
        exact hne (hc'.trans (carried_units _).symm)
      rw [hc] at htie
      rw [nearest_mantissa_eq] at hcm htie
      refine carried_even ?_
      rw [nearest_mantissa_eq]
      exact roundHalfEven_even (step_pos hden) hcm htie
    · exact absurd htie (Nat.ne_of_gt (apart_lt_of_lower hden h₀ hlt))

/-- The mantissa is rounded up to `2 ^ 53` from half a step below that many steps on. -/
private theorem nearest_mantissa_eq_iff (hden : 0 < den) :
    (nearest num den).mantissa = 2 ^ 53 ↔ (2 ^ 54 - 1) * step num den ≤ 2 * (num * 2 ^ 1074) := by
  have hpos := @step_pos num den hden
  have hlt := @lt_mul_step num den hden
  rw [nearest_mantissa_eq]
  generalize num * 2 ^ 1074 = units at *
  generalize step num den = step at *
  have hdiv : units / step * step + units % step = units := Nat.div_add_mod' units step
  have hmod : units % step < step := Nat.mod_lt units hpos
  have hquot : units / step < 2 ^ 53 := (Nat.div_lt_iff_lt_mul hpos).mpr hlt
  rcases Nat.lt_or_eq_of_le (Nat.le_sub_one_of_lt hquot) with hq | hq
  · -- the quotient is a whole step smaller
    have hle : units / step * step ≤ (2 ^ 53 - 2) * step :=
      Nat.mul_le_mul_right step (by omega)
    rcases roundHalfEven_cases units step with ⟨h, _⟩ | ⟨h, _⟩ <;> rw [h] <;> omega
  · rw [hq] at hdiv
    rcases roundHalfEven_cases units step with ⟨h, h₁, h₂⟩ | ⟨h, h₁, _⟩ <;>
      rw [h, hq] <;> omega

/-- The scale, after carrying, is at least two above another one if and only if the units are at
    least half a step above the largest number of this scale's successor. -/
private theorem scale_carried_iff {m s k units : Nat}
    (hup : m = 2 ^ 53 ↔ (2 ^ 54 - 1) * (den * 2 ^ s) ≤ 2 * units)
    (hlt : units < 2 ^ 53 * (den * 2 ^ s)) (hle : s ≠ 0 → 2 ^ 52 * (den * 2 ^ s) ≤ units) :
    k + 2 ≤ (if m = 2 ^ 53 then s + 1 else s) ↔ (2 ^ 54 - 1) * (den * 2 ^ k) ≤ units := by
  have hmono : ∀ i j, i ≤ j → den * 2 ^ i ≤ den * 2 ^ j := fun _ _ h =>
    Nat.mul_le_mul_left den (Nat.pow_le_pow_right Nat.two_pos h)
  rcases Nat.lt_trichotomy s (k + 1) with hs | rfl | hs
  · -- even the full mantissa is below the bound
    have hpow := hmono s k (by omega)
    have hif : (if m = 2 ^ 53 then s + 1 else s) ≤ k + 1 := by split <;> omega
    omega
  · have hpow : den * 2 ^ (k + 1) = den * 2 ^ k * 2 := by rw [Nat.pow_succ, Nat.mul_assoc]
    rw [hpow] at hup
    split <;> omega
  · have hpow := hmono (k + 2) s (by omega)
    rw [Nat.pow_add, ← Nat.mul_assoc] at hpow
    have hge := hle (by omega)
    have hif : k + 2 ≤ (if m = 2 ^ 53 then s + 1 else s) := by split <;> omega
    omega

/-- The scale of the nearest magnitude is too large for a double from half a step above the
    largest one on. -/
theorem nearest_overflow (hden : 0 < den) :
    2046 ≤ (nearest num den).carried.scale ↔ overflow * den ≤ num * 2 ^ 1074 := by
  have hover : overflow * den = (2 ^ 54 - 1) * (den * 2 ^ 2044) := by
    unfold overflow
    generalize 2 ^ 2044 = half
    rw [Nat.mul_assoc, Nat.mul_comm den]
  -- only a mantissa rounded up to `2 ^ 53` carries into the scale
  have hcarried : (nearest num den).carried.scale =
      if (nearest num den).mantissa = 2 ^ 53 then (nearest num den).scale + 1
      else (nearest num den).scale := by
    have hfull : 2 ^ 53 = 0x20000000000000 := by decide
    rw [hfull, carried]
    split <;> rfl
  rw [hover, hcarried]
  exact scale_carried_iff (nearest_mantissa_eq_iff hden) (lt_mul_step hden) (mul_step_le hden)

end Magnitude

/-! ## The bits of a double -/

section Bits

open Float.Model Float.Model.UnpackedFloat

/-- The components of a number stand one behind the other in its bits. -/
private theorem packComponents_toNat (s : Sign) (e : BitVec 11) (m : BitVec 52) :
    (packComponents Format.binary64 s e m).toNat =
      (s.toBitVec.toNat * 2 ^ 11 + e.toNat) * 2 ^ 52 + m.toNat := by
  unfold packComponents
  rw [BitVec.toNat_append, BitVec.toNat_append, ← Nat.shiftLeft_add_eq_or_of_lt e.isLt,
    ← Nat.shiftLeft_add_eq_or_of_lt m.isLt, Nat.shiftLeft_eq, Nat.shiftLeft_eq]

/-- The mantissa is the low bits. -/
private theorem unpackMantissa_toNat (b : BitVec 64) :
    (@unpackMantissa Format.binary64 b).toNat = b.toNat % 2 ^ 52 := by
  simp [unpackMantissa]

/-- The exponent is the bits above the mantissa. -/
private theorem unpackExponent_toNat (b : BitVec 64) :
    (@unpackExponent Format.binary64 b).toNat = b.toNat / 2 ^ 52 % 2 ^ 11 := by
  simp [unpackExponent, Nat.shiftRight_eq_div_pow]

/-- The sign is the highest bit. -/
private theorem unpackSign_toNat (b : BitVec 64) :
    (@unpackSign Format.binary64 b).toNat = b.toNat / 2 ^ 63 % 2 := by
  show (BitVec.cast _ (BitVec.extractLsb 63 63 b)).toNat = _
  simp [Nat.shiftRight_eq_div_pow]

/-- The format has 53 bits of precision. -/
private theorem mantissaBits_binary64 : Format.binary64.mantissaBits = 53 :=
  rfl

/-- A number without exponent is packed as its mantissa. -/
private theorem pack_subnormal (m : Nat) (x : Int) (hpos : 0 < m) (hm : m < 2 ^ 52)
    (hx : x = -1074) :
    (UnpackedFloat.pack Format.binary64 (.finite .positive m x hpos)).toNat = m := by
  have hlog : m.log2 < 52 := (Nat.log2_lt (by omega)).mpr hm
  subst hx
  unfold UnpackedFloat.pack
  dsimp only
  rw [if_neg (by decide), if_neg (by rw [mantissaBits_binary64]; omega),
    packComponents_toNat]
  simp [Sign.toBitVec]
  omega

/-- A number with an exponent is packed as the exponent and the mantissa without its leading
    one. -/
private theorem pack_normal (m e : Nat) (x : Int) (hpos : 0 < m) (hm : 2 ^ 52 ≤ m ∧ m < 2 ^ 53)
    (he : e < 2047) (hx : x = e - 1075) :
    (UnpackedFloat.pack Format.binary64 (.finite .positive m x hpos)).toNat =
      e * 2 ^ 52 + m % 2 ^ 52 := by
  have hlog : m.log2 = 52 := (Nat.log2_eq_iff (by omega)).mpr hm
  -- the library keeps the exponent of the lowest bit; the format has that of the leading one
  have hbias : (x + Format.binary64.exponentBias + (52 : Nat)).toNat = e := by
    have : (Format.binary64.exponentBias : Int) = 1023 := rfl
    omega
  unfold UnpackedFloat.pack
  dsimp only
  rw [hbias, if_neg (by simp; omega), if_pos (by rw [mantissaBits_binary64, hlog]),
    packComponents_toNat]
  simp [Sign.toBitVec]
  omega

/-- Unpacking and packing keeps a pattern of sign plus that is not one of "not a number". -/
private theorem pack_unpack (b : BitVec 64) (h : b.toNat ≤ 0x7ff0000000000000) :
    (UnpackedFloat.pack Format.binary64 (UnpackedFloat.unpack Format.binary64 b)).toNat =
      b.toNat := by
  have he := unpackExponent_toNat b
  have hm := unpackMantissa_toNat b
  have hmlt := (@unpackMantissa Format.binary64 b).isLt
  have hbias : (Format.binary64.exponentBias : Int) = 1023 := rfl
  have hsign : Sign.ofBitVec (@unpackSign Format.binary64 b) = .positive := by
    have : @unpackSign Format.binary64 b = 0#1 :=
      BitVec.eq_of_toNat_eq (by rw [unpackSign_toNat]; simp; omega)
    rw [this]
    rfl
  unfold UnpackedFloat.unpack
  dsimp only
  rw [hsign]
  by_cases hones : @unpackExponent Format.binary64 b = -1#11
  · -- infinity is the only pattern here with the highest exponent
    rw [if_pos hones]
    rw [hones] at he
    have hzero : @unpackMantissa Format.binary64 b = 0#52 :=
      BitVec.eq_of_toNat_eq (by rw [hm]; simp at he ⊢; omega)
    rw [if_pos hzero]
    unfold UnpackedFloat.pack packedInfinity
    rw [packComponents_toNat]
    simp [Sign.toBitVec] at he ⊢
    omega
  · rw [if_neg hones]
    have hne : (@unpackExponent Format.binary64 b).toNat ≠ 2047 :=
      fun h => hones (BitVec.eq_of_toNat_eq h)
    by_cases hexp : @unpackExponent Format.binary64 b = 0#11
    · rw [if_pos hexp]
      rw [hexp] at he
      by_cases hzero : @unpackMantissa Format.binary64 b = 0#52
      · rw [dif_pos hzero]
        rw [hzero] at hm
        unfold UnpackedFloat.pack packedZero
        rw [packComponents_toNat]
        simp [Sign.toBitVec] at he hm ⊢
        omega
      · rw [dif_neg hzero, pack_subnormal _ _ _ hmlt (by rw [hexp, hbias]; simp), hm]
        simp at he
        omega
    · rw [if_neg hexp]
      have hone : (1#1 ++ @unpackMantissa Format.binary64 b).toNat =
          2 ^ 52 + (@unpackMantissa Format.binary64 b).toNat := by
        rw [BitVec.toNat_append, ← Nat.shiftLeft_add_eq_or_of_lt hmlt]
        rfl
      rw [pack_normal _ (@unpackExponent Format.binary64 b).toNat _ _
        (by rw [hone]; omega) (by omega) (by rw [hbias]; omega), hone, hm, he]
      omega

end Bits

/-- A pattern of sign plus that stands for a number or infinity is kept. -/
theorem toBits_ofBits {bits : Nat} (h : bits ≤ 0x7ff0000000000000) :
    (Float.ofBits (UInt64.ofNat bits)).toBits.toNat = bits := by
  have hbits : (UInt64.ofNat bits).toBitVec.toNat = bits :=
    Nat.mod_eq_of_lt (by omega)
  exact (pack_unpack _ (by omega)).trans hbits

/-- The double with these bits is what they stand for. -/
theorem ofFloat_ofBits {bits : Nat} (h : bits ≤ 0x7ff0000000000000) :
    Double.ofFloat (Float.ofBits (UInt64.ofNat bits)) =
      if bits < 0x7ff0000000000000 then .finite false (.ofBits bits) else .infinite false := by
  have hneg : decide (0x8000000000000000 ≤ bits) = false := decide_eq_false (by omega)
  have hrest : bits % 0x8000000000000000 = bits := Nat.mod_eq_of_lt (by omega)
  unfold Double.ofFloat
  simp only [toBits_ofBits h, hneg, hrest]
  split
  · rfl
  · rw [if_pos (by omega)]

/-! ## Numerals -/

/-- A double is a quotient, correctly rounded: it is the nearest magnitude with the sign plus, or
    infinity if the quotient is too large for that. -/
inductive Rounds (num den : Nat) (x : Float) : Prop
  | infinite (h : Magnitude.overflow * den ≤ num * 2 ^ 1074)
      (hx : Double.ofFloat x = .infinite false) : Rounds num den x
  | finite {y : Magnitude} (h : num * 2 ^ 1074 < Magnitude.overflow * den)
      (hx : Double.ofFloat x = .finite false y) (hy : y.IsNearest num den) : Rounds num den x

/-- The double of the nearest magnitude is correctly rounded. -/
theorem Magnitude.toFloat_rounds {num den : Nat} (hden : 0 < den) :
    Rounds num den (nearest num den).toFloat := by
  have hover := @nearest_overflow num den hden
  have hofFloat := ofFloat_ofBits (Nat.min_le_right (nearest num den).bits 0x7ff0000000000000)
  rw [← carried_bits] at hofFloat
  -- capping the bits at those of infinity is what rounding asks for on either side
  rcases Nat.lt_or_ge (num * 2 ^ 1074) (overflow * den) with h | h
  · have hs : (nearest num den).carried.scale < 2046 := by omega
    have hwf := nearest_wellFormed hden hs
    have hbits := bits_lt hwf
    refine .finite h ?_ (nearest_isNearest hden hs)
    unfold toFloat
    rw [← carried_bits, hofFloat, if_pos (by omega), Nat.min_eq_left (by omega), ofBits_bits hwf]
  · refine .infinite h ?_
    have hbits : 0x7ff0000000000000 ≤ (nearest num den).carried.bits := by
      have hm := carried_full (@nearest_mantissa num den hden).2
      have hs := hover.mpr h
      unfold bits
      omega
    unfold toFloat
    rw [← carried_bits, hofFloat, if_neg (by omega)]

/-- The double of a numeral is the number that its digits stand for, correctly rounded. -/
theorem floatOfDigits_rounds (whole fraction : List Char) :
    Rounds (digitsValue (whole ++ fraction)) (10 ^ fraction.length)
      (floatOfDigits whole fraction) :=
  Magnitude.toFloat_rounds (Nat.pow_pos (by decide))

end Lox
