/-!
# Doubles as exact numbers

`Float` is the type of Lox numbers. This module reads the 64 bits of a double as what they stand
for: not a number, an infinity, or a sign and a magnitude `mantissa · 2 ^ scale / 2 ^ 1074`.
The texts of numbers and the reading of numerals are computed on this form, in exact arithmetic.

A double has a sign bit, eleven exponent bits and 52 fraction bits, so its fraction is less than
`0x10000000000000`, and from `0x7ff0000000000000` on its bits stand for no finite number.

Main statements: `Magnitude.bits_lt` (the bits of a well-formed magnitude are those of a finite
double) and `Magnitude.ofBits_bits` (they determine it).
-/

namespace Lox

/-- The magnitude `mantissa · 2 ^ scale / 2 ^ 1074` of a finite double. -/
structure Magnitude where
  mantissa : Nat
  scale : Nat
  deriving DecidableEq, Repr

/-- What the bits of a double stand for. -/
inductive Double where
  | nan
  | infinite (negative : Bool)
  | finite (negative : Bool) (magnitude : Magnitude)
  deriving DecidableEq, Repr

namespace Magnitude

/-- The magnitude that the exponent and fraction bits of a finite double stand for. Without
    exponent the fraction is all there is; otherwise it follows a leading one. -/
def ofBits (bits : Nat) : Magnitude :=
  let exponent := bits / 0x10000000000000
  let fraction := bits % 0x10000000000000
  if exponent = 0 then ⟨fraction, 0⟩ else ⟨0x10000000000000 + fraction, exponent - 1⟩

/-- The exponent and fraction bits of a magnitude. -/
def bits (x : Magnitude) : Nat :=
  x.scale * 0x10000000000000 + x.mantissa

/-- A magnitude that some finite double has: the leading one is missing only at the lowest
    scale. -/
structure WellFormed (x : Magnitude) : Prop where
  mantissa_lt : x.mantissa < 0x20000000000000
  normalized : x.scale ≠ 0 → 0x10000000000000 ≤ x.mantissa
  scale_lt : x.scale < 2046

/-- A well-formed magnitude has the bits of a finite double. -/
theorem bits_lt {x : Magnitude} (h : x.WellFormed) : x.bits < 0x7ff0000000000000 := by
  have h₁ := h.mantissa_lt
  have h₂ := h.scale_lt
  unfold bits
  omega

/-- The bits of a well-formed magnitude determine it. -/
theorem ofBits_bits {x : Magnitude} (h : x.WellFormed) : ofBits x.bits = x := by
  obtain ⟨m, s⟩ := x
  obtain ⟨h₁, h₂, -⟩ := h
  dsimp only at h₁ h₂
  have hb : bits ⟨m, s⟩ = s * 0x10000000000000 + m := rfl
  simp only [hb, ofBits]
  by_cases hs : s = 0
  · -- at the lowest scale the bits are the mantissa, with or without its leading one
    subst hs
    split <;> (rw [mk.injEq]; omega)
  · -- otherwise the leading one adds to the exponent bits
    have hm := h₂ hs
    rw [if_neg (by omega), mk.injEq]
    omega

/-- The whole number that a magnitude is, if it is one. -/
def whole? (x : Magnitude) : Option Nat :=
  let units := x.mantissa <<< x.scale
  if units % (1 <<< 1074) = 0 then some (units >>> 1074) else none

end Magnitude

namespace Double

/-- Reads the bits of a double. -/
def ofFloat (x : Float) : Double :=
  let bits := x.toBits.toNat
  let negative := decide (0x8000000000000000 ≤ bits)
  let rest := bits % 0x8000000000000000
  if rest < 0x7ff0000000000000 then .finite negative (.ofBits rest)
  else if rest = 0x7ff0000000000000 then .infinite negative
  else .nan

end Double

end Lox
