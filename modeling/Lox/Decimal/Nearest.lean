import Lox.Double

/-!
# Reading decimal numerals

A numeral stands for the double nearest to it; of two equally near ones, for the one whose
mantissa is even. Numbers too large for a double become infinite.
-/

namespace Lox

/-- The whole number nearest to a quotient, a half going to the even neighbour. -/
def roundHalfEven (num den : Nat) : Nat :=
  let below := num / den
  let twice := 2 * (num % den)
  if twice < den then below
  else if den < twice then below + 1
  else below + below % 2

namespace Magnitude

/-- The magnitude nearest to a quotient: the scale leaves 53 bits for the mantissa, or is zero.
    Rounding up may give `2 ^ 53`, whose bits are those of the next power of two. -/
def nearest (num den : Nat) : Magnitude :=
  let units := num <<< 1074
  let scale := (units / den).log2 - 52
  ⟨roundHalfEven units (den <<< scale), scale⟩

/-- The double with a magnitude and the sign plus; an infinity from `2 ^ 1024` on. -/
def toFloat (x : Magnitude) : Float :=
  Float.ofBits (UInt64.ofNat (min x.bits 0x7ff0000000000000))

end Magnitude

/-- The number that a sequence of digits stands for. -/
def digitsValue (digits : List Char) : Nat :=
  digits.foldl (fun n c => 10 * n + (c.toNat - '0'.toNat)) 0

/-- The double that the numeral with these digits before and after the point stands for. -/
def floatOfDigits (whole fraction : List Char) : Float :=
  (Magnitude.nearest (digitsValue (whole ++ fraction)) (Nat.pow 10 fraction.length)).toFloat

end Lox
