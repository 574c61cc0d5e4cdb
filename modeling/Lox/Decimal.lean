/-!
# Decimal numbers and their layouts

A `Decimal` is `coefficient · 10 ^ exponent`. A `Layout` says how its digits are written: where
positional notation ends, whether a whole number gets a fraction, and how an exponent looks.
-/

namespace Lox

/-- The number `coefficient · 10 ^ exponent`. -/
structure Decimal where
  coefficient : Nat
  exponent : Int
  deriving DecidableEq, Repr

/-- How the digits of a decimal are laid out. -/
structure Layout where
  /-- Is a decimal whose leading digit stands for `10 ^ e` written without an exponent? -/
  positional : Int → Bool
  /-- Written after a whole number in positional notation. -/
  wholeSuffix : String
  /-- Written after a single digit in scientific notation. -/
  singleSuffix : String
  /-- The mark before an exponent that is not negative. -/
  raised : String
  /-- The mark before the absolute value of a negative exponent. -/
  lowered : String

namespace Decimal

/-- The digits of the coefficient, most significant first. -/
def digits (d : Decimal) : List Char :=
  Nat.toDigits 10 d.coefficient

/-- The power of ten that the leading digit stands for. -/
def leadingExponent (d : Decimal) : Int :=
  d.exponent + d.digits.length - 1

/-- Digits around a decimal point, padded with zeros on either side of it where they do not reach
    it. A whole number is followed by `wholeSuffix`. -/
def positional (wholeSuffix : String) (d : Decimal) : String :=
  match d.exponent with
  | .ofNat zeros => String.ofList (d.digits ++ List.replicate zeros '0') ++ wholeSuffix
  | .negSucc n =>
    let places := n + 1
    let padded := List.replicate (places + 1 - d.digits.length) '0' ++ d.digits
    let whole := padded.length - places
    String.ofList (padded.take whole ++ '.' :: padded.drop whole)

/-- One digit, the others after a point, and the power of ten that the first one stands for. -/
def scientific (layout : Layout) (d : Decimal) : String :=
  let significand :=
    match d.digits with
    | [] => layout.singleSuffix
    | [first] => first.toString ++ layout.singleSuffix
    | first :: rest => String.ofList (first :: '.' :: rest)
  match d.leadingExponent with
  | .ofNat n => significand ++ layout.raised ++ toString n
  | .negSucc n => significand ++ layout.lowered ++ toString (n + 1)

/-- Writes a decimal in the notation that the layout chooses for its leading exponent. -/
def text (layout : Layout) (d : Decimal) : String :=
  if layout.positional d.leadingExponent then d.positional layout.wholeSuffix
  else d.scientific layout

end Decimal

/-- Every number is written in positional notation, a whole one without a fraction. -/
def Layout.plain : Layout where
  positional _ := true
  wholeSuffix := ""
  singleSuffix := ""
  raised := "e"
  lowered := "e-"

end Lox
