import Lox.Decimal
import Lox.Double

/-!
# The shortest decimal of a double

Of the decimals that round to a given double, the one with the fewest digits is found on the
coarsest grid of multiples of a power of ten that has a point among them. All quantities are
counted in units of `10 ^ -1076`, in which the value of every double and the bounds of the numbers
that round to it are whole.

Grids are nested, so a grid has a point in the interval when a coarser one has
(`Interval.Meets.finer`): the coarsest is found by looking one grid up.
-/

namespace Lox

/-- Which of two equally near candidates is taken. -/
inductive TieRule where
  | up
  | toEven
  deriving DecidableEq, Repr

/-- The numbers that round to one double, in units of `10 ^ -1076`. -/
structure Interval where
  low : Nat
  value : Nat
  high : Nat
  /-- Do the bounds themselves round to the double? -/
  closed : Bool
  deriving DecidableEq, Repr

namespace Interval

/-- The numbers that round to a magnitude reach half way to its neighbours. The lower neighbour of
    a power of two is half as far away as the upper one. -/
def ofMagnitude (x : Magnitude) : Interval :=
  let unit := Nat.pow 5 1076 <<< x.scale
  let below := if x.mantissa = 0x10000000000000 ∧ x.scale ≠ 0 then 1 else 2
  { low := (4 * x.mantissa - below) * unit
    value := 4 * x.mantissa * unit
    high := (4 * x.mantissa + 2) * unit
    closed := x.mantissa % 2 = 0 }

/-- Does the point lie in the interval? -/
def contains (i : Interval) (point : Nat) : Bool :=
  if i.closed then i.low ≤ point && point ≤ i.high
  else i.low < point && point < i.high

/-- Has the grid of the multiples of `spacing` a point in the interval? -/
def Meets (i : Interval) (spacing : Nat) : Prop :=
  ∃ c, i.contains (c * spacing) = true

/-- A finer grid has all the points of a coarser one. -/
theorem Meets.finer {i : Interval} {spacing factor : Nat} (h : i.Meets (spacing * factor)) :
    i.Meets spacing := by
  obtain ⟨c, hc⟩ := h
  exact ⟨c * factor, by rwa [Nat.mul_assoc, Nat.mul_comm factor]⟩

/-- The nearer of the two neighbours of the value on a grid, of those in the interval. -/
def pick? (tie : TieRule) (i : Interval) (spacing : Nat) : Option Nat :=
  let below := i.value / spacing
  let above := below + 1
  match i.contains (below * spacing), i.contains (above * spacing) with
  | false, false => none
  | true, false => some below
  | false, true => some above
  | true, true =>
    let toBelow := i.value - below * spacing
    let toAbove := above * spacing - i.value
    if toBelow < toAbove then some below
    else if toAbove < toBelow then some above
    else
      match tie with
      | .up => some above
      | .toEven => some (if below % 2 = 0 then below else above)

/-- Looks at ever coarser grids, as long as they have a point in the interval. -/
def climb (tie : TieRule) (i : Interval) : (fuel grid coefficient : Nat) → Nat × Nat
  | 0, grid, c => (grid, c)
  | fuel + 1, grid, c =>
    match i.pick? tie (Nat.pow 10 (grid + 1)) with
    | none => (grid, c)
    | some c' => i.climb tie fuel (grid + 1) c'

/-- Looks at ever finer grids, until one has a point in the interval. -/
def descend (tie : TieRule) (i : Interval) : (grid : Nat) → Nat × Nat
  -- on the grid of the units the value is itself a point
  | 0 => (0, i.value)
  | grid + 1 =>
    match i.pick? tie (Nat.pow 10 grid) with
    | none => i.descend tie grid
    | some c => (grid, c)

/-- The coarsest grid with a point in the interval, as a power of ten, and the point. The search
    starts near the value's own power of ten. -/
def coarsest (tie : TieRule) (i : Interval) : Nat × Nat :=
  -- `30103 / 100000` is the decimal logarithm of two
  let start := i.value.log2 * 30103 / 100000 + 1
  match i.pick? tie (Nat.pow 10 start) with
  -- grids wider than the upper bound have no point but zero
  | some c => i.climb tie i.high.log2 start c
  | none => i.descend tie start

end Interval

/-- The decimal with the fewest digits that rounds to a magnitude, and of those the nearest to
    it. -/
def Magnitude.shortest (tie : TieRule) (x : Magnitude) : Decimal :=
  if x.mantissa = 0 then ⟨0, 0⟩
  else
    let (grid, coefficient) := (Interval.ofMagnitude x).coarsest tie
    ⟨coefficient, (grid : Int) - 1076⟩

end Lox
