import MiniPascal.Number.Binary

/-!
The shortest decimal number that rounds to a given double.

The numbers that round to a double form an interval around it, whose ends belong to it when the
significand is even. `shortestDecimal` looks for the coarsest decimal grid that has a point in this
interval, which needs only the two neighbours of the double on each grid, and takes the nearer of
the points it finds; of two at the same distance, the upper one.
-/

set_option autoImplicit false
set_option relaxedAutoImplicit false

namespace MiniPascal

/-- The number `coefficient · 10 ^ exponent`. -/
structure Decimal where
  coefficient : Nat
  exponent : Int
  deriving DecidableEq, Repr

/-- The numbers that round to one double: `low / unit` to `high / unit` around `middle / unit`. -/
structure RoundingInterval where
  low : Nat
  middle : Nat
  high : Nat
  unit : Nat
  closed : Bool
  deriving DecidableEq, Repr

namespace RoundingInterval

/-- The interval of a positive double. Below the least significand of an exponent the grid is twice
as fine, except at the least exponent. -/
def ofBinary (number : Binary) : RoundingInterval :=
  let below :=
    if number.significand = Binary.leadingBit ∧ Binary.leastExponent < number.exponent then 1 else 2
  let shift := (number.exponent - 2).toNat
  { low := (4 * number.significand - below) <<< shift
    middle := (4 * number.significand) <<< shift
    high := (4 * number.significand + 2) <<< shift
    unit := 1 <<< (2 - number.exponent).toNat
    closed := number.significand % 2 == 0 }

/-- Whether `numerator / denominator` lies in the interval. -/
def contains (interval : RoundingInterval) (numerator denominator : Nat) : Bool :=
  let point := numerator * interval.unit
  let low := interval.low * denominator
  let high := interval.high * denominator
  if interval.closed then decide (low ≤ point ∧ point ≤ high)
  else decide (low < point ∧ point < high)

/-- The point of the grid `10 ^ exponent` in the interval that is nearest to its middle. -/
def onGrid (interval : RoundingInterval) (exponent : Int) : Option Decimal :=
  let up := Nat.pow 10 exponent.toNat
  let down := Nat.pow 10 (-exponent).toNat
  let lower := interval.middle * down / (interval.unit * up)
  let upper := lower + 1
  match interval.contains (lower * up) down, interval.contains (upper * up) down with
  | true, true =>
    if 2 * interval.middle * down < (lower + upper) * up * interval.unit then some ⟨lower, exponent⟩
    else some ⟨upper, exponent⟩
  | true, false => some ⟨lower, exponent⟩
  | false, true => some ⟨upper, exponent⟩
  | false, false => none

/-- The first point found on `steps` grids, each ten times finer than the one before. -/
def coarsest (interval : RoundingInterval) : Nat → Int → Decimal
  | 0, exponent => ⟨interval.middle / interval.unit, exponent⟩
  | steps + 1, exponent =>
    (interval.onGrid exponent).getD (interval.coarsest steps (exponent - 1))

end RoundingInterval

/-- The shortest decimal that rounds to a double. The grids run from `10 ^ 308`, which is just below
the largest double, to `10 ^ (-324)`, which is finer than the distance of any two. -/
def shortestDecimal (number : Binary) : Decimal :=
  if number.significand = 0 then ⟨0, 0⟩
  else (RoundingInterval.ofBinary number).coarsest 633 308

end MiniPascal
