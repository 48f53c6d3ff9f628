import MiniPascal.Number.Binary

/-!
Rounding a quotient of whole numbers to the nearest double, a half to the even neighbour.

`gridExponent` chooses the finest grid on which the quotient takes at most 53 bits, and
`roundHalfEven` rounds it there. `realOfInt` and `floorReal` go through the same rounding, which is
exact for the whole numbers they meet.
-/

set_option autoImplicit false
set_option relaxedAutoImplicit false

namespace MiniPascal

/-- The whole number nearest to `numerator / denominator`, a half going to the even one. -/
def roundHalfEven (numerator denominator : Nat) : Nat :=
  let quotient := numerator / denominator
  let twice := 2 * (numerator % denominator)
  if twice < denominator ∨ (twice = denominator ∧ quotient % 2 = 0) then quotient
  else quotient + 1

/-- Numerator and denominator of `(numerator / denominator) / 2 ^ exponent`. -/
def scaleDown (numerator denominator : Nat) (exponent : Int) : Nat × Nat :=
  (numerator <<< (-exponent).toNat, denominator <<< exponent.toNat)

/-- The least exponent of a double at which `numerator / denominator` has at most 53 bits before the
binary point. -/
def gridExponent (numerator denominator : Nat) : Int :=
  let guess := max ((numerator.log2 : Int) - denominator.log2 - 53) Binary.leastExponent
  let scaled := scaleDown numerator denominator guess
  if scaled.1 < 2 * Binary.leadingBit * scaled.2 then guess else guess + 1

/-- The magnitude bits of the double nearest to `numerator / denominator`; at least
`infiniteMagnitude` if that is beyond the finite ones. -/
def nearestMagnitude (numerator denominator : Nat) : Nat :=
  if numerator = 0 then 0
  else
    let exponent := gridExponent numerator denominator
    let scaled := scaleDown numerator denominator exponent
    Binary.magnitude ⟨roundHalfEven scaled.1 scaled.2, exponent⟩

/-- The double nearest to a whole number. -/
def realOfInt (n : Int) : Float :=
  realOfMagnitude (decide (n < 0)) (nearestMagnitude n.natAbs 1)

/-- The largest whole double not above `value`. It keeps the sign of a zero, and infinities and NaN
are their own floor. -/
def floorReal (value : Float) : Float :=
  let number := Binary.ofMagnitude (realMagnitude value)
  if 0 ≤ number.exponent then value
  else
    let unit := 1 <<< (-number.exponent).toNat
    let negative := realIsNegative value
    let whole := number.significand / unit
    let floored := if negative ∧ number.significand % unit ≠ 0 then whole + 1 else whole
    realOfMagnitude negative (nearestMagnitude floored 1)

end MiniPascal
