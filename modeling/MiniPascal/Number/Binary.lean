/-!
The magnitude of a double as an exact number `significand · 2 ^ exponent`.

A double without its sign is a number of 63 bits: the upper 11 choose the exponent, the lower 52
the significand. `Binary.ofMagnitude` reads such a number, `Binary.magnitude` writes it,
and `magnitude_ofMagnitude` says that nothing is lost. Writing is one sum, because the implicit
leading bit of a significand carries into the exponent by itself.
-/

set_option autoImplicit false
set_option relaxedAutoImplicit false

namespace MiniPascal

/-- The number `significand · 2 ^ exponent`. -/
structure Binary where
  significand : Nat
  exponent : Int
  deriving DecidableEq, Repr

namespace Binary

/-- The exponent of the smallest doubles, below which the grid is not refined. -/
def leastExponent : Int := -1074

/-- The lowest bit of the exponent, and the leading bit of a full significand: 2 to the 52nd. -/
def leadingBit : Nat := 0x10000000000000

/-- The number whose double has the given magnitude bits. -/
def ofMagnitude (bits : Nat) : Binary :=
  if bits < leadingBit then ⟨bits, leastExponent⟩
  else ⟨leadingBit + bits % leadingBit, leastExponent + (bits / leadingBit - 1)⟩

/-- The magnitude bits of a number on the grid of doubles. A significand of twice the leading bit
stands for the least one of the next exponent. -/
def magnitude (number : Binary) : Nat :=
  (number.exponent - leastExponent).toNat * leadingBit + number.significand

theorem magnitude_ofMagnitude (bits : Nat) : (ofMagnitude bits).magnitude = bits := by
  unfold ofMagnitude magnitude
  split
  · simp
  · next hlarge =>
    simp only [leastExponent, leadingBit] at hlarge ⊢
    omega

end Binary

/-- The bit of a double that holds its sign: 2 to the 63rd. -/
def signBit : Nat := 0x8000000000000000

/-- The magnitude bits of a double, which leave out its sign. -/
def realMagnitude (value : Float) : Nat := value.toBits.toNat % signBit

/-- Whether the sign bit of a double is set. -/
def realIsNegative (value : Float) : Bool := decide (signBit ≤ value.toBits.toNat)

/-- The magnitude bits of infinity; those of each finite double are less, those of each NaN more. -/
def infiniteMagnitude : Nat := 0x7FF0000000000000

/-- The double with the given sign and magnitude bits. -/
def realOfMagnitude (negative : Bool) (magnitude : Nat) : Float :=
  Float.ofBits (UInt64.ofNat (if negative then signBit + magnitude else magnitude))

end MiniPascal
