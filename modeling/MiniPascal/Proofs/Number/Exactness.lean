import MiniPascal.Proofs.Number.Finite
import Mathlib

/-!
# The numbers that doubles hold

A finite double stands for a signed number on a grid (`realValue`), and each number on the grid has
one double: `Binary.ofMagnitude_magnitude`. A quotient that lies on the grid is rounded to itself,
so of the whole numbers in range those are held that take at most 53 bits apart from a power of two:
`exists_real_iff`, and `realValue_realOfInt` for the double that holds one.

`beq_zero_iff` reads the comparison with a zero, which does not tell the two zeros apart.
-/

set_option autoImplicit false
set_option relaxedAutoImplicit false

namespace MiniPascal

/-! ### Numbers on the grid -/

namespace Binary

/-- A number on the grid of the doubles. It has its leading bit unless the grid ends there. -/
structure Normal (number : Binary) : Prop where
  least : leastExponent ≤ number.exponent
  below : number.significand < 2 * leadingBit
  above : leastExponent < number.exponent → leadingBit ≤ number.significand

theorem normal_ofMagnitude (bits : Nat) : (ofMagnitude bits).Normal := by
  unfold ofMagnitude
  split
  · next hsmall =>
    refine ⟨le_rfl, ?_, fun hless ↦ absurd hless (lt_irrefl _)⟩
    change bits < 2 * leadingBit
    omega
  · next hlarge =>
    simp only [leadingBit] at hlarge ⊢
    refine ⟨?_, ?_, fun _ ↦ ?_⟩ <;> simp only [leastExponent, leadingBit] <;> omega

theorem ofMagnitude_magnitude {number : Binary} (hnormal : number.Normal) :
    ofMagnitude number.magnitude = number := by
  obtain ⟨significand, exponent⟩ := number
  obtain ⟨hleast, hbelow, habove⟩ := hnormal
  simp only [leastExponent, leadingBit] at hleast hbelow habove
  by_cases hsmall : magnitude ⟨significand, exponent⟩ < leadingBit
  · rw [ofMagnitude, if_pos hsmall, mk.injEq]
    simp only [magnitude, leastExponent, leadingBit] at hsmall ⊢
    omega
  · rw [ofMagnitude, if_neg hsmall, mk.injEq]
    simp only [magnitude, leastExponent, leadingBit] at hsmall ⊢
    omega

/-- The number itself. -/
def value (number : Binary) : ℚ := number.significand * 2 ^ number.exponent

/-- A number of 53 bits is on the grid at any exponent, because it can be shifted to its leading
bit. -/
theorem exists_normal (significand steps : Nat) (hfew : significand < 2 * leadingBit) :
    ∃ number : Binary, number.Normal ∧
      number.value = significand * 2 ^ (leastExponent + steps) := by
  -- One step up the grid is one bit of the significand, until it has its leading bit.
  induction steps generalizing significand with
  | zero =>
    refine ⟨⟨significand, leastExponent⟩,
      ⟨le_rfl, hfew, fun hless ↦ absurd hless (lt_irrefl _)⟩, ?_⟩
    rw [Nat.cast_zero, add_zero, value]
  | succ steps induct =>
    by_cases hleading : leadingBit ≤ significand
    · exact ⟨⟨significand, leastExponent + (steps + 1 : Nat)⟩,
        ⟨Int.le_add_of_nonneg_right (Int.natCast_nonneg _), hfew, fun _ ↦ hleading⟩, rfl⟩
    · obtain ⟨number, hnormal, hvalue⟩ := induct (2 * significand) (by omega)
      refine ⟨number, hnormal, ?_⟩
      rw [hvalue, Nat.cast_succ, ← add_assoc, zpow_add_one₀ two_ne_zero]
      push_cast
      ring

end Binary

/-! ### Rounding a number on the grid -/

theorem roundHalfEven_mul {denominator : Nat} (hpos : 0 < denominator) (n : Nat) :
    roundHalfEven (n * denominator) denominator = n := by
  rw [roundHalfEven, Nat.mul_div_cancel _ hpos, Nat.mul_mod_left]
  exact if_pos (.inl hpos)

theorem scaleDown_eq (numerator denominator : Nat) (exponent : Int) :
    ((scaleDown numerator denominator exponent).1 : ℚ) * (2 ^ exponent * denominator) =
      numerator * (scaleDown numerator denominator exponent).2 := by
  simp only [scaleDown, Nat.shiftLeft_eq, Nat.cast_mul, Nat.cast_pow, Nat.cast_ofNat]
  rcases Int.eq_nat_or_neg exponent with ⟨places, rfl | rfl⟩
  · simp only [Int.toNat_natCast, Int.toNat_neg_natCast, pow_zero, mul_one, zpow_natCast]
    ring
  · simp only [Int.toNat_natCast, Int.toNat_neg_natCast, neg_neg, pow_zero, mul_one, zpow_neg,
      zpow_natCast]
    field_simp

section Grid

variable {numerator denominator : Nat} {number : Binary} {exponent : Int}

/-- A quotient that lies on the grid has its grid where the number has it. -/
theorem OnGrid.exponent_eq (hgrid : OnGrid numerator denominator exponent)
    (hdenominator : denominator ≠ 0) (hnormal : number.Normal)
    (hvalue : (numerator : ℚ) = number.value * denominator) : exponent = number.exponent := by
  have hpos : (0 : ℚ) < 2 ^ number.exponent * denominator :=
    mul_pos (zpow_pos two_pos _) (Nat.cast_pos.2 (Nat.pos_of_ne_zero hdenominator))
  rw [Binary.value, mul_assoc] at hvalue
  rcases lt_trichotomy exponent number.exponent with hless | hequal | hmore
  · have hbelow := hgrid.below_units
    have hlarger := two_mul_unit_le hless denominator
    have habove : (2 ^ 52 : ℚ) ≤ number.significand := by
      exact_mod_cast hnormal.above (lt_of_le_of_lt hgrid.least hless)
    have hunits := mul_le_mul_of_nonneg_right habove hpos.le
    linarith
  · exact hequal
  · have habove := hgrid.above_units (lt_of_le_of_lt hnormal.least hmore)
    have hlarger := two_mul_unit_le hmore denominator
    have hbelow : (number.significand : ℚ) < 2 ^ 53 := by exact_mod_cast hnormal.below
    have hunits := mul_lt_mul_of_pos_right hbelow hpos
    linarith

/-- A quotient that lies on the grid is rounded to itself. -/
theorem nearestMagnitude_eq (hdenominator : denominator ≠ 0) (hnormal : number.Normal)
    (hvalue : (numerator : ℚ) = number.value * denominator) :
    nearestMagnitude numerator denominator = number.magnitude := by
  have hpos : (0 : ℚ) < 2 ^ number.exponent * denominator :=
    mul_pos (zpow_pos two_pos _) (Nat.cast_pos.2 (Nat.pos_of_ne_zero hdenominator))
  rcases eq_or_ne numerator 0 with rfl | hnumerator
  -- Zero has no leading bit, so it is on the finest grid only.
  · have hzero : number.significand = 0 := by
      rw [Binary.value, mul_assoc, Nat.cast_zero, eq_comm, mul_eq_zero] at hvalue
      exact_mod_cast hvalue.resolve_right hpos.ne'
    have hleast : number.exponent = Binary.leastExponent := by
      by_contra hother
      have hleading := hnormal.above (lt_of_le_of_ne hnormal.least (Ne.symm hother))
      rw [hzero] at hleading
      exact absurd hleading (by decide)
    rw [nearestMagnitude, if_pos rfl, Binary.magnitude, hzero, hleast, Int.sub_self]
    rfl
  · have hgrid :=
      (gridExponent_spec hnumerator hdenominator).exponent_eq hdenominator hnormal hvalue
    have hscaled := scaleDown_eq numerator denominator number.exponent
    have hdivisor := scaleDown_pos numerator hdenominator number.exponent
    have hmultiple : (scaleDown numerator denominator number.exponent).1 =
        number.significand * (scaleDown numerator denominator number.exponent).2 := by
      rw [hvalue, Binary.value, mul_assoc (number.significand : ℚ),
        mul_right_comm (number.significand : ℚ), mul_left_inj' hpos.ne'] at hscaled
      exact_mod_cast hscaled
    rw [nearestMagnitude, if_neg hnumerator]
    simp only [hgrid]
    rw [hmultiple, roundHalfEven_mul hdivisor]

end Grid

/-! ### Doubles and their numbers -/

/-- The bits of a number are not those of a NaN. -/
theorem isNaNBits_eq_false {bits : UInt64} (hnumber : bits.toNat % signBit ≤ infiniteMagnitude) :
    @Float.Model.UnpackedFloat.isNaNBits .binary64 bits.toBitVec = false := by
  rw [Float.Model.UnpackedFloat.isNaNBits, decide_eq_false_iff_not,
    Float.Model.UnpackedFloat.unpackExponent_def, Float.Model.UnpackedFloat.unpackMantissa_def]
  rintro ⟨hexponent, hmantissa⟩
  have hones : bits.toNat >>> 52 % 2 ^ 11 = 2 ^ 11 - 1 := by
    simpa using congrArg BitVec.toNat hexponent
  have hrest : bits.toNat % 2 ^ 52 ≠ 0 := by
    simpa using mt BitVec.toNat_inj.1 hmantissa
  simp only [signBit, infiniteMagnitude] at hnumber
  omega

theorem toBits_ofBits {bits : UInt64} (hnumber : bits.toNat % signBit ≤ infiniteMagnitude) :
    (Float.ofBits bits).toBits = bits := by
  have hpack := @Float.Model.UnpackedFloat.pack_unpack .binary64 bits.toBitVec (by decide)
  rw [isNaNBits_eq_false hnumber] at hpack
  exact UInt64.toBitVec_inj.1 hpack

theorem toNat_toBits_realOfMagnitude {magnitude : Nat} (hnumber : magnitude ≤ infiniteMagnitude)
    (negative : Bool) : (realOfMagnitude negative magnitude).toBits.toNat =
      if negative then signBit + magnitude else magnitude := by
  simp only [infiniteMagnitude] at hnumber
  have hbits : (UInt64.ofNat (if negative then signBit + magnitude else magnitude)).toNat =
      if negative then signBit + magnitude else magnitude := by
    rw [UInt64.toNat_ofNat', signBit]
    split <;> omega
  rw [realOfMagnitude, toBits_ofBits, hbits]
  rw [hbits, infiniteMagnitude, signBit]
  split <;> omega

theorem realMagnitude_realOfMagnitude {magnitude : Nat} (hnumber : magnitude ≤ infiniteMagnitude)
    (negative : Bool) : realMagnitude (realOfMagnitude negative magnitude) = magnitude := by
  rw [realMagnitude, toNat_toBits_realOfMagnitude hnumber]
  simp only [infiniteMagnitude, signBit] at hnumber ⊢
  split <;> omega

theorem realIsNegative_realOfMagnitude {magnitude : Nat} (hnumber : magnitude ≤ infiniteMagnitude)
    (negative : Bool) : realIsNegative (realOfMagnitude negative magnitude) = negative := by
  rw [realIsNegative, toNat_toBits_realOfMagnitude hnumber]
  simp only [infiniteMagnitude, signBit] at hnumber ⊢
  cases negative <;> simp
  omega

def RealIsFinite (r : Float) : Prop := realMagnitude r < infiniteMagnitude

/-- The number that a finite double stands for. -/
def realValue (r : Float) : ℚ :=
  (if realIsNegative r then -1 else 1) * (Binary.ofMagnitude (realMagnitude r)).value

/-! ### Whole numbers -/

/-- A double of any exponent holds the number: it has at most 53 bits apart from a power of two. -/
def Representable (n : Int) : Prop := ∃ m e : Nat, m < 2 ^ 53 ∧ n.natAbs = m * 2 ^ e

theorem representable_of_natAbs_lt {n : Int} (hsmall : n.natAbs < 2 ^ 53) : Representable n :=
  ⟨n.natAbs, 0, hsmall, (mul_one _).symm⟩

theorem Representable.exists_number {n : Int} (hn : Representable n) :
    ∃ number : Binary, number.Normal ∧ number.value = n.natAbs := by
  obtain ⟨m, e, hm, hsame⟩ := hn
  obtain ⟨number, hnormal, hvalue⟩ := Binary.exists_normal m (e + 1074) hm
  refine ⟨number, hnormal, ?_⟩
  rw [hvalue, hsame, Binary.leastExponent]
  push_cast
  rw [add_comm (e : ℤ), neg_add_cancel_left, zpow_natCast]

theorem sign_mul_natAbs (n : Int) :
    (if decide (n < 0) then -1 else 1) * (n.natAbs : ℚ) = n := by
  rw [Nat.cast_natAbs]
  by_cases hnegative : n < 0
  · simp [hnegative, abs_of_neg]
  · simp [hnegative, abs_of_nonneg (not_lt.1 hnegative)]

/-- The double nearest to a whole number in range that some double holds is that double. -/
theorem realValue_realOfInt {n : Int} (hrange : n.natAbs < overflowBound) (hn : Representable n) :
    RealIsFinite (realOfInt n) ∧ realValue (realOfInt n) = n := by
  obtain ⟨number, hnormal, hvalue⟩ := hn.exists_number
  have hnearest : nearestMagnitude n.natAbs 1 = number.magnitude :=
    nearestMagnitude_eq one_ne_zero hnormal (by rw [hvalue, Nat.cast_one, mul_one])
  have hfinite : number.magnitude < infiniteMagnitude := by
    rwa [← hnearest, nearestMagnitude_lt_infinite_iff one_ne_zero, mul_one]
  rw [realOfInt, hnearest]
  constructor
  · rwa [RealIsFinite, realMagnitude_realOfMagnitude hfinite.le]
  · rw [realValue, realMagnitude_realOfMagnitude hfinite.le,
      realIsNegative_realOfMagnitude hfinite.le, Binary.ofMagnitude_magnitude hnormal, hvalue,
      sign_mul_natAbs]

theorem abs_realValue (r : Float) :
    |realValue r| = (Binary.ofMagnitude (realMagnitude r)).value := by
  have hnonneg : 0 ≤ (Binary.ofMagnitude (realMagnitude r)).value :=
    mul_nonneg (Nat.cast_nonneg _) (zpow_nonneg zero_le_two _)
  rw [realValue, abs_mul, abs_of_nonneg hnonneg]
  split <;> simp

/-- Where the grid is finer than the whole numbers, those on it are less than a significand. -/
theorem representable_of_realValue {r : Float} {n : Int} (hvalue : realValue r = n) :
    Representable n := by
  have hmagnitude := abs_realValue r
  have hbelow := (Binary.normal_ofMagnitude (realMagnitude r)).below
  generalize Binary.ofMagnitude (realMagnitude r) = number at hmagnitude hbelow
  rw [hvalue, ← Int.cast_abs, ← Nat.cast_natAbs, Binary.value] at hmagnitude
  rcases Int.eq_nat_or_neg number.exponent with ⟨places, hexponent | hexponent⟩
  · rw [hexponent, zpow_natCast] at hmagnitude
    exact ⟨number.significand, places, hbelow, by exact_mod_cast hmagnitude⟩
  · rw [hexponent, zpow_neg, zpow_natCast, ← div_eq_mul_inv,
      eq_div_iff (pow_ne_zero _ two_ne_zero)] at hmagnitude
    have hscaled : n.natAbs * 2 ^ places = number.significand := by exact_mod_cast hmagnitude
    have hle := Nat.le_mul_of_pos_right n.natAbs (Nat.two_pow_pos places)
    exact representable_of_natAbs_lt (lt_of_le_of_lt (hle.trans hscaled.le) hbelow)

theorem exists_real_iff {n : Int} (hrange : n.natAbs < overflowBound) :
    (∃ r, RealIsFinite r ∧ realValue r = n) ↔ Representable n :=
  ⟨fun ⟨_, _, hvalue⟩ ↦ representable_of_realValue hvalue,
    fun hn ↦ ⟨realOfInt n, realValue_realOfInt hrange hn⟩⟩

/-! ### Zeros -/

/-- Zeros of either sign are equal, and nothing else equals them. -/
theorem beq_zero_iff {r : Float} : r == 0.0 ↔ r = 0.0 ∨ r = -0.0 := by
  have hzero : (0.0 : Float) = 0 := by decide
  have hnumber : (0 : Float) ≠ Float.nan ∧ (-0 : Float) ≠ Float.nan := by decide
  have hsigns : (0 : Float) ≠ -0 := by decide
  rw [Float.beq_iff_ne_nan_and_eq, hzero]
  constructor
  · rintro ⟨-, -, hsame | ⟨-, hother⟩ | ⟨hsame, -⟩⟩
    · exact .inl hsame
    · exact absurd hother hsigns
    · exact .inr hsame
  · rintro (rfl | rfl)
    · exact ⟨hnumber.1, hnumber.1, .inl rfl⟩
    · exact ⟨hnumber.2, hnumber.1, .inr (.inr ⟨rfl, rfl⟩)⟩

end MiniPascal
