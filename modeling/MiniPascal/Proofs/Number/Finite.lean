import MiniPascal.Number.Integer
import MiniPascal.Number.RealText
import Mathlib.Algebra.Order.Field.Rat
import Mathlib.Algebra.Order.Field.Basic
import Mathlib.Tactic.FieldSimp
import Mathlib.Tactic.Linarith
import Mathlib.Tactic.Positivity
import Mathlib.Tactic.Ring

/-!
# Which literals are in range

`readInteger_eq_none_iff` and `readReal_eq_none_iff` say which digits stand for a number that no
word and no finite double holds. For integers this is the largest word. A quotient rounds beyond the
finite doubles from `overflowBound` on, which is half way between the largest of them and the next
number on its grid: the half goes to the even neighbour, and that is the one out of range.

The proof follows the exponent that `gridExponent` chooses, which `gridExponent_spec` describes by
where the quotient lies.
-/

set_option autoImplicit false
set_option relaxedAutoImplicit false

namespace MiniPascal

theorem readInteger_eq_none_iff (digits : List Char) :
    readInteger digits = none ↔ 2 ^ 63 - 1 < Nat.ofDigitChars 10 digits 0 := by
  have hmin : Int64.minValue.toInt = -2 ^ 63 := by decide
  have hmax : Int64.maxValue.toInt = 2 ^ 63 - 1 := by decide
  rw [readInteger, fitInteger, hmin, hmax]
  split
  · next hfits =>
    simp only [reduceCtorEq, false_iff]
    omega
  · next hfails =>
    simp only [true_iff]
    omega

/-! ### Rounding -/

/-- A whole number is reached from half a unit below it if it is even. -/
theorem roundHalfEven_lt_iff {numerator denominator bound : Nat} (hpos : 0 < denominator)
    (heven : bound % 2 = 0) :
    roundHalfEven numerator denominator < bound ↔
      2 * numerator < (2 * bound - 1) * denominator := by
  have hsplit := Nat.div_add_mod numerator denominator
  have hrest := Nat.mod_lt numerator hpos
  rw [roundHalfEven]
  generalize numerator / denominator = quotient at hsplit ⊢
  generalize numerator % denominator = rest at hsplit hrest ⊢
  rcases Nat.lt_trichotomy (quotient + 1) bound with hless | hequal | hmore
  · have hscale : (2 * (quotient + 1)) * denominator ≤ (2 * bound - 1) * denominator :=
      Nat.mul_le_mul_right _ (by omega)
    have hbelow : 2 * numerator < (2 * (quotient + 1)) * denominator := by
      rw [← hsplit]
      linarith
    refine ⟨fun _ ↦ Nat.lt_of_lt_of_le hbelow hscale, fun _ ↦ ?_⟩
    split <;> omega
  · subst hequal
    have hodd : ¬ quotient % 2 = 0 := by omega
    have hfactor : (2 * (quotient + 1) - 1) * denominator = 2 * (denominator * quotient) +
        denominator := by
      rw [show 2 * (quotient + 1) - 1 = 2 * quotient + 1 by omega]
      ring
    rw [hfactor]
    split <;> omega
  · have hscale : (2 * bound - 1) * denominator ≤ (2 * quotient) * denominator :=
      Nat.mul_le_mul_right _ (by omega)
    have habove : (2 * quotient) * denominator ≤ 2 * numerator := by
      rw [← hsplit]
      linarith
    refine ⟨fun hround ↦ ?_, fun hnumerator ↦ ?_⟩
    · split at hround <;> omega
    · exact absurd (Nat.lt_of_le_of_lt (hscale.trans habove) hnumerator) (Nat.lt_irrefl _)

/-! ### The grid of a quotient -/

/-- Scaling a quotient down moves a bound by the same power of two. -/
theorem scaleDown_lt_iff (numerator denominator : Nat) (exponent : Int) (factor bound : Nat) :
    factor * (scaleDown numerator denominator exponent).1 <
        bound * (scaleDown numerator denominator exponent).2 ↔
      (factor * numerator : ℚ) < bound * 2 ^ exponent * denominator := by
  rw [← Nat.cast_lt (α := ℚ)]
  simp only [scaleDown, Nat.shiftLeft_eq, Nat.cast_mul, Nat.cast_pow, Nat.cast_ofNat]
  rcases Int.eq_nat_or_neg exponent with ⟨places, rfl | rfl⟩
  · simp only [Int.toNat_natCast, Int.toNat_neg_natCast, pow_zero, mul_one, zpow_natCast]
    rw [mul_assoc, mul_comm (denominator : ℚ)]
  · have hpos : (0 : ℚ) < 2 ^ places := by positivity
    simp only [Int.toNat_natCast, Int.toNat_neg_natCast, neg_neg, pow_zero, mul_one, zpow_neg,
      zpow_natCast]
    rw [← mul_assoc, ← lt_div_iff₀ hpos]
    field_simp

theorem scaleDown_pos (numerator : Nat) {denominator : Nat} (hdenominator : denominator ≠ 0)
    (exponent : Int) : 0 < (scaleDown numerator denominator exponent).2 := by
  simp only [scaleDown, Nat.shiftLeft_eq]
  exact Nat.mul_pos (Nat.pos_of_ne_zero hdenominator) (Nat.pow_pos Nat.two_pos)

/-- A grid at a larger exponent is coarser. -/
theorem unit_mono {less more : Int} (hle : less ≤ more) (denominator : Nat) :
    (2 : ℚ) ^ less * denominator ≤ 2 ^ more * denominator :=
  mul_le_mul_of_nonneg_right (zpow_le_zpow_right₀ one_le_two hle) (Nat.cast_nonneg _)

theorem two_mul_unit_le {less more : Int} (hless : less < more) (denominator : Nat) :
    2 * ((2 : ℚ) ^ less * denominator) ≤ 2 ^ more * denominator := by
  rw [← mul_assoc, mul_comm 2, ← zpow_add_one₀ two_ne_zero]
  exact unit_mono hless denominator

/-- Where a quotient lies that has its grid at an exponent. -/
structure OnGrid (numerator denominator : Nat) (exponent : Int) : Prop where
  least : Binary.leastExponent ≤ exponent
  below : (numerator : ℚ) < 2 ^ (53 + exponent) * denominator
  above : Binary.leastExponent < exponent → 2 ^ (52 + exponent) * (denominator : ℚ) ≤ numerator

/-- The logarithms of its terms give a quotient up to a factor of four. -/
theorem quotient_bounds {numerator denominator : Nat} (hnumerator : numerator ≠ 0)
    (hdenominator : denominator ≠ 0) :
    (2 : ℚ) ^ ((numerator.log2 : Int) - denominator.log2 - 1) * denominator ≤ numerator ∧
      (numerator : ℚ) < 2 ^ ((numerator.log2 : Int) - denominator.log2 + 1) * denominator := by
  have htwo : (2 : ℚ) ≠ 0 := two_ne_zero
  have hlow {n : Nat} (hn : n ≠ 0) : (2 : ℚ) ^ (n.log2 : Int) ≤ n := by
    rw [zpow_natCast]
    exact_mod_cast Nat.log2_self_le hn
  have hhigh (n : Nat) : (n : ℚ) ≤ 2 ^ ((n.log2 : Int) + 1) := by
    have hless := @Nat.lt_log2_self n
    exact_mod_cast Nat.le_of_lt hless
  have hstrict (n : Nat) : (n : ℚ) < 2 ^ ((n.log2 : Int) + 1) := by
    have hless := @Nat.lt_log2_self n
    exact_mod_cast hless
  constructor
  · calc (2 : ℚ) ^ ((numerator.log2 : Int) - denominator.log2 - 1) * denominator
        ≤ 2 ^ ((numerator.log2 : Int) - denominator.log2 - 1) *
            2 ^ ((denominator.log2 : Int) + 1) :=
          mul_le_mul_of_nonneg_left (hhigh denominator) (zpow_nonneg zero_le_two _)
      _ = 2 ^ (numerator.log2 : Int) := by
          rw [← zpow_add₀ htwo]
          congr 1
          ring
      _ ≤ numerator := hlow hnumerator
  · calc (numerator : ℚ) < 2 ^ ((numerator.log2 : Int) + 1) := hstrict numerator
      _ = 2 ^ ((numerator.log2 : Int) - denominator.log2 + 1) * 2 ^ (denominator.log2 : Int) := by
          rw [← zpow_add₀ htwo]
          congr 1
          ring
      _ ≤ 2 ^ ((numerator.log2 : Int) - denominator.log2 + 1) * denominator :=
          mul_le_mul_of_nonneg_left (hlow hdenominator) (zpow_nonneg zero_le_two _)

theorem gridExponent_spec {numerator denominator : Nat} (hnumerator : numerator ≠ 0)
    (hdenominator : denominator ≠ 0) :
    OnGrid numerator denominator (gridExponent numerator denominator) := by
  obtain ⟨hlow, hhigh⟩ := quotient_bounds hnumerator hdenominator
  rw [gridExponent]
  generalize hguess : max ((numerator.log2 : Int) - denominator.log2 - 53) Binary.leastExponent =
    guess
  have hshift : (2 * Binary.leadingBit : Nat) * (2 : ℚ) ^ guess = 2 ^ (53 + guess) := by
    rw [zpow_add₀ two_ne_zero, Binary.leadingBit]
    norm_num
  have htest := scaleDown_lt_iff numerator denominator guess 1 (2 * Binary.leadingBit)
  rw [Nat.one_mul, Nat.cast_one, one_mul, hshift] at htest
  split
  · next hfits =>
    refine ⟨?_, htest.1 hfits, fun habove ↦ le_trans (unit_mono ?_ _) hlow⟩ <;> omega
  · next hexceeds =>
    refine ⟨?_, lt_of_lt_of_le hhigh (unit_mono ?_ _), fun _ ↦ ?_⟩
    · omega
    · omega
    · rw [show (52 : Int) + (guess + 1) = 53 + guess by ring]
      exact not_lt.1 fun hless ↦ hexceeds (htest.2 hless)

/-! ### Where doubles end -/

/-- Half way between the largest finite double and the next number on its grid. -/
def overflowBound : Nat := 2 ^ 1024 - 2 ^ 970

theorem pow_970_lt : 2 ^ 970 < 2 ^ 1024 := by
  apply Nat.pow_lt_pow_right <;> decide

theorem overflowBound_pos : 0 < overflowBound := Nat.sub_pos_of_lt pow_970_lt

/-- On the uppermost grid the bound is half a unit below 2 to the 53rd. -/
theorem two_mul_overflowBound : (2 * overflowBound : ℚ) = (2 ^ 54 - 1) * 2 ^ (971 : Int) := by
  have hhigh : (2 : ℚ) ^ 1024 = 2 ^ 54 * 2 ^ 970 := pow_add 2 54 970
  have hlow : (2 : ℚ) ^ (971 : Int) = 2 ^ (970 : Int) * 2 := zpow_add_one₀ two_ne_zero 970
  rw [overflowBound, Nat.cast_sub pow_970_lt.le, Nat.cast_pow, Nat.cast_pow, Nat.cast_ofNat, hhigh,
    hlow, zpow_ofNat]
  generalize (2 : ℚ) ^ 970 = power
  ring

theorem lt_overflowBound_iff (numerator denominator : Nat) :
    numerator < overflowBound * denominator ↔
      (2 * numerator : ℚ) < (2 ^ 54 - 1) * (2 ^ (971 : Int) * denominator) := by
  rw [← mul_assoc, ← two_mul_overflowBound, mul_assoc, mul_lt_mul_iff_right₀ two_pos,
    ← Nat.cast_mul, Nat.cast_lt]

/-- When a quotient on its grid is rounded to less than an even number. -/
theorem rounded_lt_iff {numerator denominator bound : Nat} {exponent : Int}
    (hdenominator : denominator ≠ 0) (heven : bound % 2 = 0) :
    roundHalfEven (scaleDown numerator denominator exponent).1
        (scaleDown numerator denominator exponent).2 < bound ↔
      (2 * numerator : ℚ) < (2 * bound - 1 : Nat) * (2 ^ exponent * denominator) := by
  rw [roundHalfEven_lt_iff (scaleDown_pos numerator hdenominator exponent) heven, scaleDown_lt_iff,
    Nat.cast_ofNat, mul_assoc]

section OnGrid

variable {numerator denominator : Nat} {exponent : Int}

theorem OnGrid.below_units (hgrid : OnGrid numerator denominator exponent) :
    (numerator : ℚ) < 2 ^ 53 * (2 ^ exponent * denominator) := by
  have hbelow := hgrid.below
  rwa [zpow_add₀ two_ne_zero, mul_assoc] at hbelow

theorem OnGrid.above_units (hgrid : OnGrid numerator denominator exponent)
    (hleast : Binary.leastExponent < exponent) :
    2 ^ 52 * (2 ^ exponent * (denominator : ℚ)) ≤ numerator := by
  have habove := hgrid.above hleast
  rwa [zpow_add₀ two_ne_zero, mul_assoc] at habove

/-- The significand that is rounded to is hardly more than 2 to the 53rd. -/
theorem OnGrid.rounded_lt (hgrid : OnGrid numerator denominator exponent)
    (hdenominator : denominator ≠ 0) :
    roundHalfEven (scaleDown numerator denominator exponent).1
        (scaleDown numerator denominator exponent).2 < 2 ^ 53 + 2 := by
  rw [rounded_lt_iff hdenominator (by decide)]
  have hbelow := hgrid.below_units
  have hunit : (0 : ℚ) ≤ 2 ^ exponent * denominator :=
    mul_nonneg (zpow_nonneg zero_le_two _) (Nat.cast_nonneg _)
  generalize (2 : ℚ) ^ exponent * denominator = unit at *
  norm_num at hbelow ⊢
  linarith

/-- Above the least exponent it has a leading bit. -/
theorem OnGrid.le_rounded (hgrid : OnGrid numerator denominator exponent)
    (hdenominator : denominator ≠ 0) (hleast : Binary.leastExponent < exponent) :
    2 ^ 52 ≤ roundHalfEven (scaleDown numerator denominator exponent).1
      (scaleDown numerator denominator exponent).2 := by
  rw [← Nat.not_lt, rounded_lt_iff hdenominator (by decide)]
  have habove := hgrid.above_units hleast
  have hunit : (0 : ℚ) ≤ 2 ^ exponent * denominator :=
    mul_nonneg (zpow_nonneg zero_le_two _) (Nat.cast_nonneg _)
  generalize (2 : ℚ) ^ exponent * denominator = unit at *
  norm_num at habove ⊢
  linarith

end OnGrid

/-- The quotient is finite below exponent 971, infinite above it, and at 971 as its significand
is rounded. -/
theorem nearestMagnitude_lt_infinite_iff {numerator denominator : Nat}
    (hdenominator : denominator ≠ 0) :
    nearestMagnitude numerator denominator < infiniteMagnitude ↔
      numerator < overflowBound * denominator := by
  have hpos : 0 < denominator := Nat.pos_of_ne_zero hdenominator
  rcases eq_or_ne numerator 0 with rfl | hnumerator
  · rw [nearestMagnitude, if_pos rfl]
    exact iff_of_true (by decide) (Nat.mul_pos overflowBound_pos hpos)
  have hgrid := gridExponent_spec hnumerator hdenominator
  rw [nearestMagnitude, if_neg hnumerator, lt_overflowBound_iff]
  generalize gridExponent numerator denominator = exponent at hgrid ⊢
  have htop : (0 : ℚ) < 2 ^ (971 : Int) * denominator :=
    mul_pos (zpow_pos two_pos _) (Nat.cast_pos.2 hpos)
  rcases lt_trichotomy exponent 971 with hless | rfl | hmore
  · have hfew := hgrid.rounded_lt hdenominator
    have hbelow := hgrid.below_units
    have hlarger := two_mul_unit_le hless denominator
    refine iff_of_true ?_ ?_
    · simp only [Binary.magnitude, Binary.leastExponent, Binary.leadingBit, infiniteMagnitude]
      omega
    · generalize (2 : ℚ) ^ exponent * denominator = unit at *
      generalize (2 : ℚ) ^ (971 : Int) * denominator = top at *
      norm_num at hbelow ⊢
      linarith
  · have hround := @rounded_lt_iff numerator denominator (2 ^ 53) 971 hdenominator (by decide)
    norm_num at hround ⊢
    rw [← hround]
    simp only [Binary.magnitude, Binary.leastExponent, Binary.leadingBit, infiniteMagnitude]
    omega
  · have hleast : Binary.leastExponent < exponent := lt_trans (by decide) hmore
    have hmany := hgrid.le_rounded hdenominator hleast
    have habove := hgrid.above_units hleast
    have hlarger := two_mul_unit_le hmore denominator
    refine iff_of_false ?_ ?_
    · simp only [Binary.magnitude, Binary.leastExponent, Binary.leadingBit, infiniteMagnitude]
      omega
    · generalize (2 : ℚ) ^ exponent * denominator = unit at *
      generalize (2 : ℚ) ^ (971 : Int) * denominator = top at *
      norm_num at habove ⊢
      linarith

theorem readReal_eq_none_iff (whole fraction : List Char) :
    readReal whole fraction = none ↔
      overflowBound * 10 ^ fraction.length ≤ Nat.ofDigitChars 10 (whole ++ fraction) 0 := by
  have hpower : Nat.pow 10 fraction.length ≠ 0 := (Nat.pow_pos (by decide)).ne'
  rw [readReal, ← Nat.not_lt, ← Nat.pow_eq, ← nearestMagnitude_lt_infinite_iff hpower]
  split <;> simp_all

end MiniPascal
