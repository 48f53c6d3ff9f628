import MiniPascal.Number.Shortest
import MiniPascal.Proofs.Number.Rounding

/-!
# The shortest decimal rounds back

A `RoundingInterval` holds the quotients that its double attracts: `contains_ofBinary_iff`. On the
finest grid that is searched the upper neighbour of a double is always among them, because two
points of this grid are nearer than half the distance of any two doubles. So the search ends with a
point that it has found, and the double attracts it: `shortestDecimal_attracted`.
-/

set_option autoImplicit false
set_option relaxedAutoImplicit false

namespace MiniPascal

/-- The number itself. -/
def Decimal.value (decimal : Decimal) : ℚ := decimal.coefficient * 10 ^ decimal.exponent

/-- A power with the two parts of its exponent. -/
theorem zpow_mul_pow_toNat {base : ℚ} (hbase : base ≠ 0) (exponent : Int) :
    base ^ exponent * base ^ (-exponent).toNat = base ^ exponent.toNat := by
  rw [← zpow_natCast, ← zpow_natCast, ← zpow_add₀ hbase]
  congr 1
  omega

theorem ten_pow_ne_zero (n : Nat) : Nat.pow 10 n ≠ 0 := (Nat.pow_pos (by decide)).ne'

/-- The two parts of the exponent give a quotient of whole numbers. -/
theorem Decimal.value_eq_div (decimal : Decimal) : decimal.value =
    (decimal.coefficient * Nat.pow 10 decimal.exponent.toNat : Nat) /
      (Nat.pow 10 (-decimal.exponent).toNat : Nat) := by
  have hten : (10 : ℚ) ≠ 0 := by norm_num
  rw [eq_div_iff (Nat.cast_ne_zero.2 (ten_pow_ne_zero _)), value, Nat.pow_eq, Nat.pow_eq]
  push_cast
  rw [mul_assoc, zpow_mul_pow_toNat hten]

namespace RoundingInterval

variable {number : Binary} {numerator denominator : Nat}

/-- Shifts in both directions come to a quarter of the unit of the double. -/
theorem four_mul_shift (number : Binary) :
    4 * (2 : ℚ) ^ (number.exponent - 2).toNat =
      2 ^ number.exponent * (2 : ℚ) ^ (2 - number.exponent).toNat := by
  have hparts := zpow_mul_pow_toNat two_ne_zero (number.exponent - 2)
  rw [neg_sub, zpow_sub₀ two_ne_zero] at hparts
  rw [← hparts]
  norm_num
  ring

/-- A quotient and a bound in quarters of the unit, cleared of denominators. -/
theorem cleared (number : Binary) (bound numerator : Nat) (hdenominator : denominator ≠ 0) :
    ∃ scale : ℚ, 0 < scale ∧
      ((numerator * (ofBinary number).unit : Nat) : ℚ) =
        4 * (numerator / denominator : ℚ) * scale ∧
      ((bound <<< (number.exponent - 2).toNat * denominator : Nat) : ℚ) =
        bound * 2 ^ number.exponent * scale := by
  have hdivisor : (denominator : ℚ) ≠ 0 := Nat.cast_ne_zero.2 hdenominator
  have hshift := four_mul_shift number
  refine ⟨2 ^ (2 - number.exponent).toNat * denominator / 4, ?_, ?_, ?_⟩
  · have hpos : (0 : ℚ) < denominator := by exact_mod_cast Nat.pos_of_ne_zero hdenominator
    positivity
  · rw [ofBinary, Nat.one_shiftLeft]
    push_cast
    field_simp
  · rw [Nat.shiftLeft_eq]
    push_cast
    linear_combination (bound * denominator / 4 : ℚ) * hshift

theorem lt_bound_iff (number : Binary) (bound numerator : Nat) (hdenominator : denominator ≠ 0) :
    numerator * (ofBinary number).unit < bound <<< (number.exponent - 2).toNat * denominator ↔
      4 * (numerator / denominator : ℚ) < bound * 2 ^ number.exponent := by
  obtain ⟨scale, hscale, hnumerator, hbound⟩ := cleared number bound numerator hdenominator
  rw [← Nat.cast_lt (α := ℚ), hnumerator, hbound, mul_lt_mul_iff_left₀ hscale]

theorem bound_lt_iff (number : Binary) (bound numerator : Nat) (hdenominator : denominator ≠ 0) :
    bound <<< (number.exponent - 2).toNat * denominator < numerator * (ofBinary number).unit ↔
      (bound * 2 ^ number.exponent : ℚ) < 4 * (numerator / denominator) := by
  obtain ⟨scale, hscale, hnumerator, hbound⟩ := cleared number bound numerator hdenominator
  rw [← Nat.cast_lt (α := ℚ), hnumerator, hbound, mul_lt_mul_iff_left₀ hscale]

theorem contains_iff {interval : RoundingInterval} :
    interval.contains numerator denominator = true ↔
      interval.low * denominator ≤ numerator * interval.unit ∧
        numerator * interval.unit ≤ interval.high * denominator ∧
        (interval.closed = false → interval.low * denominator < numerator * interval.unit ∧
          numerator * interval.unit < interval.high * denominator) := by
  rw [contains]
  cases interval.closed with
  | true => simp
  | false =>
    simp only [Bool.false_eq_true, if_false, decide_eq_true_iff, true_imp_iff]
    exact ⟨fun hinside ↦ ⟨hinside.1.le, hinside.2.le, hinside⟩, fun hinside ↦ hinside.2.2⟩

/-- The interval of a double holds the quotients that the double attracts. -/
theorem contains_ofBinary_iff (hpositive : number.significand ≠ 0)
    (hdenominator : denominator ≠ 0) :
    (ofBinary number).contains numerator denominator = true ↔
      number.Attracts (numerator / denominator) := by
  have hbelow : number.below ≤ 4 * number.significand := by
    have htwo : number.below ≤ 2 := by exact_mod_cast number.below_le
    omega
  have hlow : (ofBinary number).low =
      (4 * number.significand - number.below) <<< (number.exponent - 2).toNat := rfl
  have hhigh : (ofBinary number).high =
      (4 * number.significand + 2) <<< (number.exponent - 2).toNat := rfl
  have hclosed : (ofBinary number).closed = false ↔ number.significand % 2 = 1 := by
    rw [ofBinary, beq_eq_false_iff_ne]
    exact Nat.mod_two_ne_zero
  rw [contains_iff, hclosed, hlow, hhigh, ← not_lt, ← not_lt, lt_bound_iff number _ _ hdenominator,
    bound_lt_iff number _ _ hdenominator, lt_bound_iff number _ _ hdenominator,
    bound_lt_iff number _ _ hdenominator, not_lt, not_lt, Nat.cast_sub hbelow]
  push_cast
  exact ⟨fun ⟨hlow, hhigh, hinside⟩ ↦ ⟨hlow, hhigh, hinside⟩,
    fun ⟨hlow, hhigh, hinside⟩ ↦ ⟨hlow, hhigh, hinside⟩⟩

/-! ### The search -/

theorem contains_of_onGrid {interval : RoundingInterval} {exponent : Int} {decimal : Decimal}
    (hfound : interval.onGrid exponent = some decimal) :
    decimal.exponent = exponent ∧
      interval.contains (decimal.coefficient * Nat.pow 10 exponent.toNat)
        (Nat.pow 10 (-exponent).toNat) = true := by
  unfold onGrid at hfound
  simp only at hfound
  split at hfound
  · next hlower hupper =>
    split at hfound
    · obtain rfl := Option.some.inj hfound
      exact ⟨rfl, hlower⟩
    · obtain rfl := Option.some.inj hfound
      exact ⟨rfl, hupper⟩
  · next hlower _ =>
    obtain rfl := Option.some.inj hfound
    exact ⟨rfl, hlower⟩
  · next _ hupper =>
    obtain rfl := Option.some.inj hfound
    exact ⟨rfl, hupper⟩
  · cases hfound

/-- If the upper neighbour is in the interval, there is a point on the grid. -/
theorem exists_onGrid_of_upper {interval : RoundingInterval} {exponent : Int}
    (hupper : interval.contains
      ((interval.middle * Nat.pow 10 (-exponent).toNat /
        (interval.unit * Nat.pow 10 exponent.toNat) + 1) * Nat.pow 10 exponent.toNat)
      (Nat.pow 10 (-exponent).toNat) = true) :
    ∃ decimal, interval.onGrid exponent = some decimal := by
  unfold onGrid
  simp only [hupper]
  split
  · split <;> exact ⟨_, rfl⟩
  · exact ⟨_, rfl⟩
  · exact ⟨_, rfl⟩
  · next hfails => cases hfails

/-- If one of the grids has a point, the search finds one. -/
theorem exists_onGrid_coarsest {interval : RoundingInterval} {steps finest : Nat} {exponent : Int}
    {decimal : Decimal} (hfinest : finest < steps)
    (hfound : interval.onGrid (exponent - finest) = some decimal) :
    ∃ grid, interval.onGrid grid = some (interval.coarsest steps exponent) := by
  induction steps generalizing finest exponent with
  | zero => exact absurd hfinest (Nat.not_lt_zero finest)
  | succ steps induct =>
    rw [coarsest]
    cases hhere : interval.onGrid exponent with
    | some here => exact ⟨exponent, hhere⟩
    | none =>
      cases finest with
      | zero =>
        rw [Nat.cast_zero, sub_zero, hhere] at hfound
        cases hfound
      | succ finest =>
        refine induct (Nat.lt_of_succ_lt_succ hfinest) ?_
        rw [← hfound]
        congr 1
        push_cast
        ring

end RoundingInterval

/-! ### The shortest decimal -/

/-- A point less than half a unit above a double is attracted by the double. -/
theorem Binary.attracts_of_near {number : Binary} {x : ℚ} (hlow : number.value < x)
    (hhigh : 2 * (x - number.value) < 2 ^ number.exponent) : number.Attracts x := by
  have hbelow : (0 : ℚ) ≤ number.below * 2 ^ number.exponent :=
    mul_nonneg (Nat.cast_nonneg _) number.unit_pos.le
  rw [value] at hlow hhigh
  have hlow' : (4 * number.significand - number.below) * 2 ^ number.exponent < 4 * x := by linarith
  have hhigh' : 4 * x < (4 * number.significand + 2) * 2 ^ number.exponent := by linarith
  exact ⟨hlow'.le, hhigh'.le, fun _ ↦ ⟨hlow', hhigh'⟩⟩

/-- The points of the finest grid are nearer than half a unit of any double. -/
theorem finest_lt_half {number : Binary} (hnormal : number.Normal) :
    2 * (1 / 10 ^ 324 : ℚ) < 2 ^ number.exponent := by
  have hpowers : 2 * 2 ^ 1074 < 10 ^ 324 := by decide +kernel
  have hcast : (2 * 2 ^ 1074 : ℚ) < 10 ^ 324 := by exact_mod_cast hpowers
  have hhalf := one_div_lt_one_div_of_lt (mul_pos two_pos (pow_pos two_pos _)) hcast
  have hleast : (2 : ℚ) ^ Binary.leastExponent = 1 / 2 ^ 1074 := by
    rw [Binary.leastExponent, zpow_neg, one_div]
    rfl
  have hunit := zpow_le_zpow_right₀ (one_le_two (α := ℚ)) hnormal.least
  rw [hleast] at hunit
  rw [← div_div, div_right_comm] at hhalf
  generalize (1 : ℚ) / 2 ^ 1074 = least at hhalf hunit
  generalize (1 : ℚ) / 10 ^ 324 = step at hhalf ⊢
  linarith

namespace RoundingInterval

variable {number : Binary}

theorem middle_eq (number : Binary) :
    ((ofBinary number).middle : ℚ) = number.value * (ofBinary number).unit := by
  have hshift := four_mul_shift number
  have hmiddle : (ofBinary number).middle =
      (4 * number.significand) <<< (number.exponent - 2).toNat := rfl
  rw [hmiddle, Nat.shiftLeft_eq, ofBinary, Nat.one_shiftLeft, Binary.value]
  push_cast
  linear_combination (number.significand : ℚ) * hshift

/-- The point of a grid at or below a double. -/
theorem lower_point (number : Binary) (places : Nat) :
    ((ofBinary number).middle * 10 ^ places / (ofBinary number).unit : Nat) ≤
        number.value * 10 ^ places ∧
      number.value * 10 ^ places <
        ((ofBinary number).middle * 10 ^ places / (ofBinary number).unit : Nat) + 1 := by
  have hunit : (0 : ℚ) < (ofBinary number).unit := by
    rw [ofBinary, Nat.one_shiftLeft]
    exact_mod_cast Nat.two_pow_pos _
  have hbelow := Nat.div_mul_le_self ((ofBinary number).middle * 10 ^ places)
    (ofBinary number).unit
  have habove := @Nat.lt_div_mul_add ((ofBinary number).middle * 10 ^ places) _
    (Nat.cast_pos.1 hunit)
  generalize (ofBinary number).middle * 10 ^ places / (ofBinary number).unit = lower
    at hbelow habove ⊢
  rw [← Nat.cast_le (α := ℚ)] at hbelow
  rw [← Nat.cast_lt (α := ℚ)] at habove
  push_cast at hbelow habove
  rw [middle_eq, mul_right_comm] at hbelow habove
  refine ⟨le_of_mul_le_mul_right hbelow hunit, lt_of_mul_lt_mul_right ?_ hunit.le⟩
  rwa [add_one_mul]

/-- A grid whose points are near enough has one in the interval. -/
theorem exists_onGrid_of_fine {places : Nat} (hpositive : number.significand ≠ 0)
    (hfine : 2 * (1 / 10 ^ places : ℚ) < 2 ^ number.exponent) :
    ∃ decimal, (ofBinary number).onGrid (-places) = some decimal := by
  have hten : (0 : ℚ) < 10 ^ places := pow_pos (by norm_num) _
  obtain ⟨hlower, hupper⟩ := lower_point number places
  refine exists_onGrid_of_upper ?_
  rw [neg_neg, Int.toNat_natCast, Int.toNat_neg_natCast, Nat.pow_eq, Nat.pow_eq, Nat.pow_zero,
    Nat.mul_one, Nat.mul_one, contains_ofBinary_iff hpositive (Nat.pow_pos (by decide)).ne']
  generalize (ofBinary number).middle * 10 ^ places / (ofBinary number).unit = lower at *
  push_cast
  refine Binary.attracts_of_near ?_ ?_
  · rwa [lt_div_iff₀ hten]
  · refine lt_of_le_of_lt (mul_le_mul_of_nonneg_left ?_ zero_le_two) hfine
    rw [sub_le_iff_le_add, div_le_iff₀ hten, add_mul, one_div_mul_cancel hten.ne']
    linarith

end RoundingInterval

/-- A double attracts its shortest decimal. -/
theorem shortestDecimal_attracted {number : Binary} (hnormal : number.Normal) :
    number.Attracts (shortestDecimal number).value := by
  rw [shortestDecimal]
  split
  · next hzero =>
    have hbelow : (0 : ℚ) ≤ number.below * 2 ^ number.exponent :=
      mul_nonneg (Nat.cast_nonneg _) number.unit_pos.le
    have hunit := number.unit_pos
    refine ⟨?_, ?_, fun hodd ↦ ?_⟩
    · simp only [Decimal.value, hzero, Nat.cast_zero]
      linarith
    · simp only [Decimal.value, hzero, Nat.cast_zero]
      linarith
    · rw [hzero] at hodd
      cases hodd
  · next hpositive =>
    obtain ⟨finest, hfinest⟩ :=
      RoundingInterval.exists_onGrid_of_fine hpositive (finest_lt_half hnormal)
    obtain ⟨grid, hgrid⟩ := @RoundingInterval.exists_onGrid_coarsest _ 633 632 308 _
      (Nat.lt_succ_self _) hfinest
    obtain ⟨hexponent, hcontains⟩ := RoundingInterval.contains_of_onGrid hgrid
    generalize (RoundingInterval.ofBinary number).coarsest 633 308 = decimal at *
    subst hexponent
    rw [decimal.value_eq_div]
    exact (RoundingInterval.contains_ofBinary_iff hpositive (ten_pow_ne_zero _)).1 hcontains

end MiniPascal
