import MiniPascal.Proofs.Number.Exactness

/-!
# The numbers that round to a double

Every double attracts the numbers around it, up to half way to its neighbours (`Binary.Attracts`).
The ends of this interval belong to it if the significand is even. Below the least significand of
an exponent the neighbour is nearer, since the grid is finer there.

`nearestMagnitude_of_attracts`: what a double attracts is rounded to it. If the quotient has its
grid one exponent lower, it lies just below a full significand and is rounded up to it.
`isNearest_of_attracts` says that this is rounding indeed: no finite double is nearer, and the
significand is even if another one is as near.
-/

set_option autoImplicit false
set_option relaxedAutoImplicit false

namespace MiniPascal

namespace Binary

variable {number : Binary} {x : ℚ}

/-- How far the number attracts downward, in quarters of its unit. -/
def below (number : Binary) : Nat :=
  if number.significand = leadingBit ∧ leastExponent < number.exponent then 1 else 2

/-- The number `x` lies at most half way from the number to its neighbours, and not at half way if
the significand is odd. -/
structure Attracts (number : Binary) (x : ℚ) : Prop where
  low : (4 * number.significand - number.below) * 2 ^ number.exponent ≤ 4 * x
  high : 4 * x ≤ (4 * number.significand + 2) * 2 ^ number.exponent
  inside : number.significand % 2 = 1 →
    (4 * number.significand - number.below) * 2 ^ number.exponent < 4 * x ∧
      4 * x < (4 * number.significand + 2) * 2 ^ number.exponent

theorem below_le (number : Binary) : (number.below : ℚ) ≤ 2 := by
  unfold below
  split <;> norm_num

theorem unit_pos (number : Binary) : (0 : ℚ) < 2 ^ number.exponent := zpow_pos two_pos _

/-- Only zero attracts zero. -/
theorem Attracts.significand_eq_zero (hattracts : number.Attracts 0) : number.significand = 0 := by
  by_contra hpositive
  have hone : (1 : ℚ) ≤ number.significand := by exact_mod_cast Nat.one_le_iff_ne_zero.2 hpositive
  have hbelow := number.below_le
  have hproduct : 0 < (4 * number.significand - number.below : ℚ) * 2 ^ number.exponent :=
    mul_pos (by linarith) number.unit_pos
  linarith [hattracts.low]

end Binary

/-! ### Rounding on a grid -/

/-- A quotient at most half a unit away from a whole number is rounded to it, if it is not at half
way or the number is even. -/
theorem roundHalfEven_eq {numerator denominator n : Nat} (hpos : 0 < denominator)
    (hlow : 2 * (n * denominator) ≤ 2 * numerator + denominator)
    (hhigh : 2 * numerator ≤ 2 * (n * denominator) + denominator)
    (hinside : n % 2 = 1 → 2 * (n * denominator) < 2 * numerator + denominator ∧
      2 * numerator < 2 * (n * denominator) + denominator) :
    roundHalfEven numerator denominator = n := by
  have hsplit := Nat.div_add_mod' numerator denominator
  have hrest := Nat.mod_lt numerator hpos
  rw [roundHalfEven]
  generalize numerator / denominator = quotient at hsplit ⊢
  generalize numerator % denominator = rest at hsplit hrest ⊢
  rcases Nat.lt_trichotomy n quotient with hless | rfl | hmore
  · have hscale := Nat.mul_le_mul_right denominator (Nat.succ_le_of_lt hless)
    rw [Nat.succ_mul] at hscale
    omega
  · rw [if_pos]
    omega
  · have hscale := Nat.mul_le_mul_right denominator (Nat.succ_le_of_lt hmore)
    rw [Nat.succ_mul] at hscale
    obtain rfl | hfar := (Nat.succ_le_of_lt hmore).eq_or_lt
    · rw [if_neg]
      omega
    · have hscale' := Nat.mul_le_mul_right denominator (Nat.succ_le_of_lt hfar)
      rw [Nat.succ_mul, Nat.succ_mul] at hscale'
      omega

/-- The same for a quotient on the grid of an exponent. -/
theorem rounded_eq {numerator denominator n : Nat} {exponent : Int} {x : ℚ}
    (hdenominator : denominator ≠ 0) (hvalue : x * denominator = numerator)
    (hlow : (2 * n - 1) * 2 ^ exponent ≤ 2 * x) (hhigh : 2 * x ≤ (2 * n + 1) * 2 ^ exponent)
    (hinside : n % 2 = 1 → (2 * n - 1) * 2 ^ exponent < 2 * x ∧
      2 * x < (2 * n + 1) * 2 ^ exponent) :
    roundHalfEven (scaleDown numerator denominator exponent).1
      (scaleDown numerator denominator exponent).2 = n := by
  have hpos := scaleDown_pos numerator hdenominator exponent
  have hscaled := scaleDown_eq numerator denominator exponent
  generalize (scaleDown numerator denominator exponent).1 = scaled at hscaled ⊢
  generalize (scaleDown numerator denominator exponent).2 = divisor at hpos hscaled ⊢
  have hunit : (0 : ℚ) < 2 ^ exponent := zpow_pos two_pos _
  have hdivisor : (0 : ℚ) < divisor := by exact_mod_cast hpos
  have hquotient : (scaled : ℚ) * 2 ^ exponent = x * divisor := by
    refine mul_right_cancel₀ (Nat.cast_ne_zero.2 hdenominator) ?_
    rw [mul_assoc, hscaled, ← hvalue]
    ring
  -- Multiplied by the unit and the divisor, the bounds on the quotient are those on `scaled`.
  have hbelow {bound : ℚ} : bound * 2 ^ exponent < 2 * x ↔ bound * divisor < 2 * scaled := by
    rw [← mul_lt_mul_iff_left₀ hdivisor, mul_assoc 2 x, ← hquotient, ← mul_assoc,
      mul_right_comm, mul_lt_mul_iff_left₀ hunit]
  have habove {bound : ℚ} : 2 * x < bound * 2 ^ exponent ↔ 2 * scaled < bound * divisor := by
    rw [← mul_lt_mul_iff_left₀ hdivisor, mul_assoc 2 x, ← hquotient, ← mul_assoc,
      mul_right_comm bound, mul_lt_mul_iff_left₀ hunit]
  have hlow' := mt habove.2 hlow.not_gt
  have hhigh' := mt hbelow.2 hhigh.not_gt
  refine roundHalfEven_eq hpos ?_ ?_ fun hodd ↦ ?_
  · rw [← Nat.cast_le (α := ℚ)]
    push_cast
    linarith
  · rw [← Nat.cast_le (α := ℚ)]
    push_cast
    linarith
  · have hlow'' := hbelow.1 (hinside hodd).1
    have hhigh'' := habove.1 (hinside hodd).2
    rw [← Nat.cast_lt (α := ℚ), ← Nat.cast_lt (α := ℚ)]
    push_cast
    constructor <;> linarith

section Grid

variable {numerator denominator : Nat} {number : Binary} {exponent : Int} {x : ℚ}

/-- The grid of a quotient is not coarser than that of the double that attracts it. -/
theorem OnGrid.exponent_le (hgrid : OnGrid numerator denominator exponent)
    (hdenominator : denominator ≠ 0) (hnormal : number.Normal)
    (hvalue : x * denominator = numerator) (hattracts : number.Attracts x) :
    exponent ≤ number.exponent := by
  by_contra hcoarser
  have hmore := not_le.1 hcoarser
  have hdivisor : (0 : ℚ) < denominator := by exact_mod_cast Nat.pos_of_ne_zero hdenominator
  have habove := hgrid.above_units (lt_of_le_of_lt hnormal.least hmore)
  rw [← hvalue, ← mul_assoc] at habove
  have habove := le_of_mul_le_mul_right habove hdivisor
  have hlarger := two_mul_unit_le hmore 1
  rw [Nat.cast_one, mul_one, mul_one] at hlarger
  have hfull : (number.significand : ℚ) + 1 ≤ 2 ^ 53 := by exact_mod_cast hnormal.below
  have hhigh := hattracts.high
  have hunit := number.unit_pos
  have hscaled := mul_le_mul_of_nonneg_right hfull hunit.le
  linarith

/-- If it is finer, the double has the least significand of its exponent, and the quotient lies
less than half a unit below the next significand on the finer grid. -/
theorem OnGrid.finer (hgrid : OnGrid numerator denominator exponent)
    (hdenominator : denominator ≠ 0) (hnormal : number.Normal)
    (hvalue : x * denominator = numerator) (hattracts : number.Attracts x)
    (hfiner : exponent < number.exponent) :
    number.significand = Binary.leadingBit ∧ number.exponent = exponent + 1 ∧
      (2 * (2 ^ 53 : ℚ) - 1) * 2 ^ exponent ≤ 2 * x ∧ 2 * x < 2 * 2 ^ 53 * 2 ^ exponent := by
  have hdivisor : (0 : ℚ) < denominator := by exact_mod_cast Nat.pos_of_ne_zero hdenominator
  have hbelow := hgrid.below_units
  rw [← hvalue, ← mul_assoc] at hbelow
  have hbelow := lt_of_mul_lt_mul_right hbelow hdivisor.le
  have hlarger := two_mul_unit_le hfiner 1
  rw [Nat.cast_one, mul_one, mul_one] at hlarger
  have hleast := lt_of_le_of_lt hgrid.least hfiner
  have hlow := hattracts.low
  have hunit := number.unit_pos
  -- The quotient is less than the least significand of the double.
  have hleading : number.significand = Binary.leadingBit := by
    refine le_antisymm ?_ (hnormal.above hleast)
    have hfew : (4 * number.significand - number.below : ℚ) < 4 * 2 ^ 52 := by
      refine lt_of_mul_lt_mul_right ?_ hunit.le
      linarith
    have hless : (4 * number.significand : ℚ) < 4 * 2 ^ 52 + 4 := by linarith [number.below_le]
    have hnat : 4 * number.significand < 4 * 2 ^ 52 + 4 := by exact_mod_cast hless
    change number.significand ≤ 2 ^ 52
    omega
  rw [Binary.below, if_pos ⟨hleading, hleast⟩, hleading, Binary.leadingBit] at hlow
  push_cast at hlow
  have hnext : number.exponent = exponent + 1 := by
    by_contra hother
    have hfurther := two_mul_unit_le (show exponent + 1 < number.exponent by omega) 1
    rw [Nat.cast_one, mul_one, mul_one, zpow_add_one₀ two_ne_zero] at hfurther
    linarith
  rw [hnext, zpow_add_one₀ two_ne_zero] at hlow
  exact ⟨hleading, hnext, by linarith, by linarith⟩

/-- What a double attracts is rounded to it. -/
theorem nearestMagnitude_of_attracts (hdenominator : denominator ≠ 0) (hnormal : number.Normal)
    (hvalue : x * denominator = numerator) (hattracts : number.Attracts x) :
    nearestMagnitude numerator denominator = number.magnitude := by
  rcases eq_or_ne numerator 0 with rfl | hnumerator
  · rw [Nat.cast_zero, mul_eq_zero, Nat.cast_eq_zero] at hvalue
    obtain rfl := hvalue.resolve_right hdenominator
    have hzero := hattracts.significand_eq_zero
    refine nearestMagnitude_eq hdenominator hnormal ?_
    rw [Binary.value, hzero, Nat.cast_zero, zero_mul, zero_mul]
  have hgrid := gridExponent_spec hnumerator hdenominator
  rw [nearestMagnitude, if_neg hnumerator]
  generalize gridExponent numerator denominator = exponent at hgrid ⊢
  obtain rfl | hfiner := (hgrid.exponent_le hdenominator hnormal hvalue hattracts).eq_or_lt
  · have hbelow := number.below_le
    have hunit := number.unit_pos
    have hscaled := mul_le_mul_of_nonneg_right hbelow hunit.le
    have hround := @rounded_eq numerator denominator number.significand number.exponent x
      hdenominator hvalue (by linarith [hattracts.low]) (by linarith [hattracts.high])
      fun hodd ↦ by constructor <;> linarith [(hattracts.inside hodd).1, (hattracts.inside hodd).2]
    simp only [hround]
  · obtain ⟨hleading, hnext, hlow, hhigh⟩ :=
      hgrid.finer hdenominator hnormal hvalue hattracts hfiner
    have hunit : (0 : ℚ) < 2 ^ exponent := zpow_pos two_pos _
    have hround := @rounded_eq numerator denominator (2 ^ 53) exponent x hdenominator hvalue
      (by push_cast; exact hlow) (by push_cast; linarith) fun hodd ↦ absurd hodd (by decide)
    simp only [hround]
    have hleast := hgrid.least
    simp only [Binary.magnitude, hleading, hnext, Binary.leadingBit, Binary.leastExponent]
      at hleast ⊢
    omega

end Grid

/-! ### Neighbours -/

namespace Binary

/-- The next magnitude is one more in the significand, unless that is full. -/
theorem ofMagnitude_succ (bits : Nat) :
    ofMagnitude (bits + 1) = ⟨(ofMagnitude bits).significand + 1, (ofMagnitude bits).exponent⟩ ∨
      (ofMagnitude bits).significand + 1 = 2 * leadingBit ∧
        ofMagnitude (bits + 1) = ⟨leadingBit, (ofMagnitude bits).exponent + 1⟩ := by
  obtain ⟨hleast, hbelow, habove⟩ := normal_ofMagnitude bits
  have hbits := magnitude_ofMagnitude bits
  generalize ofMagnitude bits = number at *
  subst hbits
  rcases (Nat.succ_le_of_lt hbelow).eq_or_lt with hfull | hroom
  · have hnormal : Normal ⟨leadingBit, number.exponent + 1⟩ :=
      ⟨Int.le_add_one hleast, show leadingBit < 2 * leadingBit by decide, fun _ ↦ le_rfl⟩
    refine .inr ⟨hfull, ?_⟩
    rw [← ofMagnitude_magnitude hnormal]
    refine congrArg ofMagnitude ?_
    simp only [magnitude, leadingBit, leastExponent] at hfull hleast ⊢
    omega
  · have hnormal : Normal ⟨number.significand + 1, number.exponent⟩ :=
      ⟨hleast, hroom, fun hmore ↦ Nat.le_succ_of_le (habove hmore)⟩
    refine .inl ?_
    rw [← ofMagnitude_magnitude hnormal]
    exact congrArg ofMagnitude (Nat.add_assoc ..)

/-- The next magnitude is one unit further. -/
theorem value_ofMagnitude_succ (bits : Nat) : (ofMagnitude (bits + 1)).value =
    (ofMagnitude bits).value + 2 ^ (ofMagnitude bits).exponent := by
  rcases ofMagnitude_succ bits with hnext | ⟨hfull, hnext⟩
  · rw [hnext, value, value]
    push_cast
    ring
  · have hfull : ((ofMagnitude bits).significand : ℚ) + 1 = 2 * leadingBit := by
      exact_mod_cast hfull
    rw [hnext, value, value, zpow_add_one₀ two_ne_zero]
    linear_combination -(2 : ℚ) ^ (ofMagnitude bits).exponent * hfull

theorem value_strictMono : StrictMono fun bits ↦ (ofMagnitude bits).value :=
  strictMono_nat_of_lt_succ fun bits ↦ by
    rw [value_ofMagnitude_succ]
    exact lt_add_of_pos_right _ (ofMagnitude bits).unit_pos

/-- Downward a double attracts as far as half way to the one before. -/
theorem below_ofMagnitude_succ (bits : Nat) :
    (ofMagnitude (bits + 1)).below * (2 : ℚ) ^ (ofMagnitude (bits + 1)).exponent =
      2 * 2 ^ (ofMagnitude bits).exponent := by
  obtain ⟨hleast, -, habove⟩ := normal_ofMagnitude bits
  rcases ofMagnitude_succ bits with hnext | ⟨-, hnext⟩
  · have hlarge : ¬ ((ofMagnitude bits).significand + 1 = leadingBit ∧
        leastExponent < (ofMagnitude bits).exponent) :=
      fun ⟨hleading, hmore⟩ ↦ absurd (habove hmore) (by omega)
    rw [hnext, below, if_neg hlarge, Nat.cast_ofNat]
  · rw [hnext, below, if_pos ⟨rfl, Int.lt_add_one_of_le hleast⟩, Nat.cast_one, one_mul,
      zpow_add_one₀ two_ne_zero, mul_comm]

end Binary

/-! ### The nearest double -/

/-- The double is the result of rounding the number: it is in range, no finite double is nearer,
and if another one is as near, its significand is even. -/
structure IsNearest (x : ℚ) (r : Float) : Prop where
  range : |x| < overflowBound
  least : ∀ other, RealIsFinite other → |x - realValue r| ≤ |x - realValue other|
  even : ∀ other, RealIsFinite other → realValue other ≠ realValue r →
    |x - realValue other| = |x - realValue r| →
      (Binary.ofMagnitude (realMagnitude r)).significand % 2 = 0

section Nearest

open Binary

variable {bits other : Nat} {x : ℚ}

/-- Half way from an attracting double to a greater one lies above. -/
theorem Binary.Attracts.below_half (hattracts : (ofMagnitude bits).Attracts x)
    (hmore : bits < other) :
    2 * x ≤ (ofMagnitude bits).value + (ofMagnitude other).value ∧
      ((ofMagnitude bits).significand % 2 = 1 →
        2 * x < (ofMagnitude bits).value + (ofMagnitude other).value) := by
  have hnext := value_strictMono.monotone (Nat.succ_le_of_lt hmore)
  have hhigh := hattracts.high
  have hinside := hattracts.inside
  simp only [Nat.succ_eq_add_one, value_ofMagnitude_succ] at hnext
  rw [value] at hnext ⊢
  refine ⟨by linarith, fun hodd ↦ ?_⟩
  linarith [(hinside hodd).2]

/-- Half way to a smaller one lies below. -/
theorem Binary.Attracts.above_half (hattracts : (ofMagnitude bits).Attracts x)
    (hless : other < bits) :
    (ofMagnitude other).value + (ofMagnitude bits).value ≤ 2 * x ∧
      ((ofMagnitude bits).significand % 2 = 1 →
        (ofMagnitude other).value + (ofMagnitude bits).value < 2 * x) := by
  obtain ⟨previous, rfl⟩ := Nat.exists_eq_add_one_of_ne_zero (Nat.ne_zero_of_lt hless)
  have hprevious := value_strictMono.monotone (Nat.le_of_lt_succ hless)
  have hnext := value_ofMagnitude_succ previous
  have hlow := hattracts.low
  have hinside := hattracts.inside
  have hvalue : (ofMagnitude (previous + 1)).value = (ofMagnitude (previous + 1)).significand *
    2 ^ (ofMagnitude (previous + 1)).exponent := rfl
  simp only [sub_mul, below_ofMagnitude_succ, mul_assoc] at hprevious hlow hinside
  refine ⟨by linarith, fun hodd ↦ ?_⟩
  linarith [(hinside hodd).1]

/-- What a double attracts is no nearer to another one, and as near only if the significand is
even. -/
theorem Binary.Attracts.near (hattracts : (ofMagnitude bits).Attracts x) (other : Nat) :
    |x - (ofMagnitude bits).value| ≤ |x - (ofMagnitude other).value| ∧
      (other ≠ bits → |x - (ofMagnitude other).value| = |x - (ofMagnitude bits).value| →
        (ofMagnitude bits).significand % 2 = 0) := by
  rcases lt_trichotomy other bits with hless | rfl | hmore
  · have hvalues := value_strictMono hless
    obtain ⟨hhalf, hstrict⟩ := hattracts.above_half hless
    have hbehind : 0 ≤ x - (ofMagnitude other).value := by linarith
    rw [abs_of_nonneg hbehind]
    refine ⟨abs_le.2 ⟨by linarith, by linarith⟩, fun _ hequal ↦ ?_⟩
    refine Nat.mod_two_ne_one.1 fun hodd ↦ hequal.not_gt (abs_lt.2 ⟨?_, ?_⟩)
    · linarith [hstrict hodd]
    · linarith
  · exact ⟨le_rfl, fun hne ↦ absurd rfl hne⟩
  · have hvalues := value_strictMono hmore
    obtain ⟨hhalf, hstrict⟩ := hattracts.below_half hmore
    have hbefore : x - (ofMagnitude other).value ≤ 0 := by linarith
    rw [abs_of_nonpos hbefore]
    refine ⟨abs_le.2 ⟨by linarith, by linarith⟩, fun _ hequal ↦ ?_⟩
    refine Nat.mod_two_ne_one.1 fun hodd ↦ hequal.not_gt (abs_lt.2 ⟨?_, ?_⟩)
    · linarith
    · linarith [hstrict hodd]

/-- The same where the other one may have a sign. -/
theorem Binary.Attracts.near_signed (hattracts : (ofMagnitude bits).Attracts x) (hx : 0 ≤ x)
    {signed : ℚ} (hsigned : |signed| = (ofMagnitude other).value) :
    |x - (ofMagnitude bits).value| ≤ |x - signed| ∧
      (signed ≠ (ofMagnitude bits).value → |x - signed| = |x - (ofMagnitude bits).value| →
        (ofMagnitude bits).significand % 2 = 0) := by
  obtain ⟨hleast, heven⟩ := hattracts.near other
  have hfurther : |x - (ofMagnitude other).value| ≤ |x - signed| := by
    rw [← hsigned]
    simpa only [abs_of_nonneg hx] using abs_abs_sub_abs_le x signed
  refine ⟨hleast.trans hfurther, fun hne hequal ↦ ?_⟩
  by_cases hsame : other = bits
  -- Then it is the number itself with a minus sign, so only zero is as near.
  · subst hsame
    have hopposite : signed = -(ofMagnitude other).value := by
      rw [← hsigned]
      rcases abs_choice signed with habs | habs
      · exact absurd (habs ▸ hsigned) hne
      · rw [habs, neg_neg]
    have hnonneg : 0 ≤ (ofMagnitude other).value := hsigned ▸ abs_nonneg signed
    rw [hopposite, sub_neg_eq_add, abs_of_nonneg (add_nonneg hx hnonneg)] at hequal
    have hzero : x = 0 := by
      rcases abs_choice (x - (ofMagnitude other).value) with habs | habs
      · exact absurd (by linarith) hne
      · linarith
    subst hzero
    rw [hattracts.significand_eq_zero]
  · exact heven hsame (le_antisymm (hfurther.trans hequal.le) hleast)

/-- What a double attracts has it as the result of rounding, with the sign of the double. -/
theorem isNearest_of_attracts {r : Float} (hx : 0 ≤ x) (hrange : x < overflowBound)
    (hattracts : (ofMagnitude (realMagnitude r)).Attracts x) :
    IsNearest ((if realIsNegative r then -1 else 1) * x) r := by
  obtain ⟨sign, hsign, hone, hsquare⟩ : ∃ sign : ℚ,
      (if realIsNegative r then -1 else 1) = sign ∧ |sign| = 1 ∧ sign * sign = 1 := by
    refine ⟨_, rfl, ?_⟩
    split <;> simp
  have hvalue : realValue r = sign * (ofMagnitude (realMagnitude r)).value := by
    rw [realValue, hsign]
  have hdistance (signed : ℚ) : |sign * x - signed| = |x - sign * signed| := by
    have hfactor : sign * x - signed = sign * (x - sign * signed) := by
      linear_combination signed * hsquare
    rw [hfactor, abs_mul, hone, one_mul]
  have hown : sign * realValue r = (ofMagnitude (realMagnitude r)).value := by
    rw [hvalue, ← mul_assoc, hsquare, one_mul]
  have hnear (other : Float) := @Binary.Attracts.near_signed _ (realMagnitude other) _ hattracts hx
    (sign * realValue other) (by rw [abs_mul, hone, one_mul, abs_realValue])
  rw [hsign]
  refine ⟨?_, fun other _ ↦ ?_, fun other _ hne hequal ↦ ?_⟩
  · rwa [abs_mul, hone, one_mul, abs_of_nonneg hx]
  · rw [hdistance, hdistance, hown]
    exact (hnear other).1
  · rw [hdistance, hdistance, hown] at hequal
    refine (hnear other).2 (fun hsame ↦ hne ?_) hequal
    rw [hvalue, ← hsame, ← mul_assoc, hsquare, one_mul]

end Nearest

end MiniPascal
