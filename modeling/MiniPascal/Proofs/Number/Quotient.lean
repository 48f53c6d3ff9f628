import MiniPascal.Number.Integer
import Mathlib.Data.Rat.Floor

/-!
# The floored quotient of two words

A machine divides toward zero. The quotient rounded toward negative infinity comes from that one and
the remainder: if there is a remainder and the signs differ, it is one less. `flooredQuotient?` does
this on words, and `flooredQuotient?_eq` says that it finds the floor of the rational quotient
whenever a word holds it, and refuses it otherwise.

Only the least word divided by minus one is refused. In every other case the remainder exists, and
where the quotient is diminished, it is far from the least word (`diminished_exact`).
-/

set_option autoImplicit false
set_option relaxedAutoImplicit false

namespace MiniPascal

/-! ### Words and their range -/

/-- A word holds the number. -/
def FitsWord (n : Int) : Prop := -2 ^ 63 ≤ n ∧ n < 2 ^ 63

instance (n : Int) : Decidable (FitsWord n) := inferInstanceAs (Decidable (_ ∧ _))

theorem fitsWord_toInt (word : Int64) : FitsWord word.toInt := ⟨word.le_toInt, word.toInt_lt⟩

theorem fitInteger_of_fits {n : Int} (hfits : FitsWord n) :
    ∃ word, fitInteger n = some word ∧ word.toInt = n := by
  have hbounds : Int64.minValue.toInt ≤ n ∧ n ≤ Int64.maxValue.toInt := by
    rw [Int64.toInt_minValue, Int64.toInt_maxValue]
    exact ⟨hfits.1, Int.le_sub_one_of_lt hfits.2⟩
  have hword : fitInteger n = some (Int64.ofInt n) := if_pos hbounds
  exact ⟨_, hword, toInt_fitInteger hword⟩

theorem fitInteger_eq_none_iff {n : Int} : fitInteger n = none ↔ ¬ FitsWord n := by
  constructor
  · intro hnone hfits
    obtain ⟨word, hword, -⟩ := fitInteger_of_fits hfits
    cases hnone.symm.trans hword
  · intro hnot
    refine Option.eq_none_iff_forall_ne_some.2 fun word hword ↦ hnot ?_
    rw [← toInt_fitInteger hword]
    exact fitsWord_toInt word

/-! ### The floor of a quotient -/

theorem floor_div_eq_fdiv (a b : Int) : ⌊(a : ℚ) / b⌋ = a.fdiv b := by
  obtain ⟨n, rfl | rfl⟩ := b.eq_nat_or_neg
  · rw [Int.cast_natCast, Rat.floor_intCast_div_natCast, Int.fdiv_eq_ediv_of_nonneg _ n.cast_nonneg]
  · have hquotient : (a : ℚ) / ((-(n : Int) : Int) : ℚ) = ((-a : Int) : ℚ) / (n : ℚ) := by
      push_cast
      rw [div_neg, neg_div]
    rw [hquotient, Rat.floor_intCast_div_natCast, ← Int.neg_fdiv_neg a, neg_neg,
      Int.fdiv_eq_ediv_of_nonneg _ n.cast_nonneg]

/-- Whether the quotient toward zero is greater than the floor: there is a remainder, and the signs
differ. -/
def Exceeds (a b : Int) : Prop := a.tmod b ≠ 0 ∧ decide (a < 0) ≠ decide (b < 0)

instance (a b : Int) : Decidable (Exceeds a b) := inferInstanceAs (Decidable (_ ∧ _))

theorem fdiv_eq_tdiv_sub {a b : Int} (hb : b ≠ 0) :
    a.fdiv b = a.tdiv b - if Exceeds a b then 1 else 0 := by
  rw [Int.fdiv_eq_tdiv]
  refine congrArg (a.tdiv b - ·) ?_
  by_cases hdvd : b ∣ a
  · have hexact : ¬ Exceeds a b := fun hexceeds ↦ hexceeds.1 (Int.tmod_eq_zero_of_dvd hdvd)
    rw [if_pos hdvd, if_neg hexact]
  have hrest : a.tmod b ≠ 0 := fun hzero ↦ hdvd (Int.dvd_of_tmod_eq_zero hzero)
  rw [if_neg hdvd]
  rcases lt_or_gt_of_ne hb with hnegative | hpositive
  · have hsign := Int.sign_eq_neg_one_of_neg hnegative
    by_cases ha : 0 ≤ a
    · simp [Exceeds, hrest, ha, not_le.2 hnegative, not_lt.2 ha, hnegative]
    · simp [Exceeds, ha, not_le.2 hnegative, not_le.1 ha, hnegative, hsign]
  · have hsign := Int.sign_eq_one_of_pos hpositive
    by_cases ha : 0 ≤ a
    · simp [Exceeds, ha, hpositive.le, not_lt.2 ha, not_lt.2 hpositive.le]
    · simp [Exceeds, hrest, ha, hpositive.le, not_le.1 ha, not_lt.2 hpositive.le, hsign]

theorem two_mul_natAbs_tdiv_le (a : Int) {b : Int} (hb : 2 ≤ b.natAbs) :
    2 * (a.tdiv b).natAbs ≤ a.natAbs := by
  have hsame : (a.tdiv b).natAbs = a.natAbs / b.natAbs := Int.natAbs_tdiv a b
  have hhalf : a.natAbs / b.natAbs ≤ a.natAbs / 2 := Nat.div_le_div_left hb (by decide)
  omega

/-- Only one quotient of words does not fit a word. -/
theorem fitsWord_tdiv_iff {a b : Int} (ha : FitsWord a) (hb : b ≠ 0) :
    FitsWord (a.tdiv b) ↔ ¬ (a = -2 ^ 63 ∧ b = -1) := by
  simp only [FitsWord] at ha ⊢
  constructor
  · rintro hfits ⟨rfl, rfl⟩
    exact absurd hfits.2 (by decide)
  · intro hother
    by_cases hfar : 2 ≤ b.natAbs
    · have hhalf := two_mul_natAbs_tdiv_le a hfar
      omega
    · obtain rfl | rfl : b = 1 ∨ b = -1 := by omega
      · rwa [Int.tdiv_one]
      · have hleast : a ≠ -2 ^ 63 := fun hleast ↦ hother ⟨hleast, rfl⟩
        rw [Int.tdiv_neg, Int.tdiv_one]
        omega

/-- A quotient with a remainder is at most half a word, so one less still fits. -/
theorem fitsWord_tdiv_sub_one {a b : Int} (ha : FitsWord a) (hb : b ≠ 0)
    (hexceeds : Exceeds a b) : FitsWord (a.tdiv b - 1) := by
  have hfar : 2 ≤ b.natAbs := by
    by_contra hnear
    obtain rfl | rfl : b = 1 ∨ b = -1 := by omega
    · exact hexceeds.1 (Int.tmod_one a)
    · exact hexceeds.1 (by rw [Int.tmod_neg, Int.tmod_one])
  have hhalf := two_mul_natAbs_tdiv_le a hfar
  simp only [FitsWord] at ha ⊢
  omega

/-! ### Words -/

/-- The quotient rounded toward zero, if there is one and a word holds it. -/
def truncatedQuotient? (a b : Int64) : Option Int64 :=
  if b = 0 then none else fitInteger (a.toInt.tdiv b.toInt)

/-- The quotient rounded toward negative infinity, from the one rounded toward zero. -/
def flooredQuotient? (a b : Int64) : Option Int64 :=
  (truncatedQuotient? a b).map fun quotient ↦
    if a % b ≠ 0 ∧ decide (a < 0) ≠ decide (b < 0) then quotient - 1 else quotient

section

variable {a b quotient : Int64}

theorem toInt_ne_zero (hb : b ≠ 0) : b.toInt ≠ 0 :=
  fun hzero ↦ hb (Int64.toInt_inj.1 (hzero.trans Int64.toInt_zero.symm))

theorem exceeds_iff :
    (a % b ≠ 0 ∧ decide (a < 0) ≠ decide (b < 0)) ↔ Exceeds a.toInt b.toInt := by
  have hrest : a % b ≠ 0 ↔ a.toInt.tmod b.toInt ≠ 0 := by
    rw [← Int64.toInt_mod, ← Int64.toInt_zero, Int64.toInt_inj.ne]
  rw [Exceeds, hrest]
  simp only [Int64.lt_iff_toInt_lt, Int64.toInt_zero]

theorem toInt_truncatedQuotient (hquotient : truncatedQuotient? a b = some quotient) :
    b ≠ 0 ∧ quotient.toInt = a.toInt.tdiv b.toInt := by
  unfold truncatedQuotient? at hquotient
  split at hquotient
  · cases hquotient
  · next hb => exact ⟨hb, toInt_fitInteger hquotient⟩

/-- Wherever there is a quotient, the remainder exists and is the exact one. -/
theorem remainder_exact (hquotient : truncatedQuotient? a b = some quotient) :
    ¬ (a = Int64.minValue ∧ b = -1) ∧ (a % b).toInt = a.toInt.tmod b.toInt := by
  refine ⟨?_, Int64.toInt_mod a b⟩
  rintro ⟨rfl, rfl⟩
  have hnone : truncatedQuotient? Int64.minValue (-1) = none := by decide
  cases hnone.symm.trans hquotient

/-- Wherever the quotient is diminished, one less is exact. -/
theorem diminished_exact (hquotient : truncatedQuotient? a b = some quotient)
    (hexceeds : a % b ≠ 0 ∧ decide (a < 0) ≠ decide (b < 0)) :
    (quotient - 1).toInt = quotient.toInt - 1 := by
  obtain ⟨hb, hsame⟩ := toInt_truncatedQuotient hquotient
  have hfits := fitsWord_tdiv_sub_one (fitsWord_toInt a) (toInt_ne_zero hb) (exceeds_iff.1 hexceeds)
  rw [← hsame] at hfits
  obtain ⟨hlower, hupper⟩ := hfits
  rw [Int64.toInt_sub, Int64.toInt_one]
  exact Int.bmod_eq_of_le (by omega) (by omega)

theorem flooredQuotient?_eq (hb : b ≠ 0) :
    flooredQuotient? a b = fitInteger ⌊(a.toInt : ℚ) / b.toInt⌋ := by
  have htruncated : truncatedQuotient? a b = fitInteger (a.toInt.tdiv b.toInt) := if_neg hb
  rw [floor_div_eq_fdiv, fdiv_eq_tdiv_sub (toInt_ne_zero hb), flooredQuotient?]
  cases hquotient : truncatedQuotient? a b with
  | none =>
    -- What does not fit leaves no remainder, so the floor is the same number.
    have hnot := fitInteger_eq_none_iff.1 (htruncated.symm.trans hquotient)
    rw [fitsWord_tdiv_iff (fitsWord_toInt a) (toInt_ne_zero hb), not_not] at hnot
    have hexact : ¬ Exceeds a.toInt b.toInt := fun hexceeds ↦
      hexceeds.1 (by rw [hnot.2, Int.tmod_neg, Int.tmod_one])
    rw [if_neg hexact, sub_zero, ← htruncated, hquotient, Option.map_none]
  | some quotient =>
    obtain ⟨-, hsame⟩ := toInt_truncatedQuotient hquotient
    rw [Option.map_some]
    by_cases hexceeds : a % b ≠ 0 ∧ decide (a < 0) ≠ decide (b < 0)
    · have hless := diminished_exact hquotient hexceeds
      obtain ⟨word, hword, heq⟩ := fitInteger_of_fits (fitsWord_toInt (quotient - 1))
      rw [if_pos hexceeds, if_pos (exceeds_iff.1 hexceeds), ← hsame, ← hless, hword,
        Int64.toInt_inj.1 heq]
    · rw [if_neg hexceeds, if_neg (mt exceeds_iff.2 hexceeds), sub_zero, ← htruncated, hquotient]

end

example : flooredQuotient? (-7) 2 = some (-4) ∧ flooredQuotient? Int64.minValue (-1) = none := by
  decide

end MiniPascal
