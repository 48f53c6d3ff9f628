import MiniPascal.Proofs.Execution.Kind
import MiniPascal.Proofs.Number.Exactness

/-!
# What an operator refuses

An operator refuses its operands for three reasons, which are looked for in this order: a promoted
operand is an integer from 2 to the 53rd on (`Operator.Overreaches`), the operator divides and its
right operand is a zero, or no word holds the exact result.

`division_by_zero_reported_iff`: a division by zero is reported unless its left operand is promoted
and too large, and then that is reported. `promotion_refused_iff`: an integer is promoted if it is
less than 2 to the 53rd in magnitude. Up to there doubles hold every integer, so nothing is rounded;
of the integers from there on, those that doubles hold are refused with the others.
-/

set_option autoImplicit false
set_option relaxedAutoImplicit false

namespace MiniPascal

/-! ### Operands -/

namespace Value

variable {v : Value}

/-- An integer from 2 to the 53rd on, of either sign. Promotion refuses it. -/
def Beyond : Value → Prop
  | .integer n => 2 ^ 53 ≤ n.toInt.natAbs
  | .real _ => False

/-- The double is the number itself, not one near it. -/
def HeldBy : Value → Float → Prop
  | .integer n, r => RealIsFinite r ∧ realValue r = n.toInt
  | .real s, r => r = s

/-- The number is one of those that doubles hold. -/
def Held : Value → Prop
  | .integer n => Representable n.toInt
  | .real _ => True

theorem held_of_not_beyond (hreach : ¬ v.Beyond) : v.Held := by
  cases v with
  | integer n => exact representable_of_natAbs_lt (Nat.lt_of_not_le hreach)
  | real r => trivial

/-- All words are in the range of doubles. -/
theorem natAbs_toInt_lt (n : Int64) : n.toInt.natAbs < overflowBound := by
  have hword := fitsWord_toInt n
  have hle : n.toInt.natAbs ≤ 2 ^ 63 := by
    simp only [FitsWord] at hword
    omega
  exact lt_of_le_of_lt hle (by decide +kernel)

theorem held_iff : v.Held ↔ ∃ r, v.HeldBy r := by
  cases v with
  | integer n => exact (exists_real_iff (natAbs_toInt_lt n)).symm
  | real s => exact ⟨fun _ ↦ ⟨s, rfl⟩, fun _ ↦ trivial⟩

theorem isZero_iff : v.isZero ↔ v = .integer 0 ∨ v = .real 0.0 ∨ v = .real (-0.0) := by
  cases v with
  | integer n => simp [isZero]
  | real r => simpa [isZero] using beq_zero_iff

theorem not_beyond_of_isZero (hzero : v.isZero) : ¬ v.Beyond := by
  rcases isZero_iff.1 hzero with rfl | rfl | rfl
  · exact Nat.not_le.2 (by decide)
  · exact id
  · exact id

end Value

section Promote

variable {v : Value}

theorem promote_of_beyond (hbeyond : v.Beyond) (line : Nat) :
    promote v line = .error (.integerTooLarge line) := by
  cases v with
  | integer n =>
    have hlarge : ¬ n.toInt.natAbs ≤ largestExactInteger := Nat.not_le.2 hbeyond
    rw [promote, Value.asReal, exactReal, if_neg hlarge]
  | real r => exact hbeyond.elim

/-- No promoted integer is rounded. -/
theorem promote_of_not_beyond (hreach : ¬ v.Beyond) (line : Nat) :
    ∃ r, v.HeldBy r ∧ promote v line = .ok r := by
  cases v with
  | integer n =>
    have hsmall : n.toInt.natAbs ≤ largestExactInteger :=
      Nat.le_of_lt_succ (Nat.lt_of_not_le hreach)
    refine ⟨realOfInt n.toInt, ?_, ?_⟩
    · exact realValue_realOfInt (Value.natAbs_toInt_lt n) (Value.held_of_not_beyond hreach)
    · rw [promote, Value.asReal, exactReal, if_pos hsmall]
  | real r => exact ⟨r, rfl, rfl⟩

end Promote

/-! ### Operators -/

namespace Operator

variable {operator : Operator} {left right v : Value} {line place : Nat}

/-- A promoted operand is too large. -/
def Overreaches (operator : Operator) (left right : Value) : Prop :=
  operator.Promotes left right ∧ (left.Beyond ∨ right.Beyond)

theorem divides_iff : operator.divides ↔ operator = .realDiv ∨ operator = .floorDiv := by
  cases operator <;> decide

theorem apply_of_overreaches (hlarge : operator.Overreaches left right) (line : Nat) :
    operator.apply left right line = .error (.integerTooLarge line) := by
  obtain ⟨hpromotes, hbeyond⟩ := hlarge
  rw [apply_of_promotes hpromotes, applyPromoted]
  by_cases hleft : left.Beyond
  · rw [promote_of_beyond hleft]
    rfl
  · obtain ⟨first, -, hfirst⟩ := promote_of_not_beyond hleft line
    rw [hfirst, promote_of_beyond (hbeyond.resolve_left hleft)]
    rfl

/-- Within reach, a promoted operation is refused only by zero. -/
theorem applyPromoted_of_not_beyond (hleft : ¬ left.Beyond) (hright : ¬ right.Beyond)
    (line : Nat) : ∃ first second, left.HeldBy first ∧ right.HeldBy second ∧
      operator.applyPromoted left right line =
        if operator.divides && right.isZero then .error (.divisionByZero line)
        else .ok (.real (operator.onReals first second)) := by
  obtain ⟨first, hleftHeld, hfirst⟩ := promote_of_not_beyond hleft line
  obtain ⟨second, hrightHeld, hsecond⟩ := promote_of_not_beyond hright line
  refine ⟨first, second, hleftHeld, hrightHeld, ?_⟩
  rw [applyPromoted, hfirst, hsecond]
  simp only [bind, Except.bind]
  split <;> rfl

/-- Within reach, a zero is looked for before anything else. -/
theorem apply_of_not_overreaches (hreach : ¬ operator.Overreaches left right) (line : Nat) :
    if operator.divides ∧ right.isZero
    then operator.apply left right line = .error (.divisionByZero line)
    else operator.apply left right line = .error (.overflow line) ∨
      ∃ v, operator.apply left right line = .ok v := by
  by_cases hpromotes : operator.Promotes left right
  · have hsmall := not_or.1 fun hbeyond ↦ hreach ⟨hpromotes, hbeyond⟩
    obtain ⟨first, second, -, -, hresult⟩ :=
      @applyPromoted_of_not_beyond operator left right hsmall.1 hsmall.2 line
    rw [apply_of_promotes hpromotes, hresult]
    by_cases hzero : operator.divides ∧ right.isZero
    · rw [if_pos hzero, if_pos (by simpa using hzero)]
    · rw [if_neg hzero, if_neg (by simpa using hzero)]
      exact .inr ⟨_, rfl⟩
  · obtain ⟨hreal, a, b, rfl, rfl⟩ := exists_integers_of_not_promotes hpromotes
    have hzeros : (operator.divides ∧ (Value.integer b).isZero) ↔
        operator = .floorDiv ∧ b.toInt = 0 := by
      rw [divides_iff, or_iff_right hreal, Value.isZero, beq_iff_eq, ← Int64.toInt_inj,
        Int64.toInt_zero]
    rcases apply_integers hreal a b line with ⟨hzero, hrefused⟩ | ⟨hother, n, -, hexact⟩
    · rw [if_pos (hzeros.2 hzero), hrefused]
    · rw [if_neg (mt hzeros.1 hother), hexact]
      rcases integerResult_cases n line with ⟨-, hrefused⟩ | ⟨-, word, -, hkept⟩
      · exact .inl hrefused
      · exact .inr ⟨_, hkept⟩

theorem apply_eq_integerTooLarge_iff :
    operator.apply left right line = .error (.integerTooLarge place) ↔
      place = line ∧ operator.Overreaches left right := by
  by_cases hlarge : operator.Overreaches left right
  · rw [apply_of_overreaches hlarge]
    simp [hlarge, eq_comm]
  · have hothers := apply_of_not_overreaches hlarge line
    split at hothers
    · simp [hothers, hlarge]
    · rcases hothers with hoverflow | ⟨v, hvalue⟩
      · simp [hoverflow, hlarge]
      · simp [hvalue, hlarge]

theorem apply_eq_divisionByZero_iff :
    operator.apply left right line = .error (.divisionByZero place) ↔
      place = line ∧ (operator.divides ∧ right.isZero) ∧ ¬ operator.Overreaches left right := by
  by_cases hlarge : operator.Overreaches left right
  · rw [apply_of_overreaches hlarge]
    simp [hlarge]
  · have hothers := apply_of_not_overreaches hlarge line
    split at hothers
    · next hzero => simp [hothers, hlarge, hzero, eq_comm]
    · next hzero =>
      rcases hothers with hoverflow | ⟨v, hvalue⟩
      · simp [hoverflow, hzero]
      · simp [hvalue, hzero]

/-- The result of a promoted operation is that of reals that are the operands themselves. -/
theorem exists_heldBy_of_apply (hpromotes : operator.Promotes left right)
    (hresult : operator.apply left right line = .ok v) :
    ∃ first second, left.HeldBy first ∧ right.HeldBy second ∧
      v = .real (operator.onReals first second) := by
  have hsmall : ¬ (left.Beyond ∨ right.Beyond) := fun hbeyond ↦ by
    cases (apply_of_overreaches ⟨hpromotes, hbeyond⟩ line).symm.trans hresult
  obtain ⟨hleft, hright⟩ := not_or.1 hsmall
  obtain ⟨first, second, hleftHeld, hrightHeld, hpromoted⟩ :=
    @applyPromoted_of_not_beyond operator left right hleft hright line
  refine ⟨first, second, hleftHeld, hrightHeld, ?_⟩
  rw [apply_of_promotes hpromotes, hpromoted] at hresult
  split at hresult
  · cases hresult
  · exact (Except.ok.inj hresult).symm

/-! ### Division by zero -/

/-- The operator is one of the two divisions, and it divides by a zero of any kind and sign. -/
def DividesByZero (operator : Operator) (right : Value) : Prop :=
  (operator = .realDiv ∨ operator = .floorDiv) ∧
    (right = .integer 0 ∨ right = .real 0.0 ∨ right = .real (-0.0))

theorem dividesByZero_iff : operator.DividesByZero right ↔ operator.divides ∧ right.isZero :=
  and_congr divides_iff.symm Value.isZero_iff.symm

end Operator

/-- A division by zero, and nothing else, is reported as one, unless the left operand is promoted
and too large: then that is reported. -/
theorem division_by_zero_reported_iff (operator : Operator) (left right : Value) (line : Nat) :
    (∀ place, operator.apply left right line = .error (.divisionByZero place) ↔
      place = line ∧ operator.DividesByZero right ∧
        ¬ (operator.Promotes left right ∧ left.Beyond)) ∧
    (operator.DividesByZero right → operator.Promotes left right → left.Beyond →
      operator.apply left right line = .error (.integerTooLarge line)) := by
  refine ⟨fun place ↦ ?_, fun _ hpromotes hbeyond ↦
    Operator.apply_of_overreaches ⟨hpromotes, .inl hbeyond⟩ line⟩
  rw [Operator.apply_eq_divisionByZero_iff, ← Operator.dividesByZero_iff]
  refine and_congr_right fun _ ↦ and_congr_right fun hzero ↦ not_congr ?_
  -- A zero is within reach, so only the left operand can be too large.
  have hright := Value.not_beyond_of_isZero (Operator.dividesByZero_iff.1 hzero).2
  rw [Operator.Overreaches, or_iff_left hright]

/-- The division that yields reals looks at the left operand before the zero; the other division of
the same integers reports the zero. -/
theorem division_by_zero_unreported :
    Operator.realDiv.apply (.integer Int64.maxValue) (.integer 0) 1 = .error (.integerTooLarge 1) ∧
    Operator.floorDiv.apply (.integer Int64.maxValue) (.integer 0) 1 = .error (.divisionByZero 1) ∧
    ¬ ∀ (operator : Operator) (left right : Value) (line : Nat), operator.DividesByZero right →
      operator.apply left right line = .error (.divisionByZero line) := by
  have hlarge : Operator.realDiv.apply (.integer Int64.maxValue) (.integer 0) 1 =
      .error (.integerTooLarge 1) := rfl
  refine ⟨hlarge, rfl, fun hreported ↦ ?_⟩
  have hzero := hreported .realDiv (.integer Int64.maxValue) (.integer 0) 1 ⟨.inl rfl, .inl rfl⟩
  cases hlarge.symm.trans hzero

/-! ### Promotion -/

/-- Promotion is refused from 2 to the 53rd on, with the line of the operator. So an integer that no
double holds is always refused, and none is ever rounded. Operands that doubles hold are refused
only if one of them is that large. -/
theorem promotion_refused_iff (operator : Operator) (left right : Value) (line : Nat) :
    (∀ place, operator.apply left right line = .error (.integerTooLarge place) ↔
      place = line ∧ operator.Promotes left right ∧ (left.Beyond ∨ right.Beyond)) ∧
    ((operator.apply left right line = .error (.integerTooLarge line) ↔
        operator.Promotes left right ∧ ¬ (left.Held ∧ right.Held)) ↔
      ¬ (operator.Promotes left right ∧ (left.Beyond ∨ right.Beyond) ∧
        left.Held ∧ right.Held)) ∧
    (∀ v : Value, v.Held ↔ ∃ r, v.HeldBy r) ∧
    (∀ v, operator.Promotes left right → operator.apply left right line = .ok v →
      ∃ first second, left.HeldBy first ∧ right.HeldBy second ∧
        v = .real (operator.onReals first second)) := by
  refine ⟨fun _ ↦ Operator.apply_eq_integerTooLarge_iff, ?_, fun _ ↦ Value.held_iff,
    fun _ ↦ Operator.exists_heldBy_of_apply⟩
  rw [Operator.apply_eq_integerTooLarge_iff, Operator.Overreaches]
  have hunheld : ¬ (left.Held ∧ right.Held) → left.Beyond ∨ right.Beyond := by
    contrapose!
    exact fun hreach ↦ ⟨Value.held_of_not_beyond hreach.1, Value.held_of_not_beyond hreach.2⟩
  tauto

/-- A double holds 2 to the 53rd, which is refused. -/
theorem promotion_refuses_two_pow_53 :
    Operator.realDiv.apply (.integer 9007199254740992) (.integer 1) 1 =
      .error (.integerTooLarge 1) ∧
    (Value.integer 9007199254740992).Held ∧ (Value.integer 1).Held ∧
    ¬ ∀ (operator : Operator) (left right : Value) (line : Nat),
      operator.apply left right line = .error (.integerTooLarge line) ↔
        operator.Promotes left right ∧ ¬ (left.Held ∧ right.Held) := by
  have hlarge : Operator.realDiv.apply (.integer 9007199254740992) (.integer 1) 1 =
      .error (.integerTooLarge 1) := rfl
  have hleft : (Value.integer 9007199254740992).Held := ⟨1, 53, by decide, by decide⟩
  have hright : (Value.integer 1).Held := ⟨1, 0, by decide, by decide⟩
  refine ⟨hlarge, hleft, hright, fun hexactly ↦ ?_⟩
  exact ((hexactly .realDiv (.integer 9007199254740992) (.integer 1) 1).1 hlarge).2 ⟨hleft, hright⟩

end MiniPascal
