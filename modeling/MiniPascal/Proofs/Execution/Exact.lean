import MiniPascal.Execution
import MiniPascal.Proofs.Number.Quotient
import MiniPascal.Proofs.Scope.Environment

/-!
# Integer expressions are exact or refused

The exact value of an expression over integers, `Expression.value?`, is computed without bounds,
and a quotient is the floor of the rational one. Some parts of an expression have no value that
could be kept: a variable that was not assigned, a division by zero, and an operator whose exact
value no word holds (`Expression.fault?`).

`integers_exact_or_refused`: evaluation goes through the parts from left to right, operands before
their operator (`Expression.parts`), and ends at the first that has a fault, with this fault. If
none has, it yields the exact value.
-/

set_option autoImplicit false
set_option relaxedAutoImplicit false

namespace MiniPascal

/-! ### Exact values -/

/-- The quotient is rounded toward negative infinity; there is none by zero. -/
def Operator.result? (operator : Operator) (left right : Int) : Option Int :=
  match operator with
  | .add => some (left + right)
  | .sub => some (left - right)
  | .mul => some (left * right)
  | .realDiv => none
  | .floorDiv => if right = 0 then none else some ⌊(left : ℚ) / right⌋

def Sign.exact (sign : Sign) (n : Int) : Int :=
  match sign with
  | .plus => n
  | .minus => -n

namespace Expression

/-- The value over unbounded integers, if all variables have values and nothing is divided by
zero. -/
def value? (store : Store) : Expression → Option Int
  | .constant (.integer n) _ => some n.toInt
  | .constant (.real _) _ => none
  | .read used =>
    match store.get? used.name with
    | some (.integer n) => some n.toInt
    | _ => none
  | .unary sign operand _ => (operand.value? store).map sign.exact
  | .binary operator left right _ => do
    operator.result? (← left.value? store) (← right.value? store)

/-- The expression and all inside it, from left to right, operands before their operator. -/
def parts : Expression → List Expression
  | .constant value line => [.constant value line]
  | .read used => [.read used]
  | .unary sign operand line => operand.parts ++ [.unary sign operand line]
  | .binary operator left right line =>
    left.parts ++ right.parts ++ [.binary operator left right line]

/-- The fault of an operator if no word holds its exact value. -/
def overflow? (value : Option Int) (line : Nat) : Option RunFault :=
  if value.any (¬ FitsWord ·) then some (.overflow line) else none

/-- Why the expression has no value although its operands have one. -/
def fault? (store : Store) : Expression → Option RunFault
  | .constant _ _ => none
  | .read used =>
    if store.get? used.name = none then some (.undefinedVariable used.name used.line) else none
  | .unary sign operand line => overflow? ((unary sign operand line).value? store) line
  | .binary operator left right line =>
    if operator = .floorDiv ∧ right.value? store = some 0 then some (.divisionByZero line)
    else overflow? ((binary operator left right line).value? store) line

/-- Neither real constants nor divisions that yield reals. -/
def IntegerOnly : Expression → Prop
  | .constant (.integer _) _ => True
  | .constant (.real _) _ => False
  | .read _ => True
  | .unary _ operand _ => operand.IntegerOnly
  | .binary operator left right _ => operator ≠ .realDiv ∧ left.IntegerOnly ∧ right.IntegerOnly

end Expression

/-- The variables are not assigned or hold integers. -/
def Store.Integers (store : Store) (used : List Mention) : Prop :=
  ∀ u ∈ used, ∀ value, store.get? u.name = some value → ∃ n, value = .integer n

/-! ### Operators -/

open Expression (overflow?)

/-- A result is an overflow exactly if no word holds it. -/
theorem integerResult_cases (n : Int) (line : Nat) :
    (overflow? (some n) line = some (.overflow line) ∧
      integerResult n line = .error (.overflow line)) ∨
    (overflow? (some n) line = none ∧
      ∃ word : Int64, n = word.toInt ∧ integerResult n line = .ok (.integer word)) := by
  by_cases hfits : FitsWord n
  · obtain ⟨word, hword, hsame⟩ := fitInteger_of_fits hfits
    refine .inr ⟨by simp [overflow?, hfits], word, hsame.symm, ?_⟩
    rw [integerResult, hword]
  · refine .inl ⟨by simp [overflow?, hfits], ?_⟩
    rw [integerResult, fitInteger_eq_none_iff.2 hfits]

theorem Sign.apply_integer (sign : Sign) (n : Int64) (line : Nat) :
    sign.apply (.integer n) line = integerResult (sign.exact n.toInt) line := by
  cases sign with
  | plus => rw [Sign.exact, integerResult, fitInteger_toInt, Sign.apply]
  | minus => rw [Sign.exact, Sign.apply]

/-- Two integers are divided by zero, or have an exact result. -/
theorem Operator.apply_integers {operator : Operator} (hreal : operator ≠ .realDiv) (a b : Int64)
    (line : Nat) :
    ((operator = .floorDiv ∧ b.toInt = 0) ∧
      operator.apply (.integer a) (.integer b) line = .error (.divisionByZero line)) ∨
    (¬ (operator = .floorDiv ∧ b.toInt = 0) ∧
      ∃ n, operator.result? a.toInt b.toInt = some n ∧
        operator.apply (.integer a) (.integer b) line = integerResult n line) := by
  cases operator with
  | realDiv => exact absurd rfl hreal
  | add | sub | mul => exact .inr ⟨nofun, _, rfl, rfl⟩
  | floorDiv =>
    by_cases hzero : b.toInt = 0
    · obtain rfl : b = 0 := Int64.toInt_inj.1 (hzero.trans Int64.toInt_zero.symm)
      exact .inl ⟨⟨rfl, rfl⟩, rfl⟩
    · have hisZero : (Value.integer b).isZero = false :=
        beq_eq_false_iff_ne.2 fun heq ↦ hzero (heq ▸ Int64.toInt_zero)
      refine .inr ⟨fun hboth ↦ hzero hboth.2, _, if_neg hzero, ?_⟩
      simp [Operator.apply, Operator.onIntegers, Operator.divides, hisZero, floor_div_eq_fdiv]

/-- On words the quotient comes from the one rounded toward zero. -/
theorem Operator.apply_floorDiv (a : Int64) {b : Int64} (hb : b ≠ 0) (line : Nat) :
    Operator.floorDiv.apply (.integer a) (.integer b) line =
      match flooredQuotient? a b with
      | some quotient => .ok (.integer quotient)
      | none => .error (.overflow line) := by
  rcases @Operator.apply_integers .floorDiv nofun a b line with
    ⟨hzero, -⟩ | ⟨-, n, hexact, happly⟩
  · exact absurd hzero.2 (toInt_ne_zero hb)
  · rw [Operator.result?, if_neg (toInt_ne_zero hb)] at hexact
    have hword : flooredQuotient? a b = fitInteger n := by
      rw [flooredQuotient?_eq hb, Option.some.inj hexact]
    cases hfits : fitInteger n <;> simp [happly, integerResult, hword, hfits]

/-! ### Expressions -/

namespace Expression

variable {store : Store}

/-- The fault of the first part that has one. -/
def firstFault? (store : Store) (e : Expression) : Option RunFault :=
  e.parts.findSome? (·.fault? store)

/-- Evaluation ends with the first fault or, if there is none, with the exact value. -/
def Settles (store : Store) (e : Expression) : Prop :=
  (∃ fault, e.firstFault? store = some fault ∧ e.eval store = .error fault) ∨
  (e.firstFault? store = none ∧
    ∃ word, e.value? store = some word.toInt ∧ e.eval store = .ok (.integer word))

theorem firstFault?_unary (sign : Sign) (operand : Expression) (line : Nat) :
    (unary sign operand line).firstFault? store =
      (operand.firstFault? store).or ((unary sign operand line).fault? store) := by
  simp [firstFault?, parts, List.findSome?_append]

theorem firstFault?_binary (operator : Operator) (left right : Expression) (line : Nat) :
    (binary operator left right line).firstFault? store =
      ((left.firstFault? store).or (right.firstFault? store)).or
        ((binary operator left right line).fault? store) := by
  simp [firstFault?, parts, List.findSome?_append, Option.or_assoc]

/-- Behind operands without a fault, all depends on whether a word holds the result. -/
theorem settles_of_result {e : Expression} {n : Int} {line : Nat} (hexact : e.value? store = some n)
    (hfirst : e.firstFault? store = overflow? (some n) line)
    (heval : e.eval store = integerResult n line) : e.Settles store := by
  rcases integerResult_cases n line with ⟨hover, hrefused⟩ | ⟨hnone, word, rfl, hkept⟩
  · exact .inl ⟨_, hfirst.trans hover, heval.trans hrefused⟩
  · exact .inr ⟨hfirst.trans hnone, word, hexact, heval.trans hkept⟩

theorem settles_constant (n : Int64) (line : Nat) :
    (constant (.integer n) line).Settles store :=
  .inr ⟨rfl, n, rfl, rfl⟩

theorem settles_read (used : Mention) (hstore : store.Integers [used]) :
    (read used).Settles store := by
  cases hvalue : store.get? used.name with
  | none =>
    refine .inl ⟨.undefinedVariable used.name used.line, ?_, ?_⟩
    · simp [firstFault?, parts, fault?, hvalue]
    · simp [eval, hvalue]
  | some value =>
    obtain ⟨n, rfl⟩ := hstore used List.mem_cons_self value hvalue
    refine .inr ⟨?_, n, ?_, ?_⟩
    · simp [firstFault?, parts, fault?, hvalue]
    · simp [value?, hvalue]
    · simp [eval, hvalue]

theorem settles_unary {sign : Sign} {operand : Expression} {line : Nat}
    (hoperand : operand.Settles store) : (unary sign operand line).Settles store := by
  rcases hoperand with ⟨fault, hfault, hends⟩ | ⟨hnone, word, hexact, hvalue⟩
  · refine .inl ⟨fault, ?_, ?_⟩
    · rw [firstFault?_unary, hfault, Option.some_or]
    · rw [eval, hends]
      rfl
  · have hsame : (unary sign operand line).value? store = some (sign.exact word.toInt) := by
      rw [value?, hexact, Option.map_some]
    refine settles_of_result hsame (?_ : _ = overflow? _ line) ?_
    · rw [firstFault?_unary, hnone, Option.none_or, fault?, hsame]
    · rw [eval, hvalue, ← Sign.apply_integer]
      rfl

theorem settles_binary {operator : Operator} (hreal : operator ≠ .realDiv)
    {left right : Expression} {line : Nat} (hleft : left.Settles store)
    (hright : right.Settles store) : (binary operator left right line).Settles store := by
  rcases hleft with ⟨fault, hfault, hends⟩ | ⟨hnone, a, hexactLeft, hvalueLeft⟩
  · refine .inl ⟨fault, ?_, ?_⟩
    · rw [firstFault?_binary, hfault, Option.some_or, Option.some_or]
    · rw [eval, hends]
      rfl
  rcases hright with ⟨fault, hfault, hends⟩ | ⟨hnoneRight, b, hexactRight, hvalueRight⟩
  · refine .inl ⟨fault, ?_, ?_⟩
    · rw [firstFault?_binary, hnone, hfault, Option.none_or, Option.some_or]
    · rw [eval, hvalueLeft, hends]
      rfl
  have heval : (binary operator left right line).eval store =
      operator.apply (.integer a) (.integer b) line := by
    rw [eval, hvalueLeft, hvalueRight]
    rfl
  have hfirst : (binary operator left right line).firstFault? store =
      (binary operator left right line).fault? store := by
    rw [firstFault?_binary, hnone, hnoneRight, Option.none_or, Option.none_or]
  rcases operator.apply_integers hreal a b line with ⟨hzero, hrefused⟩ | ⟨hnonzero, n, hn, happly⟩
  · refine .inl ⟨.divisionByZero line, ?_, heval.trans hrefused⟩
    rw [hfirst, fault?, hexactRight, hzero.2, if_pos ⟨hzero.1, rfl⟩]
  · have hsame : (binary operator left right line).value? store = some n := by
      simp [value?, hexactLeft, hexactRight, hn]
    refine settles_of_result hsame ?_ (heval.trans happly)
    rw [hfirst, fault?, hexactRight, hsame, if_neg fun hboth ↦
      hnonzero ⟨hboth.1, Option.some.inj hboth.2⟩]

theorem settles_of_integers {e : Expression} (honly : e.IntegerOnly)
    (hstore : store.Integers e.mentions) : e.Settles store := by
  induction e with
  | constant value line =>
    cases value with
    | integer n => exact settles_constant n line
    | real r => cases honly
  | read used => exact settles_read used hstore
  | unary sign operand line induct => exact settles_unary (induct honly hstore)
  | binary operator left right line inductLeft inductRight =>
    obtain ⟨hreal, hleft, hright⟩ := honly
    refine settles_binary hreal (inductLeft hleft ?_) (inductRight hright ?_)
    · exact fun used hused ↦ hstore used (List.mem_append_left _ hused)
    · exact fun used hused ↦ hstore used (List.mem_append_right _ hused)

end Expression

/-- Evaluation ends with the fault of the first part that has one, and otherwise with the exact
value. The quotient of two words comes from the one toward zero, whose remainder exists, and where
one less is taken, this is exact as well. -/
theorem integers_exact_or_refused (e : Expression) (store : Store) (honly : e.IntegerOnly)
    (hstore : store.Integers e.mentions) :
    (∀ fault, e.parts.findSome? (·.fault? store) = some fault → e.eval store = .error fault) ∧
    (e.parts.findSome? (·.fault? store) = none →
      ∃ word : Int64, e.value? store = some word.toInt ∧ e.eval store = .ok (.integer word)) ∧
    ∀ (a b : Int64) (line : Nat), b ≠ 0 →
      Operator.floorDiv.apply (.integer a) (.integer b) line =
        (match flooredQuotient? a b with
          | some quotient => .ok (.integer quotient)
          | none => .error (.overflow line)) ∧
      ∀ quotient, truncatedQuotient? a b = some quotient →
        ¬ (a = Int64.minValue ∧ b = -1) ∧ (a % b).toInt = a.toInt.tmod b.toInt ∧
        (a % b ≠ 0 ∧ decide (a < 0) ≠ decide (b < 0) →
          (quotient - 1).toInt = quotient.toInt - 1) := by
  refine ⟨?_, ?_, fun a b line hb ↦ ⟨Operator.apply_floorDiv a hb line, ?_⟩⟩
  · intro fault hfault
    rcases Expression.settles_of_integers honly hstore with ⟨first, hfirst, hends⟩ | ⟨hnone, -⟩
    · rwa [← Option.some.inj (hfirst.symm.trans hfault)]
    · cases hnone.symm.trans hfault
  · intro hnone
    rcases Expression.settles_of_integers honly hstore with ⟨first, hfirst, -⟩ | ⟨-, hexact⟩
    · cases hfirst.symm.trans hnone
    · exact hexact
  · intro quotient hquotient
    obtain ⟨hother, hrest⟩ := remainder_exact hquotient
    exact ⟨hother, hrest, diminished_exact hquotient⟩

/-- With the least word in `x`, the sum `-7 // 2 + 0 * (x + 1)` is exact. In
`x // -1 + 0 // 0` the quotient on the left is refused, and the one on the right is not reached. -/
theorem integers_exact_or_refused_least :
    let store : Store := Table.empty.insert "x" (.integer Int64.minValue)
    let number (n : Int64) : Expression := .constant (.integer n) 1
    let x : Expression := .read ⟨"x", 1⟩
    let kept : Expression := .binary .add
      (.binary .floorDiv (.unary .minus (number 7) 1) (number 2) 1)
      (.binary .mul (number 0) (.binary .add x (number 1) 1) 1) 1
    let refused : Expression := .binary .add
      (.binary .floorDiv x (.unary .minus (number 1) 1) 2)
      (.binary .floorDiv (number 0) (number 0) 3) 4
    kept.eval store = .ok (.integer (-4)) ∧ refused.eval store = .error (.overflow 2) := by
  intro store number x kept refused
  have hstore (e : Expression) (hx : ∀ used ∈ e.mentions, used.name = "x") :
      store.Integers e.mentions := fun used hused value hvalue ↦ by
    rw [hx used hused] at hvalue
    exact ⟨Int64.minValue, (Option.some.inj hvalue).symm⟩
  constructor
  · obtain ⟨word, hexact, hvalue⟩ :=
      (integers_exact_or_refused kept store (by simp [kept, number, x, Expression.IntegerOnly])
        (hstore kept (by decide))).2.1 (by decide +kernel)
    have hfour : kept.value? store = some (-4 : Int64).toInt := by decide +kernel
    rwa [← Int64.toInt_inj.1 (Option.some.inj (hexact.symm.trans hfour))]
  · exact (integers_exact_or_refused refused store
      (by simp [refused, number, x, Expression.IntegerOnly]) (hstore refused (by decide))).1 _
      (by decide +kernel)

end MiniPascal
