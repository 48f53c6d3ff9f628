import MiniPascal.Fault
import MiniPascal.Program

/-!
The operators on values.

Two integers stay integers, except under `/`: their result is exact or refused. As soon as a real
or `/` is involved, both operands are promoted, the left one first, and the result is a real.
-/

set_option autoImplicit false
set_option relaxedAutoImplicit false

namespace MiniPascal

/-- An exact result as a value, if a word holds it. -/
def integerResult (n : Int) (line : Nat) : Except RunFault Value :=
  match fitInteger n with
  | some word => .ok (.integer word)
  | none => .error (.overflow line)

/-- A value as the operand of a real operation. -/
def promote (value : Value) (line : Nat) : Except RunFault Float :=
  match value.asReal with
  | some r => .ok r
  | none => .error (.integerTooLarge line)

namespace Sign

def apply (sign : Sign) (value : Value) (line : Nat) : Except RunFault Value :=
  match sign, value with
  | .plus, value => .ok value
  | .minus, .integer n => integerResult (-n.toInt) line
  | .minus, .real r => .ok (.real (-r))

end Sign

namespace Operator

/-- Whether the operator refuses a right operand of zero. -/
def divides : Operator → Bool
  | .realDiv | .floorDiv => true
  | .add | .sub | .mul => false

/-- The exact result of an operator on two integers, `none` if it has to be a real. The quotient is
rounded toward negative infinity. -/
def onIntegers (operator : Operator) (left right : Int) : Option Int :=
  match operator with
  | .add => some (left + right)
  | .sub => some (left - right)
  | .mul => some (left * right)
  | .realDiv => none
  | .floorDiv => some (left.fdiv right)

def onReals (operator : Operator) (left right : Float) : Float :=
  match operator with
  | .add => left + right
  | .sub => left - right
  | .mul => left * right
  | .realDiv => left / right
  | .floorDiv => floorReal (left / right)

/-- The result of an operator on promoted operands. -/
def applyPromoted (operator : Operator) (left right : Value) (line : Nat) :
    Except RunFault Value := do
  let first ← promote left line
  let second ← promote right line
  if operator.divides && right.isZero then throw (.divisionByZero line)
  return .real (operator.onReals first second)

def apply (operator : Operator) (left right : Value) (line : Nat) : Except RunFault Value :=
  match left, right with
  | .integer a, .integer b =>
    match operator.onIntegers a.toInt b.toInt with
    | some n =>
      if operator.divides && right.isZero then .error (.divisionByZero line)
      else integerResult n line
    | none => operator.applyPromoted left right line
  | _, _ => operator.applyPromoted left right line

end Operator

end MiniPascal
