import MiniPascal.Number.Integer
import MiniPascal.Number.RealText

/-!
Numbers as the language knows them, both as constants in a program and as values at run time: a
number is an integer or a real and stays what it is until an operation promotes it.
-/

set_option autoImplicit false
set_option relaxedAutoImplicit false

namespace MiniPascal

inductive Value where
  | integer (n : Int64)
  | real (r : Float)
  deriving DecidableEq, Repr

namespace Value

def text : Value → String
  | .integer n => toString n.toInt
  | .real r => realText r

def isReal : Value → Bool
  | .integer _ => false
  | .real _ => true

/-- Whether the value is the integer zero or a real zero of either sign. -/
def isZero : Value → Bool
  | .integer n => n == 0
  | .real r => r == 0.0

end Value

/-- The largest number of 53 bits; every integer up to it in magnitude is a double. -/
def largestExactInteger : Nat := 9007199254740991

/-- The double equal to an integer of at most `largestExactInteger` in magnitude. Larger integers
are refused, because promoting them could round. -/
def exactReal (n : Int64) : Option Float :=
  if n.toInt.natAbs ≤ largestExactInteger then some (realOfInt n.toInt) else none

/-- The value as a real: reals as they are, integers only if `exactReal` takes them. -/
def Value.asReal : Value → Option Float
  | .integer n => exactReal n
  | .real r => some r

end MiniPascal
