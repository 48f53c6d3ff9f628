import MiniPascal.Grammar.Rule
import MiniPascal.Program

/-!
Expressions.

```text
expression := term (("+" | "-") term)*
term       := factor (("*" | "//" | "/") factor)*
factor     := ("+" | "-") factor | integer | real | "(" expression ")" | identifier
```

Operator chains lean to the left, so every link of a chain makes the tree deeper and opens a level
until the chain ends. `levels` bounds the recursion: it is at least the number of levels that the
limit still allows, so where it runs out the limit is reached.
-/

set_option autoImplicit false
set_option relaxedAutoImplicit false

namespace MiniPascal

namespace Rule

/-- An identifier with its line. -/
def mention : Rule Mention := do
  let (name, line) ← identifier
  return ⟨name, line⟩

def additive : Token → Option Operator
  | .mark .plus => some .add
  | .mark .minus => some .sub
  | _ => none

def multiplicative : Token → Option Operator
  | .mark .star => some .mul
  | .mark .doubleSlash => some .floorDiv
  | .mark .slash => some .realDiv
  | _ => none

/-- An operator of a chain with its line and its right operand. -/
structure Link where
  operator : Operator
  line : Nat
  right : Expression
  deriving Repr

/-- Hangs an expression to the left of a link. -/
def Link.join (left : Expression) (link : Link) : Expression :=
  .binary link.operator left link.right link.line

/-- Reads operands joined by the operators that `select` knows. -/
def chain (limit : Nat) (select : Token → Option Operator) (operand : Rule Expression) :
    Rule Expression := do
  let first ← operand
  let links ← repeatOn select fun operator ↦ do
    descend limit
    let line := (← advance).position.line
    return (⟨operator, line, ← operand⟩ : Link)
  ascend links.length
  return links.foldl Link.join first

/-- Terms, given the rule for factors. -/
def termOf (limit : Nat) (factor : Rule Expression) : Rule Expression :=
  chain limit multiplicative factor

/-- Expressions, given the rule for factors. -/
def expressionOf (limit : Nat) (factor : Rule Expression) : Rule Expression :=
  chain limit additive (termOf limit factor)

def factor (limit : Nat) : Nat → Rule Expression
  | 0 => tooDeep limit
  | levels + 1 => nested limit do
    let line ← currentLine
    match ← peek with
    | .mark .plus =>
      let _ ← advance
      return .unary .plus (← factor limit levels) line
    | .mark .minus =>
      let _ ← advance
      return .unary .minus (← factor limit levels) line
    | .integer n =>
      let _ ← advance
      return .constant (.integer n) line
    | .real r =>
      let _ ← advance
      return .constant (.real r) line
    | .mark .leftParen =>
      let _ ← advance
      let inner ← expressionOf limit (factor limit levels)
      let _ ← expect (.mark .rightParen)
      return inner
    | .identifier _ => return .read (← mention)
    | .keyword _ | .mark _ | .eof => unexpected .expression

def term (limit levels : Nat) : Rule Expression := termOf limit (factor limit levels)

def expression (limit levels : Nat) : Rule Expression := expressionOf limit (factor limit levels)

end Rule

end MiniPascal
