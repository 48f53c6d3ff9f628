import MiniPascal.Value

/-!
Programs as trees: declarations, statements and expressions, each with the lines it came from.

Names in a tree can be any strings; that the grammar yields only identifiers is a property of the
grammar. A compound statement is the list of its statements, and a block is its declarations
together with the compound statement that is its body.
-/

set_option autoImplicit false
set_option relaxedAutoImplicit false

namespace MiniPascal

/-- A name and the line on which it is written. -/
structure Mention where
  name : String
  line : Nat
  deriving DecidableEq, Repr

/-- A prefix operator. -/
inductive Sign where
  | plus
  | minus
  deriving DecidableEq, Repr

def Sign.text : Sign → String
  | .plus => "+"
  | .minus => "-"

/-- An infix operator. `realDiv` always yields a real, `floorDiv` the floored quotient. -/
inductive Operator where
  | add
  | sub
  | mul
  | realDiv
  | floorDiv
  deriving DecidableEq, Repr

namespace Operator

def text : Operator → String
  | .add => "+"
  | .sub => "-"
  | .mul => "*"
  | .realDiv => "/"
  | .floorDiv => "//"

/-- How tightly an operator binds; the higher the tighter. -/
def precedence : Operator → Nat
  | .add | .sub => 1
  | .mul | .realDiv | .floorDiv => 2

end Operator

inductive Expression where
  | constant (value : Value) (line : Nat)
  | read (mention : Mention)
  | unary (sign : Sign) (operand : Expression) (line : Nat)
  | binary (operator : Operator) (left right : Expression) (line : Nat)
  deriving DecidableEq, Repr

/-- The line of an expression: that of its operator, if it has one. -/
def Expression.line : Expression → Nat
  | .constant _ line => line
  | .read mention => mention.line
  | .unary _ _ line => line
  | .binary _ _ _ line => line

inductive Statement where
  | compound (statements : List Statement)
  /-- `line` is that of the assignment mark. -/
  | assign (target : Mention) (value : Expression) (line : Nat)
  | empty
  deriving Repr

/-- A declared variable or parameter. -/
structure VariableDeclaration where
  mention : Mention
  typeName : Mention
  deriving DecidableEq, Repr

/-- A procedure declaration without its block. -/
structure Heading where
  name : String
  line : Nat
  parameters : List VariableDeclaration
  deriving DecidableEq, Repr

inductive Declaration where
  | var (declared : VariableDeclaration)
  | procedure (heading : Heading) (declarations : List Declaration) (body : List Statement)
  deriving Repr

structure Block where
  declarations : List Declaration
  body : List Statement
  deriving Repr

structure Program where
  name : String
  line : Nat
  block : Block
  deriving Repr

end MiniPascal
