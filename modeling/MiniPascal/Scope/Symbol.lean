/-!
Symbols: what a name stands for in a scope.

A symbol is a scalar type, a variable or parameter with its type, or a procedure with its
parameters. Each is filed under its own name.
-/

set_option autoImplicit false
set_option relaxedAutoImplicit false

namespace MiniPascal

inductive Scalar where
  | integer
  | real
  deriving DecidableEq, Repr

def Scalar.name : Scalar → String
  | .integer => "INTEGER"
  | .real => "REAL"

/-- A variable or parameter with its type. -/
structure TypedName where
  name : String
  type : Scalar
  deriving DecidableEq, Repr

def TypedName.text (typed : TypedName) : String := typed.name ++ ":" ++ typed.type.name

inductive Symbol where
  | scalar (type : Scalar)
  | var (declared : TypedName)
  | procedure (name : String) (parameters : List TypedName)
  deriving DecidableEq, Repr

namespace Symbol

/-- The name under which a symbol is filed. -/
def name : Symbol → String
  | .scalar type => type.name
  | .var declared => declared.name
  | .procedure name _ => name

/-- The type of a variable; other symbols have none. -/
def declaredType : Symbol → Option Scalar
  | .var declared => some declared.type
  | _ => none

def text : Symbol → String
  | .scalar type => type.name
  | .var declared => "<" ++ declared.text ++ ">"
  | .procedure name parameters =>
    "<" ++ name ++ "(" ++ ", ".intercalate (parameters.map TypedName.text) ++ ")>"

end Symbol

end MiniPascal
