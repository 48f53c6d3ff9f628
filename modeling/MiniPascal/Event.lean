import MiniPascal.Scope.Symbol
import MiniPascal.Value

/-!
What the passes over a program record about their steps.
-/

set_option autoImplicit false
set_option relaxedAutoImplicit false

namespace MiniPascal

inductive Event where
  | entered (scope : String) (level : Nat)
  | left (scope : String) (level : Nat)
  | defined (symbol : Symbol) (scope : String)
  /-- A name was looked for in a scope, on the way outward. -/
  | sought (name scope : String)
  /-- A name was looked for in one scope only. -/
  | soughtOnly (name scope : String)
  | assigned (name : String) (value : Value)
  deriving DecidableEq, Repr

inductive Severity where
  | debug
  | trace
  deriving DecidableEq, Repr

def Severity.text : Severity → String
  | .debug => "DEBUG"
  | .trace => "TRACE"

namespace Event

def severity : Event → Severity
  | .entered .. | .left .. | .assigned .. => .debug
  | .defined .. | .sought .. | .soughtOnly .. => .trace

def message : Event → String
  | .entered scope level => "Entering scope '" ++ scope ++ "' (level " ++ toString level ++ ")"
  | .left scope level => "Leaving scope '" ++ scope ++ "' (level " ++ toString level ++ ")"
  | .defined symbol scope => "Define: " ++ symbol.text ++ " in '" ++ scope ++ "'"
  | .sought name scope => "Lookup: " ++ name ++ " in '" ++ scope ++ "'"
  | .soughtOnly name scope => "Lookup: " ++ name ++ " in '" ++ scope ++ "' only"
  | .assigned name value => "Assign: " ++ name ++ " = " ++ value.text

end Event

end MiniPascal
