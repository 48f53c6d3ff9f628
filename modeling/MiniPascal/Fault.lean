import MiniPascal.Text.Position
import MiniPascal.Token

/-!
What can go wrong, phase by phase, and in which words it is reported.

Each phase has its own causes: cutting tokens (`LexFault`), reading the grammar (`ParseFault`),
scoping (`ScopeFault`) and running (`RunFault`). `Fault` holds the cause of a whole pipeline, and
`Fault.message` its text.
-/

set_option autoImplicit false
set_option relaxedAutoImplicit false

namespace MiniPascal

inductive LexFault where
  | invalidCharacter (character : Char) (position : Position)
  | unterminatedComment (position : Position)
  | literalTooLarge (literal : String) (line : Nat)
  deriving DecidableEq, Repr

/-- What the grammar asks for where the current token does not fit. -/
inductive Expectation where
  | token (kind : Token.Kind)
  | typeName
  | expression
  /-- Between the statements of a compound statement. -/
  | separatorOrEnd
  deriving DecidableEq, Repr

def Expectation.text : Expectation → String
  | .token kind => kind.text
  | .typeName => "a type (INTEGER or REAL)"
  | .expression => "expression"
  | .separatorOrEnd => "';' or END"

inductive ParseFault where
  | lexical (fault : LexFault)
  | unexpected (expected : Expectation) (found : Token) (line : Nat)
  | tooDeep (limit : Nat) (line : Nat)
  deriving DecidableEq, Repr

inductive ScopeFault where
  | duplicate (name : String) (line : Nat)
  | unresolved (name : String) (line : Nat)
  /-- A scope that is not open any more was used. -/
  | closed (scope : Nat)
  deriving DecidableEq, Repr

/-- The identifier that a scoping fault is about. -/
def ScopeFault.name? : ScopeFault → Option String
  | .duplicate name _ => some name
  | .unresolved name _ => some name
  | .closed _ => none

inductive RunFault where
  | undefinedVariable (name : String) (line : Nat)
  | divisionByZero (line : Nat)
  | overflow (line : Nat)
  | integerTooLarge (line : Nat)
  deriving DecidableEq, Repr

inductive Fault where
  | parse (fault : ParseFault)
  | scope (fault : ScopeFault)
  | run (fault : RunFault)
  deriving DecidableEq, Repr

/-- A report that concerns a line. -/
def onLine (line : Nat) (report : String) : String :=
  "Error on line " ++ toString line ++ ": " ++ report

/-- A report that concerns one place of a line. -/
def atPosition (position : Position) (report : String) : String :=
  "Error on line " ++ toString position.line ++ ", column " ++ toString position.column ++ ": " ++
    report

def LexFault.message : LexFault → String
  | .invalidCharacter character position =>
    atPosition position ("Invalid character '" ++ character.toString ++ "'.")
  | .unterminatedComment position => atPosition position "Unterminated comment."
  | .literalTooLarge literal line => onLine line ("Numeric literal " ++ literal ++ " is too large.")

def ParseFault.message : ParseFault → String
  | .lexical fault => fault.message
  | .unexpected expected found line =>
    onLine line ("Syntax error: expected " ++ expected.text ++ ", found " ++ found.text ++ ".")
  | .tooDeep limit line =>
    onLine line ("Syntax tree too deep (limit " ++ toString limit ++ " levels).")

def ScopeFault.message : ScopeFault → String
  | .duplicate name line => onLine line ("Duplicate identifier '" ++ name ++ "' found.")
  | .unresolved name line => onLine line ("Identifier not found: '" ++ name ++ "'.")
  | .closed scope => "Scope " ++ toString scope ++ " is closed."

def RunFault.message : RunFault → String
  | .undefinedVariable name line => onLine line ("Undefined variable '" ++ name ++ "'.")
  | .divisionByZero line => onLine line "Division by zero."
  | .overflow line => onLine line "Integer overflow while trying to compute result."
  | .integerTooLarge line => onLine line "Integer is too large to be represented as a real."

def Fault.message : Fault → String
  | .parse fault => fault.message
  | .scope fault => fault.message
  | .run fault => fault.message

end MiniPascal
