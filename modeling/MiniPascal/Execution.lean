import MiniPascal.Arithmetic
import MiniPascal.Event
import MiniPascal.Table

/-!
Running statements.

There is one store for the whole program, in which a variable exists from its first assignment on.
Procedures are never called, so only the body of the program itself runs. A statement that fails
keeps what it assigned before.
-/

set_option autoImplicit false
set_option relaxedAutoImplicit false

namespace MiniPascal

/-- The variables assigned so far, by name. -/
abbrev Store := Table Value

/-- The value of an expression. Operands are evaluated from left to right. -/
def Expression.eval (store : Store) : Expression → Except RunFault Value
  | .constant value _ => .ok value
  | .read mention =>
    match store.get? mention.name with
    | some value => .ok value
    | none => .error (.undefinedVariable mention.name mention.line)
  | .unary sign operand line => do sign.apply (← operand.eval store) line
  | .binary operator left right line => do
    let first ← left.eval store
    let second ← right.eval store
    operator.apply first second line

/-- The store with a record of the assignments that made it, the latest last. -/
structure Memory where
  store : Store
  log : Array Event
  deriving DecidableEq, Repr

def Memory.start : Memory := ⟨Table.empty, #[]⟩

abbrev Run (α : Type) := EStateM RunFault Memory α

namespace Run

def assign (name : String) (value : Value) : Run Unit :=
  modify fun memory ↦
    ⟨memory.store.insert name value, memory.log.push (.assigned name value)⟩

/-- The value of an expression in the store as it stands. -/
def evaluate (expression : Expression) : Run Value := fun memory ↦
  match expression.eval memory.store with
  | .ok value => .ok value memory
  | .error fault => .error fault memory

mutual

def statement : Statement → Run Unit
  | .compound inner => statements inner
  | .assign target value _ => do assign target.name (← evaluate value)
  | .empty => return

def statements : List Statement → Run Unit
  | [] => return
  | first :: others => do
    statement first
    statements others

end

/-- Runs the body of a program and returns the store it leaves. -/
def program (content : Program) : Run Store := do
  statements content.block.body
  return (← get).store

end Run

end MiniPascal
