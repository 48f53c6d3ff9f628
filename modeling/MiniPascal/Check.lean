import MiniPascal.Scope.Walk

/-!
Checking that a program declares each name once per scope and uses only names it can see.

The pass follows the text: declarations in order, for a procedure its heading and then its block,
and last the body of the block. In an assignment the target comes before the value, and in an
expression the left operand before the right one.
-/

set_option autoImplicit false
set_option relaxedAutoImplicit false

namespace MiniPascal.Check

open Walk

def expression (scope : ScopeId) : Expression → Walk Unit
  | .constant .. => return
  | .read mention => do
    let _ ← resolveMention scope mention
  | .unary _ operand _ => expression scope operand
  | .binary _ left right _ => do
    expression scope left
    expression scope right

mutual

def statement (scope : ScopeId) : Statement → Walk Unit
  | .compound inner => statements scope inner
  | .assign target value _ => do
    let _ ← resolveMention scope target
    expression scope value
  | .empty => return

def statements (scope : ScopeId) : List Statement → Walk Unit
  | [] => return
  | first :: others => do
    statement scope first
    statements scope others

end

mutual

def declaration (scope : ScopeId) : Declaration → Walk Unit
  | .var declared => do
    let _ ← declareVariable scope declared
  | .procedure heading inner body => do
    let (id, _) ← openProcedure scope heading
    declarations id inner
    statements id body
    let _ ← pop id

def declarations (scope : ScopeId) : List Declaration → Walk Unit
  | [] => return
  | first :: others => do
    declaration scope first
    declarations scope others

end

def block (scope : ScopeId) (content : Block) : Walk Unit := do
  declarations scope content.declarations
  statements scope content.body

def program (content : Program) : Walk Unit := do
  let scope ← push "global" Scopes.builtinsId
  block scope content.block
  let _ ← pop scope

end MiniPascal.Check
