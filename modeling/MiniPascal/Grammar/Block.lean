import MiniPascal.Grammar.Expression

/-!
Statements, declarations and blocks.

```text
block      := (VAR (group ";")+)* (procedure)* compound
group      := identifier ("," identifier)* ":" type
procedure  := PROCEDURE identifier ("(" group (";" group)* ")")? ";" block ";"
compound   := BEGIN statement (";" statement)* END
statement  := compound | identifier ":=" expression | (nothing)
```

Compound statements and procedures are one level deeper than what they stand in; `levels` bounds
the recursion as it does for expressions.
-/

set_option autoImplicit false
set_option relaxedAutoImplicit false

namespace MiniPascal

namespace Rule

/-! ### Statements -/

def assignment (limit levels : Nat) : Rule Statement := do
  let target ← mention
  let line := (← expect (.mark .assign)).position.line
  return .assign target (← expression limit levels) line

/-- Statements, given the rule for compound statements inside them. -/
def statementOf (limit levels : Nat) (compound : Rule (List Statement)) : Rule Statement := do
  match ← peek with
  | .keyword .beginBlock => return .compound (← compound)
  | .identifier _ => assignment limit levels
  | _ => return .empty

/-- An identifier behind a statement means that a separator is missing, and is reported so. -/
def compound (limit : Nat) : Nat → Rule (List Statement)
  | 0 => tooDeep limit
  | levels + 1 => nested limit do
    let _ ← expect (.keyword .beginBlock)
    let statements ←
      separated (.mark .semicolon) (statementOf limit levels (compound limit levels))
    if (← peek).kind = .identifier then unexpected .separatorOrEnd
    let _ ← expect (.keyword .endBlock)
    return statements

def statement (limit levels : Nat) : Rule Statement :=
  statementOf limit levels (compound limit levels)

/-! ### Declarations -/

def scalarType : Rule Mention := do
  let line ← currentLine
  match ← peek with
  | .keyword .integer =>
    let _ ← advance
    return ⟨Keyword.integer.text, line⟩
  | .keyword .real =>
    let _ ← advance
    return ⟨Keyword.real.text, line⟩
  | _ => unexpected .typeName

/-- Names that share a type: one declaration each, in order. -/
def group : Rule (List VariableDeclaration) := do
  let names ← separated (.mark .comma) mention
  let _ ← expect (.mark .colon)
  let typeName ← scalarType
  return names.map fun name ↦ ⟨name, typeName⟩

/-- A group with the semicolon that ends it. -/
def closedGroup : Rule (List VariableDeclaration) := do
  let declared ← group
  let _ ← expect (.mark .semicolon)
  return declared

/-- The groups behind one `VAR`. -/
def variableSection : Rule (List VariableDeclaration) := do
  let _ ← advance
  let first ← closedGroup
  let others ← repeatOn (onKind .identifier) fun _ ↦ closedGroup
  return (first :: others).flatten

def variableSections : Rule (List VariableDeclaration) := do
  return (← repeatOn (onKind (.keyword .var)) fun _ ↦ variableSection).flatten

/-- Parameters in parentheses, or none at all. -/
def parameters : Rule (List VariableDeclaration) := do
  if (← peek).kind = .mark .leftParen then
    let _ ← advance
    let groups ← separated (.mark .semicolon) group
    let _ ← expect (.mark .rightParen)
    return groups.flatten
  else return []

/-- Blocks, given the rule for procedures inside them. -/
def blockOf (limit levels : Nat) (procedure : Rule Declaration) : Rule Block := do
  let declared ← variableSections
  let procedures ← repeatOn (onKind (.keyword .procedure)) fun _ ↦ procedure
  return ⟨declared.map .var ++ procedures, ← compound limit levels⟩

def procedure (limit : Nat) : Nat → Rule Declaration
  | 0 => tooDeep limit
  | levels + 1 => nested limit do
    let line := (← expect (.keyword .procedure)).position.line
    let name := (← mention).name
    let declared ← parameters
    let _ ← expect (.mark .semicolon)
    let block ← blockOf limit levels (procedure limit levels)
    let _ ← expect (.mark .semicolon)
    return .procedure ⟨name, line, declared⟩ block.declarations block.body

def block (limit levels : Nat) : Rule Block := blockOf limit levels (procedure limit levels)

end Rule

end MiniPascal
