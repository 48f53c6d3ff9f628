import MiniPascal.Proofs.Scope.Plan

/-!
# The passes as plans

`Check.Planned` and `Annotate.Planned` are checking and annotating operation by operation.
Performing them is the passes themselves (`Check.Planned.perform_program`,
`Annotate.Planned.perform_program`).
Both passes open a scope for a block and close it behind the block in the same way, which is said
once: `Plan.enclosed` and `Plan.within`.
-/

set_option autoImplicit false
set_option relaxedAutoImplicit false

namespace MiniPascal

/-! ### Scopes of blocks -/

namespace Plan

variable {α : Type}

/-- Goes through a block in a scope of its own. -/
def enclosed (name : String) (enclosing : ScopeId) (block : ScopeId → Plan α) : Plan α := do
  let id ← push name enclosing
  let value ← block id
  let _ ← pop id
  return value

/-- Goes through the block of a procedure in the scope of its parameters. -/
def within (id : ScopeId) (heading : Heading) (block : ScopeId → Plan α) :
    Plan (List TypedName × α) := do
  let opened ← openProcedure id heading
  let value ← block opened.1
  let _ ← pop opened.1
  return (opened.2, value)

end Plan

/-! ### Checking -/

open Plan

namespace Check.Planned

def expression (scope : ScopeId) : Expression → Plan Unit
  | .constant .. => return
  | .read mention => do
    let _ ← resolveMention scope mention
  | .unary _ operand _ => expression scope operand
  | .binary _ left right _ => do
    expression scope left
    expression scope right

mutual

def statement (scope : ScopeId) : Statement → Plan Unit
  | .compound inner => statements scope inner
  | .assign target value _ => do
    let _ ← resolveMention scope target
    expression scope value
  | .empty => return

def statements (scope : ScopeId) : List Statement → Plan Unit
  | [] => return
  | first :: others => do
    statement scope first
    statements scope others

end

mutual

def declaration (scope : ScopeId) : Declaration → Plan Unit
  | .var declared => do
    let _ ← declareVariable scope declared
  | .procedure heading inner body => do
    let _ ← within scope heading fun id ↦ do
      declarations id inner
      statements id body

def declarations (scope : ScopeId) : List Declaration → Plan Unit
  | [] => return
  | first :: others => do
    declaration scope first
    declarations scope others

end

def block (scope : ScopeId) (content : Block) : Plan Unit := do
  declarations scope content.declarations
  statements scope content.body

def program (content : Program) : Plan Unit :=
  enclosed "global" Scopes.builtinsId fun scope ↦ block scope content.block

theorem perform_expression (scope : ScopeId) (e : Expression) :
    (expression scope e).perform = Check.expression scope e := by
  induction e with
  | constant value line => rfl
  | read mention => simp [expression, Check.expression]
  | unary sign operand line induct => exact induct
  | binary operator left right line inductLeft inductRight =>
    simp [expression, Check.expression, inductLeft, inductRight]

mutual

theorem perform_statement (scope : ScopeId) (s : Statement) :
    (statement scope s).perform = Check.statement scope s := by
  cases s with
  | compound inner =>
    rw [statement, Check.statement]
    exact perform_statements scope inner
  | assign target value line => simp [statement, Check.statement, perform_expression]
  | empty => simp [statement, Check.statement]

theorem perform_statements (scope : ScopeId) (ss : List Statement) :
    (statements scope ss).perform = Check.statements scope ss := by
  cases ss with
  | nil => simp [statements, Check.statements]
  | cons first others =>
    rw [statements, perform_bind, perform_statement scope first, Check.statements]
    exact congrArg _ (funext fun _ ↦ perform_statements scope others)

end

mutual

theorem perform_declaration (scope : ScopeId) (d : Declaration) :
    (declaration scope d).perform = Check.declaration scope d := by
  cases d with
  | var declared => simp [declaration, Check.declaration]
  | procedure heading inner body =>
    have hinner (id : ScopeId) := perform_declarations id inner
    simp [declaration, Check.declaration, within, hinner, perform_statements]

theorem perform_declarations (scope : ScopeId) (ds : List Declaration) :
    (declarations scope ds).perform = Check.declarations scope ds := by
  cases ds with
  | nil => simp [declarations, Check.declarations]
  | cons first others =>
    rw [declarations, perform_bind, perform_declaration scope first, Check.declarations]
    exact congrArg _ (funext fun _ ↦ perform_declarations scope others)

end

theorem perform_block (scope : ScopeId) (content : Block) :
    (block scope content).perform = Check.block scope content := by
  simp [block, Check.block, perform_declarations, perform_statements]

theorem perform_program (content : Program) :
    (program content).perform = Check.program content := by
  simp [program, Check.program, enclosed, perform_block]

end Check.Planned

/-! ### Annotating -/

namespace Annotate.Planned

def mention (scope : ScopeId) (used : Mention) : Plan String := do
  let resolved ← resolveMention scope used
  return "<" ++ tagged used.name resolved.level ++ ":" ++ symbolTag resolved.symbol ++ ">"

def expression (scope : ScopeId) : Expression → Plan String
  | .constant value _ => return value.text
  | .read used => mention scope used
  | .unary sign operand _ => do
    let text ← expression scope operand
    return sign.text ++ parenthesizedIf (precedence? operand).isSome text
  | .binary operator left right _ => do
    let first ← expression scope left
    let second ← expression scope right
    let looser := (precedence? left).any (· < operator.precedence)
    let notTighter := (precedence? right).any (· ≤ operator.precedence)
    return parenthesizedIf looser first ++ " " ++ operator.text ++ " " ++
      parenthesizedIf notTighter second

mutual

def statement (scope : ScopeId) : Statement → Plan (List String)
  | .compound inner => do
    let lines ← statements scope inner
    return "begin" :: lines.map (indentation ++ ·) ++ ["end;"]
  | .assign target value _ => do
    let first ← mention scope target
    let second ← expression scope value
    return [first ++ " := " ++ second ++ ";"]
  | .empty => return []

def statements (scope : ScopeId) : List Statement → Plan (List String)
  | [] => return []
  | first :: others => do
    let lines ← statement scope first
    return lines ++ (← statements scope others)

end

mutual

def declaration (scope : ScopeId) : Declaration → Plan String
  | .var declared => do
    let typed ← declareVariable scope declared
    return variableText typed (← Plan.scope scope).level
  | .procedure heading inner body => do
    let level := (← Plan.scope scope).level
    let (parameters, innerLevel, text) ← within scope heading fun id ↦ do
      let innerLevel := (← Plan.scope id).level
      let declared ← declarations id inner
      return (innerLevel, blockText declared (← statements id body))
    return indentText (headingText heading.name level parameters innerLevel ++ "\n" ++
      text ++ ";" ++ closing heading.name)

def declarations (scope : ScopeId) : List Declaration → Plan (List String)
  | [] => return []
  | first :: others => do
    let text ← declaration scope first
    return text :: (← declarations scope others)

end

def block (scope : ScopeId) (content : Block) : Plan String := do
  let declared ← declarations scope content.declarations
  return blockText declared (← statements scope content.body)

def program (content : Program) : Plan String := do
  let text ← enclosed "global" Scopes.builtinsId fun scope ↦ block scope content.block
  return "program " ++ tagged content.name 0 ++ ";\n" ++ text ++ "." ++ closing content.name

theorem perform_mention (scope : ScopeId) (used : Mention) :
    (mention scope used).perform = Annotate.mention scope used := by
  simp [mention, Annotate.mention]

theorem perform_expression (scope : ScopeId) (e : Expression) :
    (expression scope e).perform = Annotate.expression scope e := by
  induction e with
  | constant value line => rfl
  | read used => exact perform_mention scope used
  | unary sign operand line induct => simp [expression, Annotate.expression, induct]
  | binary operator left right line inductLeft inductRight =>
    simp [expression, Annotate.expression, inductLeft, inductRight]

mutual

theorem perform_statement (scope : ScopeId) (s : Statement) :
    (statement scope s).perform = Annotate.statement scope s := by
  cases s with
  | compound inner =>
    simp [statement, Annotate.statement, perform_statements scope inner]
  | assign target value line =>
    simp [statement, Annotate.statement, perform_mention, perform_expression]
  | empty => simp [statement, Annotate.statement]

theorem perform_statements (scope : ScopeId) (ss : List Statement) :
    (statements scope ss).perform = Annotate.statements scope ss := by
  cases ss with
  | nil => simp [statements, Annotate.statements]
  | cons first others =>
    simp [statements, Annotate.statements, perform_statement scope first,
      perform_statements scope others]

end

mutual

theorem perform_declaration (scope : ScopeId) (d : Declaration) :
    (declaration scope d).perform = Annotate.declaration scope d := by
  cases d with
  | var declared => simp [declaration, Annotate.declaration]
  | procedure heading inner body =>
    have hinner (id : ScopeId) := perform_declarations id inner
    simp [declaration, Annotate.declaration, within, hinner, perform_statements]

theorem perform_declarations (scope : ScopeId) (ds : List Declaration) :
    (declarations scope ds).perform = Annotate.declarations scope ds := by
  cases ds with
  | nil => simp [declarations, Annotate.declarations]
  | cons first others =>
    simp [declarations, Annotate.declarations, perform_declaration scope first,
      perform_declarations scope others]

end

theorem perform_block (scope : ScopeId) (content : Block) :
    (block scope content).perform = Annotate.block scope content := by
  simp [block, Annotate.block, perform_declarations, perform_statements]

theorem perform_program (content : Program) :
    (program content).perform = Annotate.program content := by
  simp [program, Annotate.program, enclosed, perform_block]

end Annotate.Planned

end MiniPascal
