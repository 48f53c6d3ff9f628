import MiniPascal.Grammar.Program
import MiniPascal.Proofs.Nesting.Routine

/-!
# The grammar step by step

The rules of the grammar as routines, each in the shape of its rule. `Part` names the parts of a
program that are read by a rule of their own, and `Part.perform_routine` says that performing the
routine of a part is that rule.
-/

set_option autoImplicit false
set_option relaxedAutoImplicit false

namespace MiniPascal

namespace Routine

/-! ### Expressions -/

def mention : Routine Mention := do
  let (name, line) ← identifier
  return ⟨name, line⟩

/-- A link opens a level that stays open. -/
def link (limit : Nat) (operand : Routine Expression) (operator : Operator) :
    Routine Rule.Link := do
  descend limit
  let line := (← advance).position.line
  return ⟨operator, line, ← operand⟩

def chain (limit : Nat) (select : Token → Option Operator) (operand : Routine Expression) :
    Routine Expression := do
  let first ← operand
  let links ← repeatOn select (link limit operand)
  ascend links.length
  return links.foldl Rule.Link.join first

def termOf (limit : Nat) (factor : Routine Expression) : Routine Expression :=
  chain limit Rule.multiplicative factor

def expressionOf (limit : Nat) (factor : Routine Expression) : Routine Expression :=
  chain limit Rule.additive (termOf limit factor)

def factor (limit : Nat) : Nat → Routine Expression
  | 0 => tooDeep limit
  | levels + 1 => nested limit do
    let line ← currentLine
    match ← peek with
    | .mark .plus =>
      let _ ← advance
      return .unary .plus (← factor limit levels) line
    | .mark .minus =>
      let _ ← advance
      return .unary .minus (← factor limit levels) line
    | .integer n =>
      let _ ← advance
      return .constant (.integer n) line
    | .real r =>
      let _ ← advance
      return .constant (.real r) line
    | .mark .leftParen =>
      let _ ← advance
      let inner ← expressionOf limit (factor limit levels)
      let _ ← expect (.mark .rightParen)
      return inner
    | .identifier _ => return .read (← mention)
    | .keyword _ | .mark _ | .eof => unexpected .expression

@[simp] theorem perform_mention : mention.perform = Rule.mention := by
  simp [mention, Rule.mention]

@[simp] theorem perform_chain (limit : Nat) (select : Token → Option Operator)
    (operand : Routine Expression) :
    (chain limit select operand).perform = Rule.chain limit select operand.perform := by
  simp [chain, link, Rule.chain]

@[simp] theorem perform_termOf (limit : Nat) (factor : Routine Expression) :
    (termOf limit factor).perform = Rule.termOf limit factor.perform :=
  perform_chain limit Rule.multiplicative factor

@[simp] theorem perform_expressionOf (limit : Nat) (factor : Routine Expression) :
    (expressionOf limit factor).perform = Rule.expressionOf limit factor.perform := by
  rw [expressionOf, perform_chain, perform_termOf, Rule.expressionOf]

@[simp] theorem perform_factor (limit levels : Nat) :
    (factor limit levels).perform = Rule.factor limit levels := by
  induction levels with
  | zero => exact perform_tooDeep limit
  | succ levels induct =>
    rw [factor, perform_nested, Rule.factor]
    refine congrArg _ ?_
    rw [perform_bind, perform_currentLine]
    refine congrArg _ (funext fun line ↦ ?_)
    rw [perform_bind, perform_peek]
    refine congrArg _ (funext fun token ↦ ?_)
    split <;> simp [induct]

/-! ### Statements -/

def assignment (limit levels : Nat) : Routine Statement := do
  let target ← mention
  let line := (← expect (.mark .assign)).position.line
  return .assign target (← expressionOf limit (factor limit levels)) line

def statementOf (limit levels : Nat) (compound : Routine (List Statement)) : Routine Statement := do
  match ← peek with
  | .keyword .beginBlock => return .compound (← compound)
  | .identifier _ => assignment limit levels
  | _ => return .empty

def compound (limit : Nat) : Nat → Routine (List Statement)
  | 0 => tooDeep limit
  | levels + 1 => nested limit do
    let _ ← expect (.keyword .beginBlock)
    let statements ←
      separated (.mark .semicolon) (statementOf limit levels (compound limit levels))
    if (← peek).kind = .identifier then unexpected .separatorOrEnd
    let _ ← expect (.keyword .endBlock)
    return statements

@[simp] theorem perform_assignment (limit levels : Nat) :
    (assignment limit levels).perform = Rule.assignment limit levels := by
  simp [assignment, Rule.assignment, Rule.expression]

@[simp] theorem perform_statementOf (limit levels : Nat) (compound : Routine (List Statement)) :
    (statementOf limit levels compound).perform =
      Rule.statementOf limit levels compound.perform := by
  rw [statementOf, perform_bind, perform_peek, Rule.statementOf]
  refine congrArg _ (funext fun token ↦ ?_)
  split <;> simp

@[simp] theorem perform_compound (limit levels : Nat) :
    (compound limit levels).perform = Rule.compound limit levels := by
  induction levels with
  | zero => exact perform_tooDeep limit
  | succ levels induct =>
    rw [compound, perform_nested, Rule.compound]
    refine congrArg _ ?_
    simp only [perform_bind, perform_expect, perform_separated, perform_statementOf, induct,
      perform_peek]
    refine congrArg _ (funext fun _ ↦ congrArg _ (funext fun statements ↦ ?_))
    refine congrArg _ (funext fun token ↦ ?_)
    split <;> simp

/-! ### Declarations -/

def scalarType : Routine Mention := do
  let line ← currentLine
  match ← peek with
  | .keyword .integer =>
    let _ ← advance
    return ⟨Keyword.integer.text, line⟩
  | .keyword .real =>
    let _ ← advance
    return ⟨Keyword.real.text, line⟩
  | _ => unexpected .typeName

def names : Routine (List Mention) := separated (.mark .comma) mention

def group : Routine (List VariableDeclaration) := do
  let found ← names
  let _ ← expect (.mark .colon)
  let typeName ← scalarType
  return found.map fun name ↦ ⟨name, typeName⟩

def closedGroup : Routine (List VariableDeclaration) := do
  let declared ← group
  let _ ← expect (.mark .semicolon)
  return declared

def variableSection : Routine (List VariableDeclaration) := do
  let _ ← advance
  let first ← closedGroup
  let others ← repeatOn (Rule.onKind .identifier) fun _ ↦ closedGroup
  return (first :: others).flatten

def variableSections : Routine (List VariableDeclaration) := do
  return (← repeatOn (Rule.onKind (.keyword .var)) fun _ ↦ variableSection).flatten

def parameters : Routine (List VariableDeclaration) := do
  if (← peek).kind = .mark .leftParen then
    let _ ← advance
    let groups ← separated (.mark .semicolon) group
    let _ ← expect (.mark .rightParen)
    return groups.flatten
  else return []

def blockOf (limit levels : Nat) (procedure : Routine Declaration) : Routine Block := do
  let declared ← variableSections
  let procedures ← repeatOn (Rule.onKind (.keyword .procedure)) fun _ ↦ procedure
  return ⟨declared.map .var ++ procedures, ← compound limit levels⟩

def procedure (limit : Nat) : Nat → Routine Declaration
  | 0 => tooDeep limit
  | levels + 1 => nested limit do
    let line := (← expect (.keyword .procedure)).position.line
    let name := (← mention).name
    let declared ← parameters
    let _ ← expect (.mark .semicolon)
    let block ← blockOf limit levels (procedure limit levels)
    let _ ← expect (.mark .semicolon)
    return .procedure ⟨name, line, declared⟩ block.declarations block.body

def program (limit : Nat) : Routine Program := do
  let line := (← expect (.keyword .program)).position.line
  let name := (← mention).name
  let _ ← expect (.mark .semicolon)
  let content ← blockOf limit limit (procedure limit limit)
  let _ ← expect (.mark .dot)
  let _ ← expect .eof
  return ⟨name, line, content⟩

@[simp] theorem perform_scalarType : scalarType.perform = Rule.scalarType := by
  rw [scalarType, perform_bind, perform_currentLine, Rule.scalarType]
  refine congrArg _ (funext fun line ↦ ?_)
  rw [perform_bind, perform_peek]
  refine congrArg _ (funext fun token ↦ ?_)
  split <;> simp

@[simp] theorem perform_names :
    names.perform = Rule.separated (.mark .comma) Rule.mention := by
  simp [names]

@[simp] theorem perform_group : group.perform = Rule.group := by
  simp [group, Rule.group]

@[simp] theorem perform_closedGroup : closedGroup.perform = Rule.closedGroup := by
  simp [closedGroup, Rule.closedGroup]

@[simp] theorem perform_variableSection : variableSection.perform = Rule.variableSection := by
  simp [variableSection, Rule.variableSection]

@[simp] theorem perform_variableSections : variableSections.perform = Rule.variableSections := by
  simp [variableSections, Rule.variableSections]

@[simp] theorem perform_parameters : parameters.perform = Rule.parameters := by
  rw [parameters, perform_bind, perform_peek, Rule.parameters]
  refine congrArg _ (funext fun token ↦ ?_)
  split <;> simp

@[simp] theorem perform_blockOf (limit levels : Nat) (procedure : Routine Declaration) :
    (blockOf limit levels procedure).perform =
      Rule.blockOf limit levels procedure.perform := by
  simp [blockOf, Rule.blockOf]

@[simp] theorem perform_procedure (limit levels : Nat) :
    (procedure limit levels).perform = Rule.procedure limit levels := by
  induction levels with
  | zero => exact perform_tooDeep limit
  | succ levels induct => simp [procedure, Rule.procedure, induct]

@[simp] theorem perform_program (limit : Nat) : (program limit).perform = Rule.program limit := by
  simp [program, Rule.program, Rule.block]

end Routine

/-! ### Parts of a program -/

/-- A part of a program that a rule of the grammar reads. -/
inductive Part : Type → Type
  | program : Part Program
  | block : Part Block
  | declarations : Part (List Declaration)
  | variableSections : Part (List VariableDeclaration)
  | variableSection : Part (List VariableDeclaration)
  | closedGroup : Part (List VariableDeclaration)
  | group : Part (List VariableDeclaration)
  | names : Part (List Mention)
  | typeName : Part Mention
  | procedure : Part Declaration
  | parameters : Part (List VariableDeclaration)
  | groups : Part (List (List VariableDeclaration))
  | compound : Part (List Statement)
  | statement : Part Statement
  | assignment : Part Statement
  | mention : Part Mention
  | expression : Part Expression
  | term : Part Expression
  | factor : Part Expression

namespace Part

variable {α : Type}

/-- The rule that reads the part. As in the grammar, `levels` bounds its recursion. -/
def rule (limit levels : Nat) : Part α → Rule α
  | program => Rule.program limit
  | block => Rule.block limit levels
  | declarations => do
    let declared ← Rule.variableSections
    let procedures ← Rule.repeatOn (Rule.onKind (.keyword .procedure)) fun _ ↦
      Rule.procedure limit levels
    return declared.map .var ++ procedures
  | variableSections => Rule.variableSections
  | variableSection => Rule.variableSection
  | closedGroup => Rule.closedGroup
  | group => Rule.group
  | names => Rule.separated (.mark .comma) Rule.mention
  | typeName => Rule.scalarType
  | procedure => Rule.procedure limit levels
  | parameters => Rule.parameters
  | groups => Rule.separated (.mark .semicolon) Rule.group
  | compound => Rule.compound limit levels
  | statement => Rule.statement limit levels
  | assignment => Rule.assignment limit levels
  | mention => Rule.mention
  | expression => Rule.expression limit levels
  | term => Rule.term limit levels
  | factor => Rule.factor limit levels

/-- The same rule step by step. -/
def routine (limit levels : Nat) : Part α → Routine α
  | program => Routine.program limit
  | block => Routine.blockOf limit levels (Routine.procedure limit levels)
  | declarations => do
    let declared ← Routine.variableSections
    let procedures ← Routine.repeatOn (Rule.onKind (.keyword .procedure)) fun _ ↦
      Routine.procedure limit levels
    return declared.map .var ++ procedures
  | variableSections => Routine.variableSections
  | variableSection => Routine.variableSection
  | closedGroup => Routine.closedGroup
  | group => Routine.group
  | names => Routine.names
  | typeName => Routine.scalarType
  | procedure => Routine.procedure limit levels
  | parameters => Routine.parameters
  | groups => Routine.separated (.mark .semicolon) Routine.group
  | compound => Routine.compound limit levels
  | statement => Routine.statementOf limit levels (Routine.compound limit levels)
  | assignment => Routine.assignment limit levels
  | mention => Routine.mention
  | expression => Routine.expressionOf limit (Routine.factor limit levels)
  | term => Routine.termOf limit (Routine.factor limit levels)
  | factor => Routine.factor limit levels

theorem perform_routine (part : Part α) (limit levels : Nat) :
    (part.routine limit levels).perform = part.rule limit levels := by
  cases part with
  | block => simp [routine, rule, Rule.block]
  | statement => simp [routine, rule, Rule.statement]
  | expression => simp [routine, rule, Rule.expression]
  | term => simp [routine, rule, Rule.term]
  | _ => simp [routine, rule]

end Part

end MiniPascal
