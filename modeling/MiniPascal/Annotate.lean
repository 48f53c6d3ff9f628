import MiniPascal.Scope.Walk
import MiniPascal.Text.Lines

/-!
Writing a program with every name tagged by the level of the scope that declares it.

A declared name is followed by its level, a type by the level of the scalar types, which is zero,
and a reference is written as `<name level:type>`. Parentheses stand only where the tree needs
them. Each `VAR` declares one name, and each block ends with the name it belongs to.

The pass resolves names itself, in the same order as checking does.
-/

set_option autoImplicit false
set_option relaxedAutoImplicit false

namespace MiniPascal.Annotate

open Walk

/-- A declared name with its level. -/
def tagged (name : String) (level : Nat) : String := name ++ toString level

/-- A scalar type with its level. -/
def typeTag (type : Scalar) : String := tagged type.name 0

/-- What a reference says about the symbol it refers to. -/
def symbolTag : Symbol → String
  | .scalar type => typeTag type
  | .var declared => typeTag declared.type
  | .procedure .. => "PROCEDURE"

/-- A declared variable or parameter with its type. -/
def typedTag (declared : TypedName) (level : Nat) : String :=
  tagged declared.name level ++ " : " ++ typeTag declared.type

/-- The comment that ends a block. -/
def closing (name : String) : String := " \x7bEND OF " ++ name ++ "\x7d"

def parenthesizedIf (needed : Bool) (text : String) : String :=
  if needed then "(" ++ text ++ ")" else text

/-- The precedence of an expression that an operator joins; others bind tightest. -/
def precedence? : Expression → Option Nat
  | .binary operator .. => some operator.precedence
  | _ => none

def mention (scope : ScopeId) (used : Mention) : Walk String := do
  let resolved ← resolveMention scope used
  return "<" ++ tagged used.name resolved.level ++ ":" ++ symbolTag resolved.symbol ++ ">"

def expression (scope : ScopeId) : Expression → Walk String
  | .constant value _ => return value.text
  | .read used => mention scope used
  | .unary sign operand _ => do
    let text ← expression scope operand
    return sign.text ++ parenthesizedIf (precedence? operand).isSome text
  | .binary operator left right _ => do
    let first ← expression scope left
    let second ← expression scope right
    let looser := (precedence? left).any (· < operator.precedence)
    let notTighter := (precedence? right).any (· ≤ operator.precedence)
    return parenthesizedIf looser first ++ " " ++ operator.text ++ " " ++
      parenthesizedIf notTighter second

mutual

/-- The lines of a statement, without the indentation of what it stands in. -/
def statement (scope : ScopeId) : Statement → Walk (List String)
  | .compound inner => do
    let lines ← statements scope inner
    return "begin" :: lines.map (indentation ++ ·) ++ ["end;"]
  | .assign target value _ => do
    let first ← mention scope target
    let second ← expression scope value
    return [first ++ " := " ++ second ++ ";"]
  | .empty => return []

def statements (scope : ScopeId) : List Statement → Walk (List String)
  | [] => return []
  | first :: others => do
    let lines ← statement scope first
    return lines ++ (← statements scope others)

end

/-- A block, given the texts of its declarations and the lines of its body. -/
def blockText (declared body : List String) : String :=
  joinLines (declared ++ ["", "begin"] ++ body.map (indentation ++ ·) ++ ["end"])

def variableText (declared : TypedName) (level : Nat) : String :=
  indentation ++ "var " ++ typedTag declared level ++ ";"

/-- The heading of a procedure; its parameters are one level deeper than its name. -/
def headingText (name : String) (level : Nat) (parameters : List TypedName)
    (innerLevel : Nat) : String :=
  let listed :=
    if parameters.isEmpty then ""
    else "(" ++ "; ".intercalate (parameters.map (typedTag · innerLevel)) ++ ")"
  "procedure " ++ tagged name level ++ listed ++ ";"

mutual

def declaration (scope : ScopeId) : Declaration → Walk String
  | .var declared => do
    let typed ← declareVariable scope declared
    return variableText typed (← Walk.scope scope).level
  | .procedure heading inner body => do
    let level := (← Walk.scope scope).level
    let (id, parameters) ← openProcedure scope heading
    let innerLevel := (← Walk.scope id).level
    let declared ← declarations id inner
    let lines ← statements id body
    let _ ← pop id
    return indentText (headingText heading.name level parameters innerLevel ++ "\n" ++
      blockText declared lines ++ ";" ++ closing heading.name)

def declarations (scope : ScopeId) : List Declaration → Walk (List String)
  | [] => return []
  | first :: others => do
    let text ← declaration scope first
    return text :: (← declarations scope others)

end

def block (scope : ScopeId) (content : Block) : Walk String := do
  let declared ← declarations scope content.declarations
  return blockText declared (← statements scope content.body)

def program (content : Program) : Walk String := do
  let scope ← push "global" Scopes.builtinsId
  let text ← block scope content.block
  let _ ← pop scope
  return "program " ++ tagged content.name 0 ++ ";\n" ++ text ++ "." ++ closing content.name

end MiniPascal.Annotate
