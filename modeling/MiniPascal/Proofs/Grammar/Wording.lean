import MiniPascal.Program
import MiniPascal.Token.Scanner

/-!
# The tree of a text

Which lexemes write which part of a program: the productions of the grammar once more, each with the
tree that it builds. `Wording.Expr` says how operators group. Chains lean to the left because the
left operand of a link is a chain of the same strength, and a prefix operator takes a factor, so it
binds tighter than any infix operator. Lines are those of the lexemes named in the production.

No wording looks at a cursor, a limit or a lexeme behind its own; that `parse` finds exactly the
program that the lexemes of a text write is proved elsewhere.
-/

set_option autoImplicit false
set_option relaxedAutoImplicit false

namespace MiniPascal

/-- Which lexemes write which value. -/
abbrev Wording (α : Type) := List Lexeme → α → Prop

def Sign.mark : Sign → Mark
  | .plus => .plus
  | .minus => .minus

def Operator.mark : Operator → Mark
  | .add => .plus
  | .sub => .minus
  | .mul => .star
  | .realDiv => .slash
  | .floorDiv => .doubleSlash

namespace Wording

/-- One or more items with a mark between any two. -/
inductive Separated {α : Type} (sign : Mark) (item : Wording α) : Wording (List α)
  | one {x : List Lexeme} {v : α} : item x v → Separated sign item x [v]
  | more {x y : List Lexeme} {v : α} {vs : List α} (p : Position) :
      item x v → Separated sign item y vs →
        Separated sign item (x ++ ⟨.mark sign, p⟩ :: y) (v :: vs)

/-- Any number of items, one behind the other. -/
inductive Many {α : Type} (item : Wording α) : Wording (List α)
  | nil : Many item [] []
  | cons {x y : List Lexeme} {v : α} {vs : List α} :
      item x v → Many item y vs → Many item (x ++ y) (v :: vs)

/-! ### Expressions -/

/-- How tightly an expression holds together as it is written. -/
inductive Strength where
  | factor
  | term
  | expression
  deriving DecidableEq, Repr

inductive Expr : Strength → Wording Expression
  | signed {x : List Lexeme} {operand : Expression} (sign : Sign) (p : Position) :
      Expr .factor x operand → Expr .factor (⟨.mark sign.mark, p⟩ :: x) (.unary sign operand p.line)
  | integer (n : Int64) (p : Position) :
      Expr .factor [⟨.integer n, p⟩] (.constant (.integer n) p.line)
  | real (r : Float) (p : Position) : Expr .factor [⟨.real r, p⟩] (.constant (.real r) p.line)
  | parenthesized {x : List Lexeme} {inner : Expression} (p q : Position) :
      Expr .expression x inner →
        Expr .factor (⟨.mark .leftParen, p⟩ :: (x ++ [⟨.mark .rightParen, q⟩])) inner
  | read (name : String) (p : Position) :
      Expr .factor [⟨.identifier name, p⟩] (.read ⟨name, p.line⟩)
  | factor {x : List Lexeme} {e : Expression} : Expr .factor x e → Expr .term x e
  | product {x y : List Lexeme} {left right : Expression} {operator : Operator} (p : Position) :
      operator.precedence = 2 → Expr .term x left → Expr .factor y right →
        Expr .term (x ++ ⟨.mark operator.mark, p⟩ :: y) (.binary operator left right p.line)
  | term {x : List Lexeme} {e : Expression} : Expr .term x e → Expr .expression x e
  | sum {x y : List Lexeme} {left right : Expression} {operator : Operator} (p : Position) :
      operator.precedence = 1 → Expr .expression x left → Expr .term y right →
        Expr .expression (x ++ ⟨.mark operator.mark, p⟩ :: y) (.binary operator left right p.line)

/-! ### Statements -/

/-- One or more statements with semicolons between them. -/
inductive Sequence : Wording (List Statement)
  | empty : Sequence [] [.empty]
  | assign {x : List Lexeme} {value : Expression} (name : String) (p q : Position) :
      Expr .expression x value →
        Sequence (⟨.identifier name, p⟩ :: ⟨.mark .assign, q⟩ :: x)
          [.assign ⟨name, p.line⟩ value q.line]
  | compound {x : List Lexeme} {inner : List Statement} (p q : Position) :
      Sequence x inner →
        Sequence (⟨.keyword .beginBlock, p⟩ :: (x ++ [⟨.keyword .endBlock, q⟩])) [.compound inner]
  | more {x y : List Lexeme} {first : Statement} {others : List Statement} (p : Position) :
      Sequence x [first] → Sequence y others →
        Sequence (x ++ ⟨.mark .semicolon, p⟩ :: y) (first :: others)

inductive Compound : Wording (List Statement)
  | mk {x : List Lexeme} {inner : List Statement} (p q : Position) :
      Sequence x inner →
        Compound (⟨.keyword .beginBlock, p⟩ :: (x ++ [⟨.keyword .endBlock, q⟩])) inner

/-! ### Declarations -/

inductive Name : Wording Mention
  | mk (name : String) (p : Position) : Name [⟨.identifier name, p⟩] ⟨name, p.line⟩

inductive TypeName : Wording Mention
  | integer (p : Position) : TypeName [⟨.keyword .integer, p⟩] ⟨Keyword.integer.text, p.line⟩
  | real (p : Position) : TypeName [⟨.keyword .real, p⟩] ⟨Keyword.real.text, p.line⟩

/-- Names that share a type: one declaration each, in order. -/
inductive Group : Wording (List VariableDeclaration)
  | mk {x y : List Lexeme} {names : List Mention} {typeName : Mention} (p : Position) :
      Separated .comma Name x names → TypeName y typeName →
        Group (x ++ ⟨.mark .colon, p⟩ :: y) (names.map fun name ↦ ⟨name, typeName⟩)

inductive ClosedGroup : Wording (List VariableDeclaration)
  | mk {x : List Lexeme} {declared : List VariableDeclaration} (p : Position) :
      Group x declared → ClosedGroup (x ++ [⟨.mark .semicolon, p⟩]) declared

/-- What stands behind one `VAR`. -/
inductive Section : Wording (List VariableDeclaration)
  | mk {x y : List Lexeme} {first : List VariableDeclaration}
      {others : List (List VariableDeclaration)} (p : Position) :
      ClosedGroup x first → Many ClosedGroup y others →
        Section (⟨.keyword .var, p⟩ :: (x ++ y)) (first :: others).flatten

inductive Variables : Wording (List VariableDeclaration)
  | mk {x : List Lexeme} {sections : List (List VariableDeclaration)} :
      Many Section x sections → Variables x sections.flatten

/-- Parameters in parentheses, or none at all. -/
inductive Parameters : Wording (List VariableDeclaration)
  | none : Parameters [] []
  | listed {x : List Lexeme} {groups : List (List VariableDeclaration)} (p q : Position) :
      Separated .semicolon Group x groups →
        Parameters (⟨.mark .leftParen, p⟩ :: (x ++ [⟨.mark .rightParen, q⟩])) groups.flatten

/-- Any number of procedures; the block of each is its variables, its procedures and its body. -/
inductive Procedures : Wording (List Declaration)
  | nil : Procedures [] []
  | cons {x v w y z : List Lexeme} {parameters declared : List VariableDeclaration}
      {inner others : List Declaration} {body : List Statement} (name : String)
      (p q r s : Position) :
      Parameters x parameters → Variables v declared → Procedures w inner → Compound y body →
        Procedures z others →
          Procedures
            (⟨.keyword .procedure, p⟩ :: ⟨.identifier name, q⟩ ::
              (x ++ ⟨.mark .semicolon, r⟩ :: (v ++ w ++ y ++ ⟨.mark .semicolon, s⟩ :: z)))
            (.procedure ⟨name, p.line, parameters⟩ (declared.map .var ++ inner) body :: others)

inductive Block : Wording MiniPascal.Block
  | mk {v w y : List Lexeme} {declared : List VariableDeclaration} {inner : List Declaration}
      {body : List Statement} :
      Variables v declared → Procedures w inner → Compound y body →
        Block (v ++ w ++ y) ⟨declared.map .var ++ inner, body⟩

/-- A whole program, the end of the text included. -/
inductive Program : Wording MiniPascal.Program
  | mk {x : List Lexeme} {block : MiniPascal.Block} (name : String) (p q r s t : Position) :
      Block x block →
        Program
          (⟨.keyword .program, p⟩ :: ⟨.identifier name, q⟩ :: ⟨.mark .semicolon, r⟩ ::
            (x ++ [⟨.mark .dot, s⟩, ⟨.eof, t⟩]))
          ⟨name, p.line, block⟩

end Wording

end MiniPascal
