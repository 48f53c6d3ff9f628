import MiniPascal.Proofs.Grammar.Wording
import MiniPascal.Proofs.Token.Shape
import MiniPascal.Scope.Symbol
import Mathlib.Data.List.Forall2

/-!
# Programs that are alike

`Program.Like` is equality up to lines, empty statements, and decimal digits behind names. It says
nothing less of everything else: declarations, parameters, types, nesting, the order of statements,
operators, constants and the shape of expressions are the same.

`Writes` says of a sequence of tokens that it writes something good, whatever the positions of the
tokens. The lemmas on it are the productions of `Wording` once more, as far as the writing of
programs uses them.
-/

set_option autoImplicit false
set_option relaxedAutoImplicit false

namespace MiniPascal

/-- The name with decimal digits behind it. -/
def Renamed (name later : String) : Prop :=
  ∃ digits : String, digits ≠ "" ∧ (∀ digit ∈ digits.toList, isDigit digit = true) ∧
    later = name ++ digits

inductive Expression.Like : Expression → Expression → Prop
  | constant (value : Value) (line line' : Nat) :
      Like (.constant value line) (.constant value line')
  | read {used used' : Mention} : Renamed used.name used'.name → Like (.read used) (.read used')
  | unary {e e' : Expression} (sign : Sign) (line line' : Nat) :
      Like e e' → Like (.unary sign e line) (.unary sign e' line')
  | binary {left left' right right' : Expression} (operator : Operator) (line line' : Nat) :
      Like left left' → Like right right' →
        Like (.binary operator left right line) (.binary operator left' right' line')

/-- Statements that are alike but for empty ones, which may stand anywhere on either side. -/
inductive Statement.Like : List Statement → List Statement → Prop
  | nil : Like [] []
  | skip {ss ss' : List Statement} : Like ss ss' → Like (.empty :: ss) ss'
  | skip' {ss ss' : List Statement} : Like ss ss' → Like ss (.empty :: ss')
  | assign {target target' : Mention} {value value' : Expression} {ss ss' : List Statement}
      (line line' : Nat) :
      Renamed target.name target'.name → value.Like value' → Like ss ss' →
        Like (.assign target value line :: ss) (.assign target' value' line' :: ss')
  | compound {inner inner' ss ss' : List Statement} :
      Like inner inner' → Like ss ss' → Like (.compound inner :: ss) (.compound inner' :: ss')

structure VariableDeclaration.Like (declared declared' : VariableDeclaration) : Prop where
  name : Renamed declared.mention.name declared'.mention.name
  type : declared'.typeName.name = declared.typeName.name

inductive Declaration.Like : List Declaration → List Declaration → Prop
  | nil : Like [] []
  | var {declared declared' : VariableDeclaration} {ds ds' : List Declaration} :
      declared.Like declared' → Like ds ds' → Like (.var declared :: ds) (.var declared' :: ds')
  | procedure {heading heading' : Heading} {inner inner' ds ds' : List Declaration}
      {body body' : List Statement} :
      Renamed heading.name heading'.name →
        List.Forall₂ VariableDeclaration.Like heading.parameters heading'.parameters →
          Like inner inner' → Statement.Like body body' → Like ds ds' →
            Like (.procedure heading inner body :: ds) (.procedure heading' inner' body' :: ds')

structure Program.Like (p p' : Program) : Prop where
  name : Renamed p.name p'.name
  declarations : Declaration.Like p.block.declarations p'.block.declarations
  body : Statement.Like p.block.body p'.block.body

theorem Statement.Like.append {ss ss' others others' : List Statement} (hlike : Like ss ss')
    (hothers : Like others others') : Like (ss ++ others) (ss' ++ others') := by
  induction hlike with
  | nil => exact hothers
  | skip _ induct => exact .skip induct
  | skip' _ induct => exact .skip' induct
  | assign line line' htarget hvalue _ induct => exact .assign line line' htarget hvalue induct
  | compound hinner _ _ induct => exact .compound hinner induct

theorem Declaration.Like.vars {declared declared' : List VariableDeclaration}
    {ds ds' : List Declaration}
    (hdeclared : List.Forall₂ VariableDeclaration.Like declared declared') (hds : Like ds ds') :
    Like (declared.map .var ++ ds) (declared'.map .var ++ ds') := by
  induction hdeclared with
  | nil => exact hds
  | cons hfirst _ induct => exact .var hfirst induct

/-! ### Tokens that write something -/

/-- Lexemes with these tokens write something good, wherever they stand. -/
def Writes {α : Type} (wording : Wording α) (tokens : List Token) (good : α → Prop) : Prop :=
  ∀ lexemes : List Lexeme, lexemes.map (·.token) = tokens → ∃ v, wording lexemes v ∧ good v

namespace Writes

variable {α : Type} {wording other : Wording α} {good better : α → Prop}
  {tokens others : List Token}

theorem mono (hwrites : Writes wording tokens good)
    (hall : ∀ x v, wording x v → other x v) (hbetter : ∀ v, good v → better v) :
    Writes other tokens better := by
  intro lexemes htokens
  obtain ⟨v, hwording, hgood⟩ := hwrites lexemes htokens
  exact ⟨v, hall _ v hwording, hbetter v hgood⟩

end Writes

/-! ### Expressions -/

namespace Wording

def Strength.rank : Strength → Nat
  | .factor => 0
  | .term => 1
  | .expression => 2

theorem Expr.weaken {strength weaker : Strength} {x : List Lexeme} {e : Expression}
    (hexpr : Expr strength x e) (hrank : strength.rank ≤ weaker.rank) : Expr weaker x e := by
  cases strength <;> cases weaker <;>
    first
    | exact hexpr
    | exact .factor hexpr
    | exact .term hexpr
    | exact .term (.factor hexpr)
    | exact absurd hrank (by decide)

end Wording

namespace Writes

open Wording (Strength Expr)

variable {tokens others : List Token} {strength weaker : Strength} {e left right : Expression}

theorem weaken (hwrites : Writes (Expr strength) tokens e.Like)
    (hrank : strength.rank ≤ weaker.rank) : Writes (Expr weaker) tokens e.Like :=
  hwrites.mono (fun _ _ hexpr ↦ hexpr.weaken hrank) (fun _ ↦ id)

theorem integer (n : Int64) (line : Nat) :
    Writes (Expr .factor) [.integer n] (Expression.constant (.integer n) line).Like := by
  intro lexemes htokens
  obtain ⟨p, rest, rfl, hrest⟩ := exists_position htokens
  obtain rfl := List.map_eq_nil_iff.1 hrest
  exact ⟨_, .integer n p, .constant _ _ _⟩

theorem real (r : Float) (line : Nat) :
    Writes (Expr .factor) [.real r] (Expression.constant (.real r) line).Like := by
  intro lexemes htokens
  obtain ⟨p, rest, rfl, hrest⟩ := exists_position htokens
  obtain rfl := List.map_eq_nil_iff.1 hrest
  exact ⟨_, .real r p, .constant _ _ _⟩

theorem read {used : Mention} {name : String} (hname : Renamed used.name name) :
    Writes (Expr .factor) [.identifier name] (Expression.read used).Like := by
  intro lexemes htokens
  obtain ⟨p, rest, rfl, hrest⟩ := exists_position htokens
  obtain rfl := List.map_eq_nil_iff.1 hrest
  exact ⟨_, .read name p, .read hname⟩

theorem signed (sign : Sign) (line : Nat) (hwrites : Writes (Expr .factor) tokens e.Like) :
    Writes (Expr .factor) (.mark sign.mark :: tokens) (Expression.unary sign e line).Like := by
  intro lexemes htokens
  obtain ⟨p, rest, rfl, hrest⟩ := exists_position htokens
  obtain ⟨operand, hoperand, hlike⟩ := hwrites rest hrest
  exact ⟨_, .signed sign p hoperand, .unary sign line p.line hlike⟩

theorem parenthesized (hwrites : Writes (Expr .expression) tokens e.Like) :
    Writes (Expr .factor) (.mark .leftParen :: (tokens ++ [.mark .rightParen])) e.Like := by
  intro lexemes htokens
  obtain ⟨p, rest, rfl, hinside⟩ := exists_position htokens
  obtain ⟨x, closing, rfl, hx, hclosing⟩ := List.map_eq_append_iff.1 hinside
  obtain ⟨q, rest, rfl, hrest⟩ := exists_position hclosing
  obtain rfl := List.map_eq_nil_iff.1 hrest
  obtain ⟨inner, hinner, hlike⟩ := hwrites x hx
  exact ⟨inner, .parenthesized p q hinner, hlike⟩

/-- Both kinds of chains, told apart by the precedence of the operator. -/
theorem binary (operator : Operator) (line : Nat)
    (hleft : Writes (Expr (if operator.precedence = 1 then .expression else .term)) tokens
      left.Like)
    (hright : Writes (Expr (if operator.precedence = 1 then .term else .factor)) others
      right.Like) :
    Writes (Expr (if operator.precedence = 1 then .expression else .term))
      (tokens ++ .mark operator.mark :: others)
      (Expression.binary operator left right line).Like := by
  intro lexemes htokens
  obtain ⟨x, rest, rfl, hx, hrest⟩ := List.map_eq_append_iff.1 htokens
  obtain ⟨p, y, rfl, hy⟩ := exists_position hrest
  obtain ⟨first, hfirst, hlike⟩ := hleft x hx
  obtain ⟨second, hsecond, hlike'⟩ := hright y hy
  refine ⟨.binary operator first second p.line, ?_, .binary operator line p.line hlike hlike'⟩
  by_cases hsum : operator.precedence = 1
  · rw [if_pos hsum] at hfirst hsecond ⊢
    exact .sum p hsum hfirst hsecond
  · have hproduct : operator.precedence = 2 := by
      cases operator <;> first | rfl | exact absurd rfl hsum
    rw [if_neg hsum] at hfirst hsecond ⊢
    exact .product p hproduct hfirst hsecond

end Writes

/-! ### Statements -/

namespace Wording

/-- What may stand in front of any sequence of statements. -/
def Leading (x : List Lexeme) (ss : List Statement) : Prop :=
  ∀ y others, Sequence y others → Sequence (x ++ y) (ss ++ others)

end Wording

namespace Writes

open Wording (Leading Expr)

variable {tokens others : List Token} {ss ss' inner : List Statement}

theorem leadingNil : Writes Leading [] (Statement.Like []) := by
  intro lexemes htokens
  obtain rfl := List.map_eq_nil_iff.1 htokens
  exact ⟨[], fun _ _ ↦ id, .nil⟩

theorem leadingEmpty : Writes Leading [] (Statement.Like [.empty]) :=
  leadingNil.mono (fun _ _ ↦ id) fun _ ↦ .skip

theorem leadingAppend (hfirst : Writes Leading tokens (Statement.Like ss))
    (hsecond : Writes Leading others (Statement.Like ss')) :
    Writes Leading (tokens ++ others) (Statement.Like (ss ++ ss')) := by
  intro lexemes htokens
  obtain ⟨x, y, rfl, hx, hy⟩ := List.map_eq_append_iff.1 htokens
  obtain ⟨first, hfirst, hlike⟩ := hfirst x hx
  obtain ⟨second, hsecond, hlike'⟩ := hsecond y hy
  refine ⟨first ++ second, ?_, hlike.append hlike'⟩
  intro z later hlater
  rw [List.append_assoc, List.append_assoc]
  exact hfirst _ _ (hsecond z later hlater)

theorem leadingAssign {target : Mention} {value : Expression} {name : String} (line : Nat)
    (htarget : Renamed target.name name) (hvalue : Writes (Expr .expression) tokens value.Like) :
    Writes Leading (.identifier name :: .mark .assign :: (tokens ++ [.mark .semicolon]))
      (Statement.Like [.assign target value line]) := by
  intro lexemes htokens
  obtain ⟨p, rest, rfl, hassign⟩ := exists_position htokens
  obtain ⟨q, x, r, rfl, hx⟩ := exists_enclosed hassign
  obtain ⟨value', hvalue', hlike⟩ := hvalue x hx
  refine ⟨[.assign ⟨name, p.line⟩ value' q.line], ?_, .assign line q.line htarget hlike .nil⟩
  intro y later hlater
  have hall := Wording.Sequence.more r (.assign name p q hvalue') hlater
  simpa using hall

/-- A compound statement reads the semicolon behind its last statement as an empty one more. -/
theorem leadingCompound (hinner : Writes Leading tokens (Statement.Like inner)) :
    Writes Leading
      (.keyword .beginBlock :: (tokens ++ [.keyword .endBlock, .mark .semicolon]))
      (Statement.Like [.compound inner]) := by
  intro lexemes htokens
  obtain ⟨p, rest, rfl, hrest⟩ := exists_position htokens
  obtain ⟨x, closing, rfl, hx, hclosing⟩ := List.map_eq_append_iff.1 hrest
  obtain ⟨q, rest, rfl, hsemicolon⟩ := exists_position hclosing
  obtain ⟨r, rest, rfl, hnil⟩ := exists_position hsemicolon
  obtain rfl := List.map_eq_nil_iff.1 hnil
  obtain ⟨inner', hinner', hlike⟩ := hinner x hx
  have hsequence := hinner' [] [.empty] .empty
  rw [List.append_nil] at hsequence
  have hlike' : Statement.Like inner (inner' ++ [.empty]) := by
    simpa using hlike.append (.skip' .nil)
  refine ⟨[.compound (inner' ++ [.empty])], ?_, .compound hlike' .nil⟩
  intro y later hlater
  have hall := Wording.Sequence.more r (.compound p q hsequence) hlater
  simpa using hall

theorem compound (hinner : Writes Leading tokens (Statement.Like inner)) :
    Writes Wording.Compound (.keyword .beginBlock :: (tokens ++ [.keyword .endBlock]))
      (Statement.Like inner) := by
  intro lexemes htokens
  obtain ⟨p, x, q, rfl, hx⟩ := exists_enclosed htokens
  obtain ⟨inner', hinner', hlike⟩ := hinner x hx
  have hsequence := hinner' [] [.empty] .empty
  rw [List.append_nil] at hsequence
  refine ⟨inner' ++ [.empty], .mk p q hsequence, ?_⟩
  simpa using hlike.append (.skip' .nil)

end Writes

/-! ### Declarations -/

def Scalar.keyword : Scalar → Keyword
  | .integer => .integer
  | .real => .real

/-- The tokens of one declared name with its type. -/
def typedTokens (name : String) (type : Scalar) : List Token :=
  [.identifier name, .mark .colon, .keyword type.keyword]

namespace Writes

variable {tokens others : List Token} {declared : VariableDeclaration}
  {ds parameters : List VariableDeclaration} {name : String} {type : Scalar}

theorem group (hname : Renamed declared.mention.name name)
    (htype : declared.typeName.name = type.name) :
    Writes Wording.Group (typedTokens name type)
      (List.Forall₂ VariableDeclaration.Like [declared]) := by
  intro lexemes htokens
  obtain ⟨p, rest, rfl, hcolon⟩ := exists_position htokens
  obtain ⟨q, rest, rfl, hkeyword⟩ := exists_position hcolon
  obtain ⟨r, rest, rfl, hnil⟩ := exists_position hkeyword
  obtain rfl := List.map_eq_nil_iff.1 hnil
  have htypeName : Wording.TypeName [⟨.keyword type.keyword, r⟩] ⟨type.name, r.line⟩ := by
    cases type with
    | integer => exact .integer r
    | real => exact .real r
  refine ⟨[⟨⟨name, p.line⟩, ⟨type.name, r.line⟩⟩], ?_, .cons ⟨hname, htype.symm⟩ .nil⟩
  exact .mk q (.one (.mk name p)) htypeName

/-- Each variable has a section of its own. -/
theorem variableSection (hname : Renamed declared.mention.name name)
    (htype : declared.typeName.name = type.name) :
    Writes Wording.Section (.keyword .var :: (typedTokens name type ++ [.mark .semicolon]))
      (List.Forall₂ VariableDeclaration.Like [declared]) := by
  intro lexemes htokens
  obtain ⟨p, x, q, rfl, hx⟩ := exists_enclosed htokens
  obtain ⟨declared', hgroup, hlike⟩ := group hname htype x hx
  have hsection := Wording.Section.mk p (.mk q hgroup) .nil
  simp only [List.append_nil, List.flatten_cons, List.flatten_nil] at hsection
  exact ⟨declared', hsection, hlike⟩

theorem variablesNil : Writes Wording.Variables [] (List.Forall₂ VariableDeclaration.Like []) := by
  intro lexemes htokens
  obtain rfl := List.map_eq_nil_iff.1 htokens
  exact ⟨_, .mk .nil, .nil⟩

theorem variablesCons
    (hfirst : Writes Wording.Section tokens (List.Forall₂ VariableDeclaration.Like [declared]))
    (hothers : Writes Wording.Variables others (List.Forall₂ VariableDeclaration.Like ds)) :
    Writes Wording.Variables (tokens ++ others)
      (List.Forall₂ VariableDeclaration.Like (declared :: ds)) := by
  intro lexemes htokens
  obtain ⟨x, y, rfl, hx, hy⟩ := List.map_eq_append_iff.1 htokens
  obtain ⟨first, hsection, hlike⟩ := hfirst x hx
  obtain ⟨_, ⟨hsections⟩, hlike'⟩ := hothers y hy
  exact ⟨_, .mk (.cons hsection hsections), List.rel_append hlike hlike'⟩

theorem groupsOne
    (hfirst : Writes Wording.Group tokens (List.Forall₂ VariableDeclaration.Like [declared])) :
    Writes (Wording.Separated .semicolon Wording.Group) tokens
      (fun groups ↦ List.Forall₂ VariableDeclaration.Like [declared] groups.flatten) := by
  intro lexemes htokens
  obtain ⟨first, hgroup, hlike⟩ := hfirst lexemes htokens
  exact ⟨[first], .one hgroup, by simpa using hlike⟩

theorem groupsMore
    (hfirst : Writes Wording.Group tokens (List.Forall₂ VariableDeclaration.Like [declared]))
    (hothers : Writes (Wording.Separated .semicolon Wording.Group) others
      (fun groups ↦ List.Forall₂ VariableDeclaration.Like ds groups.flatten)) :
    Writes (Wording.Separated .semicolon Wording.Group) (tokens ++ .mark .semicolon :: others)
      (fun groups ↦ List.Forall₂ VariableDeclaration.Like (declared :: ds) groups.flatten) := by
  intro lexemes htokens
  obtain ⟨x, rest, rfl, hx, hrest⟩ := List.map_eq_append_iff.1 htokens
  obtain ⟨p, y, rfl, hy⟩ := exists_position hrest
  obtain ⟨first, hgroup, hlike⟩ := hfirst x hx
  obtain ⟨groups, hgroups, hlike'⟩ := hothers y hy
  exact ⟨first :: groups, .more p hgroup hgroups, List.rel_append hlike hlike'⟩

theorem parametersNone :
    Writes Wording.Parameters [] (List.Forall₂ VariableDeclaration.Like []) := by
  intro lexemes htokens
  obtain rfl := List.map_eq_nil_iff.1 htokens
  exact ⟨[], .none, .nil⟩

theorem parametersListed (hgroups : Writes (Wording.Separated .semicolon Wording.Group) tokens
      (fun groups ↦ List.Forall₂ VariableDeclaration.Like ds groups.flatten)) :
    Writes Wording.Parameters (.mark .leftParen :: (tokens ++ [.mark .rightParen]))
      (List.Forall₂ VariableDeclaration.Like ds) := by
  intro lexemes htokens
  obtain ⟨p, x, q, rfl, hx⟩ := exists_enclosed htokens
  obtain ⟨groups, hlisted, hlike⟩ := hgroups x hx
  exact ⟨groups.flatten, .listed p q hlisted, hlike⟩

end Writes

/-! ### Procedures and programs -/

namespace Writes

variable {ps vs is bs os : List Token}
  {declared : List VariableDeclaration} {inner ds : List Declaration} {body : List Statement}
  {name : String}

theorem proceduresNil : Writes Wording.Procedures [] (Declaration.Like []) := by
  intro lexemes htokens
  obtain rfl := List.map_eq_nil_iff.1 htokens
  exact ⟨[], .nil, .nil⟩

theorem proceduresCons {heading : Heading} (hname : Renamed heading.name name)
    (hparameters : Writes Wording.Parameters ps
      (List.Forall₂ VariableDeclaration.Like heading.parameters))
    (hvariables : Writes Wording.Variables vs
      (List.Forall₂ VariableDeclaration.Like declared))
    (hprocedures : Writes Wording.Procedures is (Declaration.Like inner))
    (hbody : Writes Wording.Compound bs (Statement.Like body))
    (hothers : Writes Wording.Procedures os (Declaration.Like ds)) :
    Writes Wording.Procedures
      (.keyword .procedure :: .identifier name :: (ps ++ .mark .semicolon ::
        (vs ++ is ++ bs ++ .mark .semicolon :: os)))
      (Declaration.Like (.procedure heading (declared.map .var ++ inner) body :: ds)) := by
  intro lexemes htokens
  obtain ⟨p, rest, rfl, hidentifier⟩ := exists_position htokens
  obtain ⟨q, rest, rfl, hrest⟩ := exists_position hidentifier
  obtain ⟨x, rest, rfl, hx, hsemicolon⟩ := List.map_eq_append_iff.1 hrest
  obtain ⟨r, rest, rfl, hblock⟩ := exists_position hsemicolon
  obtain ⟨inside, rest, rfl, hinside, hlast⟩ := List.map_eq_append_iff.1 hblock
  obtain ⟨s, z, rfl, hz⟩ := exists_position hlast
  obtain ⟨front, y, rfl, hfront, hy⟩ := List.map_eq_append_iff.1 hinside
  obtain ⟨v, w, rfl, hv, hw⟩ := List.map_eq_append_iff.1 hfront
  obtain ⟨parameters', hparameters', hlike⟩ := hparameters x hx
  obtain ⟨declared', hdeclared', hlikeDeclared⟩ := hvariables v hv
  obtain ⟨inner', hinner', hlikeInner⟩ := hprocedures w hw
  obtain ⟨body', hbody', hlikeBody⟩ := hbody y hy
  obtain ⟨ds', hds', hlikeOthers⟩ := hothers z hz
  refine ⟨_, .cons name p q r s hparameters' hdeclared' hinner' hbody' hds', ?_⟩
  exact .procedure hname hlike (.vars hlikeDeclared hlikeInner) hlikeBody hlikeOthers

theorem program {line : Nat} {old : String} (hname : Renamed old name)
    (hvariables : Writes Wording.Variables vs
      (List.Forall₂ VariableDeclaration.Like declared))
    (hprocedures : Writes Wording.Procedures is (Declaration.Like inner))
    (hbody : Writes Wording.Compound bs (Statement.Like body)) :
    Writes Wording.Program
      (.keyword .program :: .identifier name :: .mark .semicolon ::
        (vs ++ is ++ bs ++ [.mark .dot, .eof]))
      (Program.Like ⟨old, line, ⟨declared.map .var ++ inner, body⟩⟩) := by
  intro lexemes htokens
  obtain ⟨p, rest, rfl, hidentifier⟩ := exists_position htokens
  obtain ⟨q, rest, rfl, hsemicolon⟩ := exists_position hidentifier
  obtain ⟨r, rest, rfl, hblock⟩ := exists_position hsemicolon
  obtain ⟨x, rest, rfl, hx, hlast⟩ := List.map_eq_append_iff.1 hblock
  obtain ⟨s, rest, rfl, heof⟩ := exists_position hlast
  obtain ⟨t, rest, rfl, hnil⟩ := exists_position heof
  obtain rfl := List.map_eq_nil_iff.1 hnil
  obtain ⟨front, y, rfl, hfront, hy⟩ := List.map_eq_append_iff.1 hx
  obtain ⟨v, w, rfl, hv, hw⟩ := List.map_eq_append_iff.1 hfront
  obtain ⟨declared', hdeclared', hlikeDeclared⟩ := hvariables v hv
  obtain ⟨inner', hinner', hlikeInner⟩ := hprocedures w hw
  obtain ⟨body', hbody', hlikeBody⟩ := hbody y hy
  refine ⟨_, .mk name p q r s t (.mk hdeclared' hinner' hbody'), ?_⟩
  exact ⟨hname, .vars hlikeDeclared hlikeInner, hlikeBody⟩

end Writes

end MiniPascal
