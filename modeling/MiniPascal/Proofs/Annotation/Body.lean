import MiniPascal.Proofs.Annotation.Layout
import MiniPascal.Proofs.Annotation.Likeness
import MiniPascal.Proofs.Grammar.Names
import MiniPascal.Proofs.Number.RealText

/-!
# What annotated expressions and statements show

For each part of a body there is a lemma that says which tokens its text shows, and that these
tokens write the part again. The inductions are on how the part was written in the first place, so
that its names are known to be identifiers, its integers not to be negative, and its reals to have
been read from digits.

An expression stands in parentheses where its own strength is less than that of its place. That the
precedence of operators decides so is in `strength_left`, `strength_right` and `strength_operand`.
-/

set_option autoImplicit false
set_option relaxedAutoImplicit false

namespace MiniPascal

open Annotate Walk
open Wording (Strength Expr)

/-! ### Names and types -/

theorem renamed_tagged (name : String) (level : Nat) : Renamed name (tagged name level) := by
  refine ⟨toString level, ?_, isDigit_of_mem_toString, rfl⟩
  intro hempty
  exact toString_ne_nil level (by rw [hempty]; rfl)

theorem IsName.tagged {name : String} (hname : IsName name) (level : Nat) :
    IsName (tagged name level) :=
  hname.append (toString_ne_nil level) isDigit_of_mem_toString

theorem inline_typeTag (type : Scalar) :
    Inline joinsWord (typeTag type) [.keyword type.keyword] := by
  cases type with
  | integer =>
    exact @Inline.word "INTEGER0" "INTEGER".toList _ (by decide) (by decide)
      (by decide) (by decide)
  | real =>
    exact @Inline.word "REAL0" "REAL".toList _ (by decide) (by decide)
      (by decide) (by decide)

theorem inline_typedTag {typed : TypedName} (hname : IsName typed.name) (level : Nat) :
    Inline joinsWord (typedTag typed level) (typedTokens (tagged typed.name level) typed.type) := by
  have hcolon : Inline noCharacter " : " [.mark .colon] := Inline.spaced .colon
  have hfront := (Inline.name (hname.tagged level)).append hcolon (by decide)
  exact hfront.andThen (inline_typeTag typed.type)

theorem wordPart_of_symbolTag (symbol : Symbol) :
    ∀ character ∈ (symbolTag symbol).toList, isWordPart character = true := by
  have htype (type : Scalar) :
      ∀ character ∈ (typeTag type).toList, isWordPart character = true :=
    List.all_eq_true.1 (by cases type <;> decide)
  cases symbol with
  | scalar type => exact htype type
  | var declared => exact htype declared.type
  | procedure =>
    have hall : "PROCEDURE".toList.all isWordPart = true := by decide
    exact List.all_eq_true.1 hall

/-- A reference shows its name with the level behind it. -/
theorem yields_mention (scope : ScopeId) {used : Mention} (hname : IsName used.name) :
    Yields Kept (fun text ↦ ∃ name, Renamed used.name name ∧
      Inline joinsWord text [.identifier name]) (mention scope used) := by
  refine (yields_resolveMention scope used).bind fun resolved _ ↦ Yields.pure ?_
  exact ⟨_, renamed_tagged used.name resolved.level,
    Inline.reference (hname.tagged resolved.level) (wordPart_of_symbolTag resolved.symbol)⟩

/-! ### Expressions -/

/-- How tightly the text of an expression holds together. -/
def Expression.strength : Expression → Strength
  | .binary operator .. => if operator.precedence = 1 then .expression else .term
  | _ => .factor

/-- The text shows an expression of a strength. -/
def Prints (e : Expression) (strength : Strength) (text : String) : Prop :=
  ∃ tokens, Inline joinsNumber text tokens ∧ Writes (Expr strength) tokens e.Like

namespace Prints

variable {e left right : Expression} {strength weaker : Strength} {text first second : String}

theorem weaken (hprints : Prints e strength text) (hrank : strength.rank ≤ weaker.rank) :
    Prints e weaker text := by
  obtain ⟨tokens, hinline, hwrites⟩ := hprints
  exact ⟨tokens, hinline, hwrites.weaken hrank⟩

theorem parenthesized (hprints : Prints e strength text) :
    Prints e .factor ("(" ++ text ++ ")") := by
  obtain ⟨tokens, hinline, hwrites⟩ := hprints
  refine ⟨_, (hinline.parentheses (by decide)).closed, ?_⟩
  refine Writes.parenthesized (hwrites.weaken ?_)
  cases strength <;> decide

/-- Parentheses make up for what an expression lacks in strength. -/
theorem parenthesizedIf {needed : Bool} (hprints : Prints e strength text)
    (hstrong : needed = false → strength.rank ≤ weaker.rank) :
    Prints e weaker (parenthesizedIf needed text) := by
  cases needed with
  | true => exact hprints.parenthesized.weaken (Nat.zero_le _)
  | false => exact hprints.weaken (hstrong rfl)

theorem unary (sign : Sign) (line : Nat) (hprints : Prints e .factor text) :
    Prints (.unary sign e line) .factor (sign.text ++ text) := by
  obtain ⟨tokens, hinline, hwrites⟩ := hprints
  have hsign : Inline noCharacter sign.text [.mark sign.mark] := by
    cases sign with
    | plus => exact Inline.mark .plus Mark.noConfusion Mark.noConfusion
    | minus => exact Inline.mark .minus Mark.noConfusion Mark.noConfusion
  exact ⟨_, hsign.andThen hinline, hwrites.signed sign line⟩

theorem binary (operator : Operator) (line : Nat)
    (hleft : Prints left (if operator.precedence = 1 then .expression else .term) first)
    (hright : Prints right (if operator.precedence = 1 then .term else .factor) second) :
    Prints (.binary operator left right line)
      (if operator.precedence = 1 then .expression else .term)
      (first ++ " " ++ operator.text ++ " " ++ second) := by
  obtain ⟨tokens, hfirst, hwrites⟩ := hleft
  obtain ⟨others, hsecond, hwrites'⟩ := hright
  have hoperator : operator.text = operator.mark.text := by cases operator <;> rfl
  have htext : first ++ " " ++ operator.text ++ " " ++ second =
      first ++ (" " ++ operator.mark.text ++ " " ++ second) := by
    simp only [hoperator, String.append_assoc]
  have hblank : Begins joinsNumber " " := by decide
  rw [htext]
  refine ⟨_, hfirst.append ((Inline.spaced operator.mark).andThen hsecond) ?_,
    Writes.binary operator line hwrites hwrites'⟩
  exact ((hblank.append _).append _).append _

end Prints

theorem strength_left {operator : Operator} {left : Expression}
    (htight : (precedence? left).any (· < operator.precedence) = false) :
    left.strength.rank ≤ (if operator.precedence = 1 then Strength.expression else .term).rank := by
  have hall (inner operator : Operator) : decide (inner.precedence < operator.precedence) = false →
      (if inner.precedence = 1 then Strength.expression else .term).rank ≤
        (if operator.precedence = 1 then Strength.expression else .term).rank := by
    cases inner <;> cases operator <;> decide
  cases left with
  | binary inner => exact hall inner operator htight
  | constant | read | unary => exact Nat.zero_le _

theorem strength_right {operator : Operator} {right : Expression}
    (htight : (precedence? right).any (· ≤ operator.precedence) = false) :
    right.strength.rank ≤ (if operator.precedence = 1 then Strength.term else .factor).rank := by
  have hall (inner operator : Operator) : decide (inner.precedence ≤ operator.precedence) = false →
      (if inner.precedence = 1 then Strength.expression else .term).rank ≤
        (if operator.precedence = 1 then Strength.term else .factor).rank := by
    cases inner <;> cases operator <;> decide
  cases right with
  | binary inner => exact hall inner operator htight
  | constant | read | unary => exact Nat.zero_le _

theorem strength_operand {operand : Expression} (htight : (precedence? operand).isSome = false) :
    operand.strength.rank ≤ Strength.factor.rank := by
  cases operand with
  | binary => cases htight
  | constant | read | unary => exact Nat.zero_le _

theorem prints_binary {operator : Operator} {left right : Expression} (line : Nat)
    {first second : String} (hleft : Prints left left.strength first)
    (hright : Prints right right.strength second) :
    Prints (.binary operator left right line) (Expression.binary operator left right line).strength
      (parenthesizedIf ((precedence? left).any (· < operator.precedence)) first ++ " " ++
        operator.text ++ " " ++
          parenthesizedIf ((precedence? right).any (· ≤ operator.precedence)) second) :=
  .binary operator line (hleft.parenthesizedIf strength_left)
    (hright.parenthesizedIf strength_right)

theorem yields_annotated_expression (scope : ScopeId) {strength : Strength} {x : List Lexeme}
    {e : Expression} (hwritten : Expr strength x e) (hshaped : Shaped x) :
    Yields Kept (Prints e e.strength) (Annotate.expression scope e) := by
  induction hwritten with
  | @signed x operand sign p _ induct =>
    refine (induct hshaped.tail).bind fun text hprints ↦ Yields.pure ?_
    exact .unary sign p.line (hprints.parenthesizedIf strength_operand)
  | integer n p =>
    exact Yields.pure ⟨_, Inline.integer hshaped.head, Writes.integer n p.line⟩
  | real r p =>
    obtain ⟨read, further, hread⟩ : Token.Shaped (.real r) := hshaped.head
    obtain ⟨whole, fraction, htext, hwhole, hfraction, hagain⟩ := exists_digits_of_readReal hread
    have hinline := Inline.real htext hwhole.1 hwhole.2 hfraction.2 hagain
    exact Yields.pure ⟨_, hinline, Writes.real r p.line⟩
  | parenthesized p q _ induct => exact induct hshaped.tail.left
  | read name p =>
    refine (@yields_mention scope ⟨name, p.line⟩ hshaped.head).mono fun text hshown ↦ ?_
    obtain ⟨name, hname, hinline⟩ := hshown
    exact ⟨_, hinline.number, Writes.read hname⟩
  | factor _ induct | term _ induct => exact induct hshaped
  | product p _ _ _ inductLeft inductRight | sum p _ _ _ inductLeft inductRight =>
    refine (inductLeft hshaped.left).bind fun first hfirst ↦ ?_
    refine (inductRight hshaped.right.tail).bind fun second hsecond ↦ Yields.pure ?_
    exact prints_binary p.line hfirst hsecond

/-! ### Statements -/

/-- The lines show statements, each with a semicolon behind it. -/
def PrintsAll (ss : List Statement) (lines : List String) : Prop :=
  ∃ tokens, Lines lines tokens ∧ Writes Wording.Leading tokens (Statement.Like ss)

theorem PrintsAll.append {ss others : List Statement} {lines further : List String}
    (hprints : PrintsAll ss lines) (hothers : PrintsAll others further) :
    PrintsAll (ss ++ others) (lines ++ further) := by
  obtain ⟨tokens, hlines, hwrites⟩ := hprints
  obtain ⟨later, hfurther, hwrites'⟩ := hothers
  exact ⟨_, hlines.append hfurther, hwrites.leadingAppend hwrites'⟩

theorem begins_semicolon : Begins joinsWord ";" := by decide

theorem printsAll_assign {target : Mention} {value : Expression} {line : Nat} {name : String}
    {first second : String} (hname : Renamed target.name name)
    (hfirst : Inline joinsWord first [.identifier name])
    (hsecond : Prints value value.strength second) :
    PrintsAll [.assign target value line] [first ++ " := " ++ second ++ ";"] := by
  have hrank : value.strength.rank ≤ Strength.expression.rank := by
    cases value.strength <;> decide
  obtain ⟨tokens, hinline, hwrites⟩ := hsecond.weaken hrank
  have hassign : Inline noCharacter " := " [.mark .assign] := Inline.spaced .assign
  have hfront := hfirst.append hassign (by decide)
  have hall := (hfront.andThen hinline).append Inline.semicolon (by decide)
  refine ⟨_, .single hall.closed, ?_⟩
  have hwrites' := Writes.leadingAssign line hname hwrites
  simpa using hwrites'

theorem printsAll_compound {inner : List Statement} {lines : List String}
    (hprints : PrintsAll inner lines) :
    PrintsAll [.compound inner] ("begin" :: lines.map (indentation ++ ·) ++ ["end;"]) := by
  obtain ⟨tokens, hlines, hwrites⟩ := hprints
  have hbegin : Inline joinsWord "begin" [.keyword .beginBlock] :=
    .keyword (by decide)
  have hword : Inline joinsWord "end" [.keyword .endBlock] :=
    .keyword (by decide)
  have hend : Inline joinsWord "end;" [.keyword .endBlock, .mark .semicolon] :=
    (hword.append Inline.semicolon begins_semicolon).closed
  have hall : Lines ("begin" :: (lines.map (indentation ++ ·) ++ ["end;"]))
      ([Token.keyword .beginBlock] ++
        (tokens ++ [Token.keyword .endBlock, Token.mark .semicolon])) :=
    .cons hbegin ((hlines.map fun _ _ hline ↦ hline.indent).append (.single hend))
  exact ⟨_, hall, hwrites.leadingCompound⟩

/-- The lines of statements follow one another as the statements do. -/
theorem statements_cons (scope : ScopeId) (first : Statement) (others : List Statement) :
    Annotate.statements scope (first :: others) =
      (do
        let lines ← Annotate.statements scope [first]
        let further ← Annotate.statements scope others
        return lines ++ further) := by
  simp [Annotate.statements]

theorem yields_annotated_statements (scope : ScopeId) {x : List Lexeme} {ss : List Statement}
    (hwritten : Wording.Sequence x ss) (hshaped : Shaped x) :
    Yields Kept (PrintsAll ss) (Annotate.statements scope ss) := by
  induction hwritten with
  | empty =>
    have heq : Annotate.statements scope [.empty] = pure [] := by
      simp [Annotate.statements, Annotate.statement]
    rw [heq]
    exact Yields.pure ⟨[], .nil, Writes.leadingEmpty⟩
  | @assign x value name p q hvalue =>
    have heq : Annotate.statements scope [.assign ⟨name, p.line⟩ value q.line] =
        (do
          let first ← mention scope ⟨name, p.line⟩
          let second ← Annotate.expression scope value
          return [first ++ " := " ++ second ++ ";"]) := by
      simp [Annotate.statements, Annotate.statement]
    rw [heq]
    refine (@yields_mention scope ⟨name, p.line⟩ hshaped.head).bind fun first hfirst ↦ ?_
    obtain ⟨later, hlater, hinline⟩ := hfirst
    refine (yields_annotated_expression scope hvalue hshaped.tail.tail).bind
      fun second hsecond ↦ ?_
    exact Yields.pure (printsAll_assign hlater hinline hsecond)
  | @compound x inner p q _ induct =>
    have heq : Annotate.statements scope [.compound inner] =
        (do
          let lines ← Annotate.statements scope inner
          return "begin" :: lines.map (indentation ++ ·) ++ ["end;"]) := by
      simp [Annotate.statements, Annotate.statement]
    rw [heq]
    refine (induct hshaped.tail.left).bind fun lines hlines ↦ ?_
    exact Yields.pure (printsAll_compound hlines)
  | more p _ _ inductFirst inductOthers =>
    rw [statements_cons]
    refine (inductFirst hshaped.left).bind fun lines hlines ↦ ?_
    refine (inductOthers hshaped.right.tail).bind fun further hfurther ↦ ?_
    exact Yields.pure (hlines.append hfurther)

end MiniPascal
