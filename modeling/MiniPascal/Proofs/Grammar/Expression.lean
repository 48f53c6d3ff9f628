import MiniPascal.Proofs.Grammar.Repetition

/-!
# Rules for expressions

The rules for factors, terms and expressions read `Wording.Expr` at the strength of their names.
The wording of a chain in the grammar hangs one operator below another, whereas the rule reads its
links in a loop and joins them from the left; `Wording.expr_chain` says that both come to the same.
-/

set_option autoImplicit false
set_option relaxedAutoImplicit false

namespace MiniPascal

/-- The tokens with which a factor begins. -/
def Token.beginsFactor : Token → Bool
  | .mark .plus | .mark .minus | .mark .leftParen => true
  | .integer _ | .real _ | .identifier _ => true
  | .keyword _ | .mark _ | .eof => false

theorem Rule.multiplicative_eq_some_iff {token : Token} {operator : Operator} :
    multiplicative token = some operator ↔
      token = .mark operator.mark ∧ operator.precedence = 2 := by
  constructor
  · intro hsome
    unfold multiplicative at hsome
    split at hsome <;> cases hsome <;> exact ⟨rfl, rfl⟩
  · rintro ⟨rfl, hprecedence⟩
    cases operator <;> first | rfl | cases hprecedence

theorem Rule.additive_eq_some_iff {token : Token} {operator : Operator} :
    additive token = some operator ↔ token = .mark operator.mark ∧ operator.precedence = 1 := by
  constructor
  · intro hsome
    unfold additive at hsome
    split at hsome <;> cases hsome <;> exact ⟨rfl, rfl⟩
  · rintro ⟨rfl, hprecedence⟩
    cases operator <;> first | rfl | cases hprecedence

namespace Wording

/-- An operand and links behind it, joined from the left. -/
def Chain (select : Token → Option Operator) (operand : Wording Expression) : Wording Expression :=
  operand.Then fun first ↦ fun y e ↦
    ∃ ls, Many (operand.Linked select) y ls ∧ e = ls.foldl Rule.Link.join first

section Chain

variable {select : Token → Option Operator} {operand whole : Wording Expression}

/-- A wording that is an operand, or itself and a link behind it, is a chain. -/
theorem chain_of_recursion (hfirst : ∀ x e, operand x e → whole x e)
    (hlink : ∀ x left p operator y right, whole x left → select (.mark operator.mark) =
      some operator → operand y right →
        whole (x ++ ⟨.mark operator.mark, p⟩ :: y) (.binary operator left right p.line))
    (hmark : ∀ token operator, select token = some operator → token = .mark operator.mark)
    {x : List Lexeme} {e : Expression} (hchain : Chain select operand x e) : whole x e := by
  obtain ⟨x, first, y, hoperand, ⟨ls, hmany, rfl⟩, rfl⟩ := hchain
  replace hoperand := hfirst _ _ hoperand
  induction hmany generalizing x first with
  | nil => simpa using hoperand
  | @cons y' y'' l ls hlinked _ induct =>
    obtain ⟨⟨token, p⟩, z, operator, right, rfl, hselect, hwritten, rfl⟩ := hlinked
    obtain rfl := hmark _ _ hselect
    have hjoined := hlink x first p operator z right hoperand hselect hwritten
    simpa [Rule.Link.join] using induct _ _ hjoined

theorem chain_operand {x : List Lexeme} {e : Expression} (hoperand : operand x e) :
    Chain select operand x e := ⟨x, e, [], hoperand, ⟨[], .nil, rfl⟩, by simp⟩

theorem many_append {α : Type} {item : Wording α} {x y : List Lexeme} {vs ws : List α}
    (hfirst : Many item x vs) (hsecond : Many item y ws) : Many item (x ++ y) (vs ++ ws) := by
  induction hfirst with
  | nil => exact hsecond
  | cons hitem _ induct => simpa using Many.cons hitem induct

theorem chain_link {x y : List Lexeme} {left right : Expression} {operator : Operator}
    (p : Position) (hchain : Chain select operand x left)
    (hselect : select (.mark operator.mark) = some operator) (hoperand : operand y right) :
    Chain select operand (x ++ ⟨.mark operator.mark, p⟩ :: y)
      (.binary operator left right p.line) := by
  obtain ⟨x, first, z, hfirst, ⟨ls, hmany, rfl⟩, rfl⟩ := hchain
  have hlinked : operand.Linked select (⟨.mark operator.mark, p⟩ :: y)
      ⟨operator, p.line, right⟩ := ⟨_, y, operator, right, rfl, hselect, hoperand, rfl⟩
  have hlast : Many (operand.Linked select) (⟨.mark operator.mark, p⟩ :: y)
      [⟨operator, p.line, right⟩] := by simpa using Many.cons hlinked Many.nil
  refine ⟨x, first, z ++ ⟨.mark operator.mark, p⟩ :: y, hfirst,
    ⟨ls ++ [⟨operator, p.line, right⟩], many_append hmany hlast, ?_⟩, by simp⟩
  simp [Rule.Link.join]

end Chain

theorem chain_term (x : List Lexeme) (e : Expression) :
    Chain Rule.multiplicative (Expr .factor) x e ↔ Expr .term x e := by
  constructor
  · refine chain_of_recursion (fun _ _ ↦ .factor) ?_ ?_
    · intro x left p operator y right hleft hselect hright
      exact .product p (Rule.multiplicative_eq_some_iff.1 hselect).2 hleft hright
    · intro token operator hselect
      exact (Rule.multiplicative_eq_some_iff.1 hselect).1
  · intro hexpr
    generalize hstrength : Strength.term = strength at hexpr
    induction hexpr with
    | factor hfactor => exact chain_operand hfactor
    | product p hprecedence _ hright induct _ =>
      exact chain_link p (induct rfl) (Rule.multiplicative_eq_some_iff.2 ⟨rfl, hprecedence⟩) hright
    | signed | integer | real | parenthesized | read | term | sum => cases hstrength

theorem chain_expression (x : List Lexeme) (e : Expression) :
    Chain Rule.additive (Expr .term) x e ↔ Expr .expression x e := by
  constructor
  · refine chain_of_recursion (fun _ _ ↦ .term) ?_ ?_
    · intro x left p operator y right hleft hselect hright
      exact .sum p (Rule.additive_eq_some_iff.1 hselect).2 hleft hright
    · intro token operator hselect
      exact (Rule.additive_eq_some_iff.1 hselect).1
  · intro hexpr
    generalize hstrength : Strength.expression = strength at hexpr
    induction hexpr with
    | term hterm => exact chain_operand hterm
    | sum p hprecedence _ hright induct _ =>
      exact chain_link p (induct rfl) (Rule.additive_eq_some_iff.2 ⟨rfl, hprecedence⟩) hright
    | signed | integer | real | parenthesized | read | factor | product => cases hstrength

theorem expr_begins (strength : Strength) : (Expr strength).Begins [] := by
  have hread : Expr .factor [⟨.identifier "", Position.start⟩] (.read ⟨"", 1⟩) :=
    .read "" Position.start
  cases strength with
  | factor => exact ⟨_, _, hread, List.nil_prefix⟩
  | term => exact ⟨_, _, .factor hread, List.nil_prefix⟩
  | expression => exact ⟨_, _, .term (.factor hread), List.nil_prefix⟩

theorem Expr.beginsFactor {x : List Lexeme} {e : Expression} (hwritten : Expr .factor x e) :
    ∃ first others, x = first :: others ∧ first.token.beginsFactor = true := by
  cases hwritten with
  | signed sign p => exact ⟨_, _, rfl, by cases sign <;> rfl⟩
  | integer | real | parenthesized | read => exact ⟨_, _, rfl, rfl⟩

end Wording

namespace Rule

/-- The operators that go on with an expression. -/
def Operates (token : Token) : Prop :=
  (multiplicative token).isSome ∨ (additive token).isSome

variable {limit levels : Nat} {cursor : Cursor}

/-- Terms, given that factors are read from a depth on. -/
theorem reads_term {depth : Nat} {factor : Rule Expression}
    (hfactor : ∀ cursor : Cursor, cursor.Sound → depth ≤ cursor.depth →
      Reads limit 0 nothing (Wording.Expr .factor) factor cursor)
    (hsound : cursor.Sound) (hdepth : depth ≤ cursor.depth) :
    Reads limit 0 (fun token ↦ (multiplicative token).isSome) (Wording.Expr .term)
      (termOf limit factor) cursor := by
  refine Reads.of_agrees (fun x e ↦ (Wording.chain_term x e).1) ?_
    (fun y e z hwritten _ _ ↦ (Wording.chain_term y e).2 hwritten)
    (Reads.chain rfl (fun _ _ h ↦ h) (Wording.expr_begins _) hfactor hsound hdepth)
  rintro token (hnothing | hselect)
  · exact hnothing.elim
  · exact hselect

theorem reads_expression {depth : Nat} {factor : Rule Expression}
    (hfactor : ∀ cursor : Cursor, cursor.Sound → depth ≤ cursor.depth →
      Reads limit 0 nothing (Wording.Expr .factor) factor cursor)
    (hsound : cursor.Sound) (hdepth : depth ≤ cursor.depth) :
    Reads limit 0 Operates (Wording.Expr .expression) (expressionOf limit factor) cursor := by
  refine Reads.of_iff Wording.chain_expression (Reads.chain rfl ?_ (Wording.expr_begins _)
    (fun cursor hsound hdepth ↦ reads_term hfactor hsound hdepth) hsound hdepth)
  intro token hadditive hmultiplicative
  obtain ⟨operator, hsome⟩ := Option.isSome_iff_exists.1 hadditive
  obtain ⟨other, hother⟩ := Option.isSome_iff_exists.1 hmultiplicative
  obtain ⟨rfl, hone⟩ := additive_eq_some_iff.1 hsome
  obtain ⟨hmark, htwo⟩ := multiplicative_eq_some_iff.1 hother
  cases operator <;> cases other <;> simp_all [Operator.mark, Operator.precedence]

theorem operates_mark_iff {sign : Mark} :
    Operates (.mark sign) ↔ ∃ operator : Operator, sign = operator.mark := by
  constructor
  · rintro (hselect | hselect)
    · obtain ⟨operator, hoperator⟩ := Option.isSome_iff_exists.1 hselect
      exact ⟨operator, Token.mark.inj (multiplicative_eq_some_iff.1 hoperator).1⟩
    · obtain ⟨operator, hoperator⟩ := Option.isSome_iff_exists.1 hselect
      exact ⟨operator, Token.mark.inj (additive_eq_some_iff.1 hoperator).1⟩
  · rintro ⟨operator, rfl⟩
    cases operator <;> first | exact .inl rfl | exact .inr rfl

/-- A prefix operator, given that the factor behind it is read. -/
theorem reads_signed (sign : Sign) {operand : Rule Expression} (hsound : cursor.Sound)
    (htoken : cursor.current.token = .mark sign.mark)
    (hoperand : ∀ later : Cursor, later.Sound → later.depth = cursor.depth →
      Reads limit 0 nothing (Wording.Expr .factor) operand later) :
    Reads limit 1 nothing (Wording.Expr .factor)
      (advance >>= fun _ ↦ operand >>= fun e ↦ pure (.unary sign e cursor.current.position.line))
      cursor := by
  have hgoing : cursor.current.token ≠ .eof := by
    rw [htoken]
    exact Token.noConfusion
  have hbegins := Wording.expr_begins .factor
  refine Reads.of_agrees ?_ (fun _ h ↦ h) ?_ (Reads.afterCurrent hsound hgoing ?_
    fun later hlater hsame ↦ Reads.map
      (fun e ↦ Expression.unary sign e cursor.current.position.line) (hoperand later hlater hsame))
  · rintro x e ⟨y, rfl, operand, hwritten, rfl⟩
    obtain ⟨⟨token, p⟩, upcoming, ending, depth⟩ := cursor
    simp only at htoken
    subst htoken
    exact .signed sign p hwritten
  · intro y w z hwritten _ hhead
    cases hwritten with
    | @signed x operand other p hoperand =>
      have hcurrent : (⟨.mark other.mark, p⟩ : Lexeme) = cursor.current := Option.some.inj hhead
      rw [← hcurrent] at htoken
      have hsign : other = sign := by cases other <;> cases sign <;> first | rfl | cases htoken
      exact ⟨x, by rw [hcurrent], operand, hoperand, by rw [← hcurrent, hsign]⟩
    | integer | real | parenthesized | read =>
      have hcurrent := Option.some.inj hhead
      rw [← hcurrent] at htoken
      cases sign <;> cases htoken
  · obtain ⟨y, e, hwritten, -⟩ := hbegins
    exact ⟨y, _, ⟨e, hwritten, rfl⟩, List.nil_prefix⟩

/-- A constant, which is one lexeme. -/
theorem reads_constant (value : Value) (hsound : cursor.Sound)
    (htoken : cursor.current.token =
      match value with
      | .integer n => .integer n
      | .real r => .real r) :
    Reads limit 1 nothing (Wording.Expr .factor)
      (advance >>= fun _ ↦ pure (.constant value cursor.current.position.line)) cursor := by
  have hgoing : cursor.current.token ≠ .eof := by
    rw [htoken]
    cases value <;> exact Token.noConfusion
  refine Reads.of_agrees ?_ (fun _ h ↦ h) ?_ (Reads.afterCurrent hsound hgoing ?_
    fun later hlater _ ↦ Reads.pure hlater _)
  · rintro x e ⟨y, rfl, rfl, rfl⟩
    obtain ⟨⟨token, p⟩, upcoming, ending, depth⟩ := cursor
    simp only at htoken
    subst htoken
    cases value with
    | integer n => exact .integer n p
    | real r => exact .real r p
  · intro y w z hwritten _ hhead
    cases hwritten with
    | integer | real =>
      have hcurrent := Option.some.inj hhead
      rw [← hcurrent] at htoken ⊢
      cases value <;> cases htoken
      exact ⟨[], rfl, rfl, rfl⟩
    | @signed | parenthesized | read =>
      have hcurrent := Option.some.inj hhead
      rw [← hcurrent] at htoken
      cases value <;> cases htoken
  · exact ⟨[], _, ⟨rfl, rfl⟩, List.nil_prefix⟩

/-- An expression in parentheses, given that expressions are read behind the first of them. -/
theorem reads_parenthesized {inner : Rule Expression} (hsound : cursor.Sound)
    (htoken : cursor.current.token = .mark .leftParen)
    (hinner : ∀ later : Cursor, later.Sound → later.depth = cursor.depth →
      Reads limit 0 Operates (Wording.Expr .expression) inner later) :
    Reads limit 1 nothing (Wording.Expr .factor)
      (advance >>= fun _ ↦ inner >>= fun e ↦ expect (.mark .rightParen) >>= fun _ ↦ pure e)
      cursor := by
  have hgoing : cursor.current.token ≠ .eof := by
    rw [htoken]
    exact Token.noConfusion
  have hclosed (later : Cursor) (hlater : later.Sound) (hsame : later.depth = cursor.depth) :
      Reads limit 0 nothing
        ((Wording.Expr .expression).Then fun e ↦ Wording.Closing (.mark .rightParen) e)
        (inner >>= fun e ↦ expect (.mark .rightParen) >>= fun _ ↦ pure e) later := by
    refine Reads.closed id (hinner later hlater hsame) Token.Kind.noConfusion ?_
    intro token hkind
    rw [Token.eq_mark_of_kind hkind, operates_mark_iff]
    rintro ⟨operator, hoperator⟩
    cases operator <;> cases hoperator
  refine Reads.of_agrees ?_ (fun _ h ↦ h) ?_ (Reads.afterCurrent hsound hgoing ?_ hclosed)
  · rintro x e ⟨_, rfl, y, e, _, hwritten, ⟨rfl, ⟨token, q⟩, hkind, rfl⟩, rfl⟩
    obtain ⟨⟨token, p⟩, upcoming, ending, depth⟩ := cursor
    simp only at htoken
    obtain rfl := Token.eq_mark_of_kind hkind
    subst htoken
    exact .parenthesized p q hwritten
  · intro y w z hwritten _ hhead
    cases hwritten with
    | @parenthesized x e p q hinside =>
      have hcurrent := Option.some.inj hhead
      rw [← hcurrent]
      exact ⟨_, rfl, x, w, _, hinside, ⟨rfl, _, rfl, rfl⟩, rfl⟩
    | @signed x operand other p hoperand =>
      have hcurrent := Option.some.inj hhead
      rw [← hcurrent] at htoken
      cases other <;> cases htoken
    | integer | real | read =>
      have hcurrent := Option.some.inj hhead
      rw [← hcurrent] at htoken
      cases htoken
  · exact Wording.then_begins (Wording.expr_begins _) fun _ e _ ↦ Wording.closing_begins _ e

/-- A name in an expression. -/
theorem reads_reference {name : String} (hsound : cursor.Sound)
    (htoken : cursor.current.token = .identifier name) :
    Reads limit 1 nothing (Wording.Expr .factor)
      (mention >>= fun found ↦ pure (.read found)) cursor := by
  refine Reads.of_agrees ?_ (fun _ h ↦ h) ?_ (Reads.map Expression.read (Reads.mention hsound))
  · rintro x e ⟨_, ⟨name, p⟩, rfl⟩
    exact .read name p
  · intro y w z hwritten _ hhead
    cases hwritten with
    | read name p => exact ⟨_, .mk name p, rfl⟩
    | @signed x operand other p hoperand =>
      have hcurrent := Option.some.inj hhead
      rw [← hcurrent] at htoken
      cases other <;> cases htoken
    | integer | real | parenthesized =>
      have hcurrent := Option.some.inj hhead
      rw [← hcurrent] at htoken
      cases htoken

/-- The rule for factors gives up on a token with which no factor begins. -/
theorem reads_other (hsound : cursor.Sound)
    (htoken : cursor.current.token.beginsFactor = false) :
    Reads limit 1 nothing (Wording.Expr .factor) (unexpected .expression) cursor := by
  refine Reads.unexpected hsound _ (Wording.expr_begins .factor) ?_
  intro y w z hwritten _ hstarts
  obtain ⟨first, others, rfl, hfirst⟩ := hwritten.beginsFactor
  obtain rfl := (List.cons_prefix_cons.1 hstarts).1
  exact Bool.false_ne_true (htoken.symm.trans hfirst)

theorem reads_factor {levels : Nat} (hlevels : limit ≤ cursor.depth + levels)
    (hsound : cursor.Sound) :
    Reads limit 0 nothing (Wording.Expr .factor) (factor limit levels) cursor := by
  induction levels generalizing cursor with
  | zero => exact .atLimit hsound hlevels rfl
  | succ levels induct =>
    rw [factor]
    refine Reads.nested hsound fun _ ↦ ?_
    have hdeeper : limit ≤ cursor.depth + 1 + levels := by omega
    replace hsound := hsound.withDepth (cursor.depth + 1)
    generalize hcursor : ({ cursor with depth := cursor.depth + 1 } : Cursor) = deeper at hsound ⊢
    have hinner (later : Cursor) (hlater : later.Sound) (hsame : later.depth = deeper.depth) :
        Reads limit 0 nothing (Wording.Expr .factor) (factor limit levels) later := by
      refine induct ?_ hlater
      rw [hsame, ← hcursor]
      exact hdeeper
    have hwhole (later : Cursor) (hlater : later.Sound) (hsame : later.depth = deeper.depth) :
        Reads limit 0 Operates (Wording.Expr .expression)
          (expressionOf limit (factor limit levels)) later := by
      refine reads_expression (fun last hlast hdepth ↦ induct ?_ hlast) hlater
        (Nat.le_refl later.depth)
      rw [hsame, ← hcursor] at hdepth
      exact Nat.le_trans hdeeper (Nat.add_le_add_right hdepth levels)
    refine Reads.currentLine hsound (Reads.peek hsound ?_)
    split
    · next htoken => exact reads_signed .plus hsound htoken hinner
    · next htoken => exact reads_signed .minus hsound htoken hinner
    · next n htoken => exact reads_constant (.integer n) hsound htoken
    · next r htoken => exact reads_constant (.real r) hsound htoken
    · next htoken => exact reads_parenthesized hsound htoken hwhole
    · next name htoken => exact reads_reference hsound htoken
    · next word htoken => exact reads_other hsound (by rw [htoken]; rfl)
    · next sign hplus hminus hparen htoken =>
      refine reads_other hsound ?_
      rw [htoken]
      cases sign <;> first | rfl | contradiction
    · next htoken => exact reads_other hsound (by rw [htoken]; rfl)

/-- Expressions, where `levels` is no less than the levels that the limit leaves. -/
theorem reads_expression_levels {levels : Nat} (hlevels : limit ≤ cursor.depth + levels)
    (hsound : cursor.Sound) :
    Reads limit 0 Operates (Wording.Expr .expression) (expression limit levels) cursor := by
  refine reads_expression (fun later hlater hdepth ↦ reads_factor ?_ hlater) hsound
    (Nat.le_refl cursor.depth)
  omega

end Rule

end MiniPascal
