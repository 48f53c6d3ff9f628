import MiniPascal.Proofs.Annotation.Body
import MiniPascal.Proofs.Execution.Unlined
import MiniPascal.Proofs.Grammar.Parsing

/-!
# The parentheses that a tree needs

Around an operand that does not hold together tightly enough in its place stands a pair of
parentheses, and no writing of the tree can do without it: `Expression.parentheses_le` counts the
opening marks of any lexemes that write the tree. There are no more such lexemes in a text than
opening characters (`Feed.countP_opens_ahead_le`), so a text with fewer is not read as this tree:
`parentheses_le_of_read`.
-/

set_option autoImplicit false
set_option relaxedAutoImplicit false

namespace MiniPascal

open Annotate
open Wording (Strength Expr)

/-! ### The parentheses of a tree -/

/-- How many pairs of parentheses an expression needs: one for each operand that would not hold
together in its place. -/
def Expression.parentheses : Expression → Nat
  | .constant _ _ | .read _ => 0
  | .unary _ operand _ => operand.parentheses + (precedence? operand).isSome.toNat
  | .binary operator left right _ =>
    left.parentheses + ((precedence? left).any (· < operator.precedence)).toNat +
      (right.parentheses + ((precedence? right).any (· ≤ operator.precedence)).toNat)

theorem Expression.parentheses_unlined (e : Expression) :
    e.unlined.parentheses = e.parentheses := by
  have hprecedence (e : Expression) : precedence? e.unlined = precedence? e := by cases e <;> rfl
  induction e with
  | constant | read => rfl
  | unary sign operand line induct => rw [unlined, parentheses, parentheses, induct, hprecedence]
  | binary operator left right line inductLeft inductRight =>
    rw [unlined, parentheses, parentheses, inductLeft, inductRight, hprecedence, hprecedence]

/-- One if an expression has to be parenthesized in its place, and zero if not. -/
def Wording.Strength.lack (place own : Strength) : Nat := if place.rank < own.rank then 1 else 0

theorem lack_le_one (place own : Strength) : place.lack own ≤ 1 := by
  unfold Strength.lack
  split <;> decide

theorem lack_self (own : Strength) : own.lack own = 0 := if_neg (Nat.lt_irrefl _)

/-- What is parenthesized is what lacks strength in its place. -/
theorem toNat_isSome_precedence (operand : Expression) :
    (precedence? operand).isSome.toNat = Strength.factor.lack operand.strength := by
  cases operand with
  | binary operator => cases operator <;> rfl
  | constant | read | unary => rfl

theorem toNat_any_precedence_lt (operator : Operator) (left : Expression) :
    ((precedence? left).any (· < operator.precedence)).toNat =
      (if operator.precedence = 1 then Strength.expression else .term).lack left.strength := by
  cases left with
  | binary inner => cases inner <;> cases operator <;> rfl
  | constant | read | unary => cases operator <;> rfl

theorem toNat_any_precedence_le (operator : Operator) (right : Expression) :
    ((precedence? right).any (· ≤ operator.precedence)).toNat =
      (if operator.precedence = 1 then Strength.term else .factor).lack right.strength := by
  cases right with
  | binary inner => cases inner <;> cases operator <;> rfl
  | constant | read | unary => cases operator <;> rfl

/-- The lexeme is an opening parenthesis. -/
def Lexeme.opens (lexeme : Lexeme) : Bool := decide (lexeme.token = .mark .leftParen)

theorem countP_opens_operator (x y : List Lexeme) (operator : Operator) (p : Position) :
    (x ++ ⟨.mark operator.mark, p⟩ :: y).countP Lexeme.opens =
      x.countP Lexeme.opens + y.countP Lexeme.opens := by
  have hoperator : Lexeme.opens ⟨.mark operator.mark, p⟩ = false := by cases operator <;> rfl
  rw [List.countP_append, List.countP_cons_of_neg (Bool.eq_false_iff.1 hoperator)]

/-- However an expression is written, the parentheses that it needs are there, and one more pair
around it if its place asks for it. -/
theorem Expression.parentheses_le {place : Strength} {x : List Lexeme} {e : Expression}
    (hwritten : Expr place x e) :
    e.parentheses + place.lack e.strength ≤ x.countP Lexeme.opens := by
  induction hwritten with
  | signed sign p _ induct =>
    rw [parentheses, toNat_isSome_precedence]
    exact induct.trans (List.sublist_cons_self _ _).countP_le
  | integer | real | read => exact Nat.zero_le _
  | @parenthesized x inner p q _ induct =>
    have hpair : Lexeme.opens ⟨.mark .leftParen, p⟩ = true := rfl
    have hinside := (List.sublist_append_left x [⟨.mark .rightParen, q⟩]).countP_le
      (p := Lexeme.opens)
    have hlack := lack_le_one .factor inner.strength
    rw [List.countP_cons_of_pos hpair]
    omega
  | @factor x e _ induct =>
    refine le_trans (Nat.add_le_add_left ?_ _) induct
    cases e.strength <;> decide
  | @term x e _ induct =>
    refine le_trans (Nat.add_le_add_left ?_ _) induct
    cases e.strength <;> decide
  | product p hoperator _ _ inductLeft inductRight =>
    rw [parentheses, toNat_any_precedence_lt, toNat_any_precedence_le, strength, hoperator,
      countP_opens_operator]
    simp only [Nat.reduceEqDiff, if_false, lack_self, Nat.add_zero]
    exact Nat.add_le_add inductLeft inductRight
  | sum p hoperator _ _ inductLeft inductRight =>
    rw [parentheses, toNat_any_precedence_lt, toNat_any_precedence_le, strength, hoperator,
      countP_opens_operator]
    simp only [if_true, lack_self, Nat.add_zero]
    exact Nat.add_le_add inductLeft inductRight

/-! ### Parentheses among the lexemes of a text -/

/-- Only the character of the mark is cut off as an opening parenthesis. -/
theorem eq_of_cut_leftParen {first : Char} {others : List Char}
    (hpiece : (cut first others).piece = .token (.mark .leftParen)) : first = '(' := by
  rcases cut_token_cases hpiece with ⟨-, hnumber⟩ | ⟨-, hword⟩ | hmark
  · obtain ⟨_, hfound, -⟩ | ⟨_, _, _, hfound, -⟩ := Cut.number_token_cases hnumber <;> cases hfound
  · obtain ⟨_, hfound⟩ | hfound | hfound := Token.ofWord_cases _ <;> cases hfound ▸ hword
  · obtain ⟨sign, hsign, hwritten⟩ := Cut.mark_token_cases hmark
    obtain rfl := Token.mark.inj hsign
    exact (List.cons_prefix_cons.1 hwritten).1.symm

theorem first_mem_cut_text (first : Char) (others : List Char) :
    first ∈ (cut first others).text := by
  obtain ⟨taken, further, htext⟩ := List.exists_cons_of_ne_nil (cut_text_ne_nil first others)
  have hwhole := cut_text_append_rest first others
  rw [htext, List.cons_append] at hwhole
  rw [htext, List.head_eq_of_cons_eq hwhole]
  exact List.mem_cons_self ..

/-- A lexeme that opens takes an opening character out of the text. -/
theorem Scanner.count_add_opens_le {scanner later : Scanner} {lexeme : Lexeme}
    (hnext : scanner.next = (.ok lexeme, later)) :
    later.rest.count '(' + (if lexeme.opens then 1 else 0) ≤ scanner.rest.count '(' := by
  have hcut (first : Char) (others : List Char) : (cut first others).text.count '(' +
      (cut first others).rest.count '(' = (first :: others).count '(' := by
    rw [← List.count_append, cut_text_append_rest]
  fun_induction next scanner with
  | case1 position =>
    cases hnext
    exact Nat.zero_le _
  | case2 first others position piece behind trivia hpiece induct =>
    refine (induct hnext).trans ?_
    rw [behind_rest, ← hcut first others]
    exact Nat.le_add_left _ _
  | case3 first others position piece behind token hpiece =>
    obtain ⟨hlexeme, rfl⟩ := Prod.mk.inj hnext
    obtain rfl := Except.ok.inj hlexeme
    rw [behind_rest, ← hcut first others, Nat.add_comm]
    refine Nat.add_le_add_right ?_ _
    split
    · next hopens =>
      have htoken : token = .mark .leftParen := of_decide_eq_true hopens
      obtain rfl := eq_of_cut_leftParen (htoken ▸ hpiece)
      exact List.one_le_count_iff.2 (first_mem_cut_text _ _)
    · exact Nat.zero_le _
  | case4 | case5 | case6 => cases hnext

theorem Feed.countP_opens_le (scanner : Scanner) :
    (ofScanner scanner).lexemes.countP Lexeme.opens ≤ scanner.rest.count '(' := by
  fun_induction ofScanner scanner with
  | case1 | case2 => exact Nat.zero_le _
  | case3 scanner lexeme later hanswer hgoing feed induct =>
    rw [List.countP_cons]
    exact (Nat.add_le_add_right induct _).trans (Scanner.count_add_opens_le hanswer)

/-- There are no more opening parentheses among the lexemes of a text than in the text. -/
theorem Feed.countP_opens_ahead_le (text : String) :
    (ofText text).ahead.countP Lexeme.opens ≤ text.toList.count '(' := by
  have hlexemes := countP_opens_le (Scanner.ofText text)
  rw [ahead, List.countP_append]
  cases (ofText text).ending <;> exact hlexemes

/-! ### Expressions read off a text -/

/-- The expression at the front of a text. -/
def readExpression (limit : Nat) (text : String) : Except ParseFault Expression :=
  match Cursor.ofFeed (Feed.ofText text) with
  | .error fault => .error (.lexical fault)
  | .ok cursor =>
    match Rule.expression limit limit cursor with
    | .ok e _ => .ok e
    | .error fault _ => .error fault

/-- An expression that is read off a text needs no more parentheses than the text has. -/
theorem parentheses_le_of_read {limit : Nat} {text : String} {e : Expression}
    (hread : readExpression limit text = .ok e) : e.parentheses ≤ text.toList.count '(' := by
  rw [readExpression] at hread
  rcases Cursor.ofFeed_cases text with ⟨cursor, hcursor, hsound, hdepth, hahead, -⟩ |
    ⟨fault, hfault, -, -⟩
  · rw [hcursor] at hread
    cases @Rule.reads_expression_levels limit cursor limit (Nat.le_add_left limit _) hsound with
    | refused result | broken result | tooDeep result =>
      simp only [result] at hread
      cases hread
    | @read other last x result moves depth written =>
      simp only [result] at hread
      obtain rfl := Except.ok.inj hread
      have hstarts : x <+: (Feed.ofText text).ahead := ⟨last.ahead, by rw [← moves.ahead, hahead]⟩
      calc other.parentheses
          ≤ other.parentheses + Strength.expression.lack other.strength := Nat.le_add_right _ _
        _ ≤ x.countP Lexeme.opens := Expression.parentheses_le written
        _ ≤ (Feed.ofText text).ahead.countP Lexeme.opens := hstarts.sublist.countP_le
        _ ≤ text.toList.count '(' := Feed.countP_opens_ahead_le text
  · rw [hfault] at hread
    cases hread

end MiniPascal
