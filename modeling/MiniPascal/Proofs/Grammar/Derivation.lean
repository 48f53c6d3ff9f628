import MiniPascal.Proofs.Grammar.Declaration
import MiniPascal.Proofs.Grammar.Production

/-!
# Derivations and trees

`sentence_iff` says that lexemes derive from the grammar, by their kinds alone, exactly where they
write some program. One direction is an induction over the wording. For the other `Phrase.Written`
reads a phrase as a statement about lexemes, in which a name of the grammar stands for the wording
of that name; `written_of_derives` is the induction over a derivation, and what it leaves to do is
one lemma for each production.
-/

set_option autoImplicit false
set_option relaxedAutoImplicit false

namespace MiniPascal

/-- The kinds of lexemes, which is all that a derivation sees. -/
def kinds (lexemes : List Lexeme) : List Token.Kind := lexemes.map (·.token.kind)

@[simp] theorem kinds_cons (lexeme : Lexeme) (others : List Lexeme) :
    kinds (lexeme :: others) = lexeme.token.kind :: kinds others := rfl

@[simp] theorem kinds_append (x y : List Lexeme) : kinds (x ++ y) = kinds x ++ kinds y :=
  List.map_append

/-- The name of the grammar for expressions of a strength. -/
def Wording.Strength.nonterminal : Strength → Nonterminal
  | .factor => .factor
  | .term => .term
  | .expression => .expression

/-- What the lexemes of a nonterminal write. -/
def Nonterminal.Written : Nonterminal → List Lexeme → Prop
  | .program, x => ∃ p, Wording.Program x p
  | .block, x => ∃ b, Wording.Block x b
  | .compound, x => ∃ inner, Wording.Compound x inner
  | .statement, x => ∃ s, Wording.Sequence x [s]
  | .expression, x => ∃ e, Wording.Expr .expression x e
  | .term, x => ∃ e, Wording.Expr .term x e
  | .factor, x => ∃ e, Wording.Expr .factor x e
  | .identifiers, x => ∃ names, Wording.Separated .comma Wording.Name x names
  | .typeName, x => ∃ typeName, Wording.TypeName x typeName

/-- What the lexemes of a phrase are, given what those of each nonterminal write. -/
def Phrase.Written : Phrase → List Lexeme → Prop
  | .token kind, x => ∃ lexeme : Lexeme, lexeme.token.kind = kind ∧ x = [lexeme]
  | .rule name, x => name.Written x
  | .empty, x => x = []
  | .sequence first second, x => ∃ y z, first.Written y ∧ second.Written z ∧ x = y ++ z
  | .either first second, x => first.Written x ∨ second.Written x
  | .repeated item, x => ∃ ys : List (List Lexeme), (∀ y ∈ ys, item.Written y) ∧ x = ys.flatten

namespace Phrase

variable {α : Type}

/-! ### From derivations to trees -/

theorem written_mark {sign : Mark} {x : List Lexeme} (hmark : (mark sign).Written x) :
    ∃ p, x = [⟨.mark sign, p⟩] := by
  obtain ⟨⟨token, p⟩, hkind, rfl⟩ := hmark
  obtain rfl := Token.eq_mark_of_kind hkind
  exact ⟨p, rfl⟩

theorem written_keyword {word : Keyword} {x : List Lexeme} (hkeyword : (keyword word).Written x) :
    ∃ p, x = [⟨.keyword word, p⟩] := by
  obtain ⟨⟨token, p⟩, hkind, rfl⟩ := hkeyword
  obtain rfl := Token.eq_keyword_of_kind hkind
  exact ⟨p, rfl⟩

theorem written_identifier {x : List Lexeme} (hname : (token .identifier).Written x) :
    ∃ name p, x = [⟨.identifier name, p⟩] := by
  obtain ⟨⟨token, p⟩, hkind, rfl⟩ := hname
  cases token with
  | identifier name => exact ⟨name, p, rfl⟩
  | keyword | mark | integer | real | eof => cases hkind

theorem many_of_written {item : Phrase} {wording : Wording α} {x : List Lexeme}
    (hitem : ∀ y, item.Written y → ∃ v, wording y v) (hrepeated : (repeated item).Written x) :
    ∃ vs, Wording.Many wording x vs := by
  obtain ⟨ys, hys, rfl⟩ := hrepeated
  induction ys with
  | nil => exact ⟨[], .nil⟩
  | cons y ys induct =>
    obtain ⟨v, hv⟩ := hitem y (hys y (List.mem_cons_self ..))
    obtain ⟨vs, hvs⟩ := induct fun z hz ↦ hys z (List.mem_cons_of_mem _ hz)
    exact ⟨v :: vs, .cons hv hvs⟩

theorem separated_of_written {item : Phrase} {wording : Wording α} {sign : Mark} {x : List Lexeme}
    (hitem : ∀ y, item.Written y → ∃ v, wording y v)
    (hseparated : (separated sign item).Written x) :
    ∃ vs, Wording.Separated sign wording x vs := by
  obtain ⟨y, _, hfirst, ⟨ys, hys, rfl⟩, rfl⟩ := hseparated
  induction ys generalizing y with
  | nil =>
    obtain ⟨v, hv⟩ := hitem y hfirst
    exact ⟨[v], by simpa using Wording.Separated.one hv⟩
  | cons z ys induct =>
    obtain ⟨_, w, hmark, hw, rfl⟩ := hys z (List.mem_cons_self ..)
    obtain ⟨p, rfl⟩ := written_mark hmark
    obtain ⟨v, hv⟩ := hitem y hfirst
    obtain ⟨vs, hvs⟩ := induct w hw fun z hz ↦ hys z (List.mem_cons_of_mem _ hz)
    exact ⟨v :: vs, by simpa using Wording.Separated.more p hv hvs⟩

/-- Operands with selected operators between them. -/
theorem chain_of_written {operand operators : Phrase} {wording : Wording Expression}
    {select : Token → Option Operator} {x : List Lexeme}
    (hoperand : ∀ y, operand.Written y → ∃ e, wording y e)
    (hoperators : ∀ y, operators.Written y →
      ∃ lexeme operator, y = [lexeme] ∧ select lexeme.token = some operator)
    (hchain : (sequence operand (repeated (sequence operators operand))).Written x) :
    ∃ e, Wording.Chain select wording x e := by
  obtain ⟨y, z, hfirst, hlinks, rfl⟩ := hchain
  obtain ⟨first, hfirst⟩ := hoperand y hfirst
  have hlink (x : List Lexeme) (hx : (sequence operators operand).Written x) :
      ∃ link, wording.Linked select x link := by
    obtain ⟨_, w, hoperator, hright, rfl⟩ := hx
    obtain ⟨lexeme, operator, rfl, hselect⟩ := hoperators _ hoperator
    obtain ⟨right, hright⟩ := hoperand w hright
    exact ⟨_, lexeme, w, operator, right, rfl, hselect, hright, rfl⟩
  obtain ⟨links, hlinks⟩ := many_of_written hlink hlinks
  exact ⟨_, y, first, z, hfirst, ⟨links, hlinks, rfl⟩, rfl⟩

end Phrase

open Phrase in
theorem Nonterminal.written_term {x : List Lexeme} (hterm : (production .term).Written x) :
    Nonterminal.term.Written x := by
  have hoperators (y : List Lexeme)
      (hy : (either (mark .star) (either (mark .doubleSlash) (mark .slash))).Written y) :
      ∃ lexeme operator, y = [lexeme] ∧ Rule.multiplicative lexeme.token = some operator := by
    rcases hy with hy | hy | hy
    all_goals
      obtain ⟨p, rfl⟩ := written_mark hy
      exact ⟨_, _, rfl, rfl⟩
  obtain ⟨e, hchain⟩ := chain_of_written (fun _ ↦ id) hoperators hterm
  exact ⟨e, (Wording.chain_term x e).1 hchain⟩

open Phrase in
theorem Nonterminal.written_expression {x : List Lexeme}
    (hexpression : (production .expression).Written x) : Nonterminal.expression.Written x := by
  have hoperators (y : List Lexeme) (hy : (either (mark .plus) (mark .minus)).Written y) :
      ∃ lexeme operator, y = [lexeme] ∧ Rule.additive lexeme.token = some operator := by
    rcases hy with hy | hy
    all_goals
      obtain ⟨p, rfl⟩ := written_mark hy
      exact ⟨_, _, rfl, rfl⟩
  obtain ⟨e, hchain⟩ := chain_of_written (fun _ ↦ id) hoperators hexpression
  exact ⟨e, (Wording.chain_expression x e).1 hchain⟩

theorem Nonterminal.written_factor {x : List Lexeme} (hfactor : (production .factor).Written x) :
    Nonterminal.factor.Written x := by
  rcases hfactor with ⟨_, y, hsign, ⟨e, hoperand⟩, rfl⟩ | hinteger | hreal | hparen | hname
  · rcases hsign with hplus | hminus
    · obtain ⟨p, rfl⟩ := Phrase.written_mark hplus
      exact ⟨_, .signed .plus p hoperand⟩
    · obtain ⟨p, rfl⟩ := Phrase.written_mark hminus
      exact ⟨_, .signed .minus p hoperand⟩
  · obtain ⟨⟨token, p⟩, hkind, rfl⟩ := hinteger
    cases token with
    | integer n => exact ⟨_, .integer n p⟩
    | keyword | mark | identifier | real | eof => cases hkind
  · obtain ⟨⟨token, p⟩, hkind, rfl⟩ := hreal
    cases token with
    | real r => exact ⟨_, .real r p⟩
    | keyword | mark | identifier | integer | eof => cases hkind
  · obtain ⟨_, _, hopen, ⟨y, _, ⟨e, hinner⟩, ⟨_, _, hclose, rfl, rfl⟩, rfl⟩, rfl⟩ := hparen
    obtain ⟨p, rfl⟩ := Phrase.written_mark hopen
    obtain ⟨q, rfl⟩ := Phrase.written_mark hclose
    exact ⟨e, by simpa using .parenthesized p q hinner⟩
  · obtain ⟨name, p, rfl⟩ := Phrase.written_identifier hname
    exact ⟨_, .read name p⟩

theorem Nonterminal.written_statement {x : List Lexeme}
    (hstatement : (production .statement).Written x) : Nonterminal.statement.Written x := by
  rcases hstatement with ⟨inner, hcompound⟩ | hassign | hempty
  · exact ⟨_, hcompound.clause⟩
  · obtain ⟨_, _, hname, ⟨_, _, hassign, ⟨y, _, ⟨value, hvalue⟩, rfl, rfl⟩, rfl⟩, rfl⟩ := hassign
    obtain ⟨name, p, rfl⟩ := Phrase.written_identifier hname
    obtain ⟨q, rfl⟩ := Phrase.written_mark hassign
    exact ⟨_, by simpa using .assign name p q hvalue⟩
  · obtain rfl := hempty
    exact ⟨_, .empty⟩

theorem Nonterminal.written_compound {x : List Lexeme}
    (hcompound : (production .compound).Written x) : Nonterminal.compound.Written x := by
  obtain ⟨_, _, hbegin, ⟨y, _, hstatements, ⟨_, _, hend, rfl, rfl⟩, rfl⟩, rfl⟩ := hcompound
  obtain ⟨p, rfl⟩ := Phrase.written_keyword hbegin
  obtain ⟨q, rfl⟩ := Phrase.written_keyword hend
  obtain ⟨ss, hstatements⟩ := Phrase.separated_of_written (fun _ ↦ id) hstatements
  exact ⟨ss, by simpa using .mk p q ((Wording.separated_clause y ss).1 hstatements)⟩

theorem Nonterminal.written_identifiers {x : List Lexeme}
    (hnames : (production .identifiers).Written x) : Nonterminal.identifiers.Written x := by
  refine Phrase.separated_of_written (fun y hname ↦ ?_) hnames
  obtain ⟨name, p, rfl⟩ := Phrase.written_identifier hname
  exact ⟨_, .mk name p⟩

theorem Nonterminal.written_typeName {x : List Lexeme} (htype : (production .typeName).Written x) :
    Nonterminal.typeName.Written x := by
  rcases htype with hinteger | hreal
  · obtain ⟨p, rfl⟩ := Phrase.written_keyword hinteger
    exact ⟨_, .integer p⟩
  · obtain ⟨p, rfl⟩ := Phrase.written_keyword hreal
    exact ⟨_, .real p⟩

theorem Phrase.group_of_written {x : List Lexeme} (hgroup : group.Written x) :
    ∃ declared, Wording.Group x declared := by
  obtain ⟨y, _, ⟨names, hnames⟩, ⟨_, _, hcolon, ⟨z, _, ⟨typeName, htype⟩, rfl, rfl⟩, rfl⟩, rfl⟩ :=
    hgroup
  obtain ⟨p, rfl⟩ := written_mark hcolon
  exact ⟨_, by simpa using .mk p hnames htype⟩

theorem Phrase.closedGroup_of_written {x : List Lexeme}
    (hgroup : (sequence group (mark .semicolon)).Written x) :
    ∃ declared, Wording.ClosedGroup x declared := by
  obtain ⟨y, _, hgroup, hsemicolon, rfl⟩ := hgroup
  obtain ⟨declared, hgroup⟩ := group_of_written hgroup
  obtain ⟨p, rfl⟩ := written_mark hsemicolon
  exact ⟨declared, .mk p hgroup⟩

theorem Phrase.section_of_written {x : List Lexeme} (hvariables : variableSection.Written x) :
    ∃ declared, Wording.Section x declared := by
  obtain ⟨_, _, hvar, ⟨y, z, hfirst, hothers, rfl⟩, rfl⟩ := hvariables
  obtain ⟨p, rfl⟩ := written_keyword hvar
  obtain ⟨first, hfirst⟩ := closedGroup_of_written hfirst
  obtain ⟨others, hothers⟩ := many_of_written (fun _ ↦ closedGroup_of_written) hothers
  have hall := Wording.Section.mk p hfirst hothers
  exact ⟨_, hall⟩

theorem Phrase.parameters_of_written {x : List Lexeme}
    (hparameters : (optional parameters).Written x) :
    ∃ declared, Wording.Parameters x declared := by
  rcases hparameters with ⟨_, _, hopen, ⟨y, _, hgroups, ⟨_, _, hclose, rfl, rfl⟩, rfl⟩, rfl⟩ | hnone
  · obtain ⟨p, rfl⟩ := written_mark hopen
    obtain ⟨q, rfl⟩ := written_mark hclose
    obtain ⟨groups, hgroups⟩ := separated_of_written (fun _ ↦ group_of_written) hgroups
    exact ⟨_, by simpa using .listed p q hgroups⟩
  · obtain rfl := hnone
    exact ⟨[], .none⟩

theorem Phrase.procedure_of_written {x : List Lexeme} (hprocedure : procedure.Written x) :
    ∃ d, Wording.Procedure x d := by
  obtain ⟨_, _, hkeyword, ⟨_, _, hname, ⟨y, _, hparameters, ⟨_, _, hsemicolon,
    ⟨_, _, ⟨block, hblock⟩, ⟨_, _, hend, rfl, rfl⟩, rfl⟩, rfl⟩, rfl⟩, rfl⟩, rfl⟩ := hprocedure
  obtain ⟨p, rfl⟩ := written_keyword hkeyword
  obtain ⟨name, q, rfl⟩ := written_identifier hname
  obtain ⟨parameters, hparameters⟩ := parameters_of_written hparameters
  obtain ⟨r, rfl⟩ := written_mark hsemicolon
  obtain ⟨s, rfl⟩ := written_mark hend
  obtain ⟨hdeclared, hinner, hbody⟩ := hblock
  have hall : Wording.Procedure _ _ := .cons name p q r s hparameters hdeclared hinner hbody .nil
  exact ⟨_, by simpa using hall⟩

theorem Nonterminal.written_block {x : List Lexeme} (hblock : (production .block).Written x) :
    Nonterminal.block.Written x := by
  obtain ⟨v, _, hvariables, ⟨w, _, hprocedures, ⟨y, _, ⟨body, hbody⟩, rfl, rfl⟩, rfl⟩, rfl⟩ :=
    hblock
  obtain ⟨sections, hvariables⟩ :=
    Phrase.many_of_written (fun _ ↦ Phrase.section_of_written) hvariables
  obtain ⟨inner, hprocedures⟩ :=
    Phrase.many_of_written (fun _ ↦ Phrase.procedure_of_written) hprocedures
  have hall := Wording.Block.mk (.mk hvariables) ((Wording.many_procedure w inner).1 hprocedures)
    hbody
  exact ⟨_, by simpa using hall⟩

theorem Nonterminal.written_program {x : List Lexeme} (hprogram : (production .program).Written x) :
    Nonterminal.program.Written x := by
  obtain ⟨_, _, hkeyword, ⟨_, _, hname, ⟨_, _, hsemicolon, ⟨y, _, ⟨block, hblock⟩,
    ⟨_, _, hdot, ⟨_, _, hend, rfl, rfl⟩, rfl⟩, rfl⟩, rfl⟩, rfl⟩, rfl⟩ := hprogram
  obtain ⟨p, rfl⟩ := Phrase.written_keyword hkeyword
  obtain ⟨name, q, rfl⟩ := Phrase.written_identifier hname
  obtain ⟨r, rfl⟩ := Phrase.written_mark hsemicolon
  obtain ⟨s, rfl⟩ := Phrase.written_mark hdot
  obtain ⟨⟨token, t⟩, hkind, rfl⟩ := hend
  obtain rfl := Token.eq_eof_of_kind hkind
  exact ⟨_, by simpa using .mk name p q r s t hblock⟩

/-- What the lexemes of a production write, those of its name write. -/
theorem Nonterminal.written_of_production {name : Nonterminal} {x : List Lexeme}
    (hwritten : (production name).Written x) : name.Written x := by
  cases name with
  | program => exact written_program hwritten
  | block => exact written_block hwritten
  | compound => exact written_compound hwritten
  | statement => exact written_statement hwritten
  | expression => exact written_expression hwritten
  | term => exact written_term hwritten
  | factor => exact written_factor hwritten
  | identifiers => exact written_identifiers hwritten
  | typeName => exact written_typeName hwritten

theorem Phrase.Derives.written {phrase : Phrase} {ks : List Token.Kind} {x : List Lexeme}
    (hderives : phrase.Derives ks) (hkinds : kinds x = ks) : phrase.Written x := by
  induction hderives generalizing x with
  | token kind =>
    obtain ⟨lexeme, rfl, hkind⟩ := List.map_eq_singleton_iff.1 hkinds
    exact ⟨lexeme, hkind, rfl⟩
  | rule _ induct => exact Nonterminal.written_of_production (induct hkinds)
  | empty => exact List.map_eq_nil_iff.1 hkinds
  | sequence _ _ first second =>
    obtain ⟨y, z, rfl, hy, hz⟩ := List.map_eq_append_iff.1 hkinds
    exact ⟨y, z, first hy, second hz, rfl⟩
  | left _ induct => exact .inl (induct hkinds)
  | right _ induct => exact .inr (induct hkinds)
  | done => exact ⟨[], by simp, List.map_eq_nil_iff.1 hkinds⟩
  | again _ _ first others =>
    obtain ⟨y, z, rfl, hy, hz⟩ := List.map_eq_append_iff.1 hkinds
    obtain ⟨ys, hys, rfl⟩ := others hz
    refine ⟨y :: ys, ?_, rfl⟩
    intro w hw
    rcases List.mem_cons.1 hw with rfl | hw
    · exact first hy
    · exact hys w hw

/-! ### From trees to derivations -/

namespace Phrase.Derives

theorem repeated_append {item : Phrase} {ks ls : List Token.Kind}
    (hfirst : (Phrase.repeated item).Derives ks) (hlast : item.Derives ls) :
    (Phrase.repeated item).Derives (ks ++ ls) := by
  generalize hphrase : Phrase.repeated item = phrase at hfirst
  induction hfirst with
  | done =>
    cases hphrase
    simpa using again hlast done
  | again hitem _ _ induct =>
    cases hphrase
    rw [List.append_assoc]
    exact again hitem (induct rfl)
  | token | rule | empty | sequence | left | right => cases hphrase

/-- A chain may be prolonged by a link. -/
theorem chain_append {operand link : Phrase} {ks ls : List Token.Kind}
    (hchain : (Phrase.sequence operand (.repeated link)).Derives ks) (hlink : link.Derives ls) :
    (Phrase.sequence operand (.repeated link)).Derives (ks ++ ls) := by
  cases hchain with
  | sequence hfirst hothers =>
    rw [List.append_assoc]
    exact sequence hfirst (repeated_append hothers hlink)

theorem of_many {α : Type} {item : Phrase} {wording : Wording α} {x : List Lexeme} {vs : List α}
    (hitem : ∀ y v, wording y v → item.Derives (kinds y)) (hmany : Wording.Many wording x vs) :
    (Phrase.repeated item).Derives (kinds x) := by
  induction hmany with
  | nil => exact done
  | cons hfirst _ induct =>
    rw [kinds_append]
    exact again (hitem _ _ hfirst) induct

theorem of_separated {α : Type} {item : Phrase} {wording : Wording α} {sign : Mark}
    {x : List Lexeme} {vs : List α} (hitem : ∀ y v, wording y v → item.Derives (kinds y))
    (hseparated : Wording.Separated sign wording x vs) :
    (Phrase.separated sign item).Derives (kinds x) := by
  induction hseparated with
  | one hone =>
    rw [← List.append_nil (kinds _)]
    exact sequence (hitem _ _ hone) done
  | @more x y v vs p hfirst _ induct =>
    rw [kinds_append, kinds_cons]
    generalize kinds y = ks at induct ⊢
    cases induct with
    | sequence hsecond hothers =>
      exact sequence (hitem _ _ hfirst) (again (sequence (token (.mark sign)) hsecond) hothers)

theorem of_expr {strength : Wording.Strength} {x : List Lexeme} {e : Expression}
    (hexpr : Wording.Expr strength x e) :
    (Phrase.rule strength.nonterminal).Derives (kinds x) := by
  induction hexpr with
  | signed sign p _ induct =>
    cases sign with
    | plus => exact rule (left (sequence (left (token _)) induct))
    | minus => exact rule (left (sequence (right (token _)) induct))
  | integer n p => exact rule (right (left (token _)))
  | real r p => exact rule (right (right (left (token _))))
  | parenthesized p q _ induct =>
    rw [kinds_cons, kinds_append]
    exact rule (right (right (right (left (sequence (token _)
      (sequence induct (sequence (token _) empty)))))))
  | read name p => exact rule (right (right (right (right (token _)))))
  | factor _ induct =>
    rw [← List.append_nil (kinds _)]
    exact rule (sequence induct done)
  | @product x y left' right' operator p hprecedence _ _ first second =>
    rw [kinds_append, kinds_cons]
    cases first with
    | rule hchain =>
      refine rule (chain_append hchain (@sequence _ _ [_] _ ?_ second))
      cases operator with
      | mul => exact left (token _)
      | floorDiv => exact right (left (token _))
      | realDiv => exact right (right (token _))
      | add | sub => cases hprecedence
  | term _ induct =>
    rw [← List.append_nil (kinds _)]
    exact rule (sequence induct done)
  | @sum x y left' right' operator p hprecedence _ _ first second =>
    rw [kinds_append, kinds_cons]
    cases first with
    | rule hchain =>
      refine rule (chain_append hchain (@sequence _ _ [_] _ ?_ second))
      cases operator with
      | add => exact left (token _)
      | sub => exact right (token _)
      | mul | realDiv | floorDiv => cases hprecedence

/-- Statements in a row, and the same for a single one. -/
theorem of_sequence {x : List Lexeme} {ss : List Statement} (hsequence : Wording.Sequence x ss) :
    (∀ s, ss = [s] → (Phrase.rule .statement).Derives (kinds x)) ∧
      (Phrase.separated .semicolon (.rule .statement)).Derives (kinds x) := by
  have hone {ks : List Token.Kind} (hstatement : (Phrase.rule .statement).Derives ks) :
      (Phrase.separated .semicolon (.rule .statement)).Derives ks := by
    rw [← List.append_nil ks]
    exact sequence hstatement done
  induction hsequence with
  | empty =>
    have hstatement : (Phrase.rule .statement).Derives [] := rule (right (right empty))
    exact ⟨fun _ _ ↦ hstatement, hone hstatement⟩
  | @assign x value name p q hvalue =>
    have hstatement :
        (Phrase.rule .statement).Derives (.identifier :: .mark .assign :: kinds x) := by
      rw [← List.append_nil (kinds x)]
      exact rule (right (left (sequence (token .identifier) (sequence (token (.mark .assign))
        (sequence (of_expr hvalue) empty)))))
    exact ⟨fun _ _ ↦ hstatement, hone hstatement⟩
  | @compound x inner p q _ induct =>
    have hstatement : (Phrase.rule .statement).Derives
        (.keyword .beginBlock :: (kinds x ++ [.keyword .endBlock])) :=
      rule (left (rule (sequence (token (.keyword .beginBlock)) (sequence induct.2
        (sequence (token (.keyword .endBlock)) empty)))))
    rw [kinds_cons, kinds_append]
    exact ⟨fun _ _ ↦ hstatement, hone hstatement⟩
  | @more x y first others p hfirst hothers induct₁ induct₂ =>
    refine ⟨fun s hs ↦ absurd (List.cons.inj hs).2 (Wording.sequence_ne_nil hothers), ?_⟩
    rw [kinds_append, kinds_cons]
    have hrest := induct₂.2
    generalize kinds y = ks at hrest ⊢
    cases hrest with
    | sequence hsecond hmore =>
      exact sequence (induct₁.1 first rfl)
        (again (sequence (token (.mark .semicolon)) hsecond) hmore)

theorem of_compound {x : List Lexeme} {inner : List Statement}
    (hcompound : Wording.Compound x inner) :
    (Phrase.rule .compound).Derives (kinds x) := by
  obtain ⟨p, q, hinner⟩ := hcompound
  rw [kinds_cons, kinds_append]
  exact rule (sequence (token (.keyword .beginBlock)) (sequence (of_sequence hinner).2
    (sequence (token (.keyword .endBlock)) empty)))

theorem of_group {x : List Lexeme} {declared : List VariableDeclaration}
    (hgroup : Wording.Group x declared) : Phrase.group.Derives (kinds x) := by
  obtain @⟨x, y, names, typeName, p, hnames, htype⟩ := hgroup
  have hidentifiers : (production .identifiers).Derives (kinds x) := by
    refine of_separated ?_ hnames
    rintro z m ⟨name, q⟩
    exact token .identifier
  have hscalar : (production .typeName).Derives (kinds y) := by
    cases htype with
    | integer q => exact left (token (.keyword .integer))
    | real q => exact right (token (.keyword .real))
  rw [kinds_append, kinds_cons, ← List.append_nil (kinds y)]
  exact sequence (rule hidentifiers) (sequence (token (.mark .colon))
    (sequence (rule hscalar) empty))

theorem of_closedGroup {x : List Lexeme} {declared : List VariableDeclaration}
    (hgroup : Wording.ClosedGroup x declared) :
    (Phrase.sequence .group (.mark .semicolon)).Derives (kinds x) := by
  obtain ⟨p, hgroup⟩ := hgroup
  rw [kinds_append]
  exact sequence (of_group hgroup) (token (.mark .semicolon))

theorem of_section {x : List Lexeme} {declared : List VariableDeclaration}
    (hsection : Wording.Section x declared) : Phrase.variableSection.Derives (kinds x) := by
  obtain ⟨p, hfirst, hothers⟩ := hsection
  rw [kinds_cons, kinds_append]
  exact sequence (token (.keyword .var))
    (sequence (of_closedGroup hfirst) (of_many (fun _ _ ↦ of_closedGroup) hothers))

theorem of_parameters {x : List Lexeme} {declared : List VariableDeclaration}
    (hparameters : Wording.Parameters x declared) :
    (Phrase.optional .parameters).Derives (kinds x) := by
  cases hparameters with
  | none => exact right empty
  | listed p q hgroups =>
    rw [kinds_cons, kinds_append]
    exact left (sequence (token (.mark .leftParen))
      (sequence (of_separated (fun _ _ ↦ of_group) hgroups)
        (sequence (token (.mark .rightParen)) empty)))

/-- Variables, procedures and a body make a block. -/
theorem of_parts {v w y : List Lexeme} {declared : List VariableDeclaration} {body : List Statement}
    (hvariables : Wording.Variables v declared)
    (hprocedures : (Phrase.repeated .procedure).Derives (kinds w))
    (hbody : Wording.Compound y body) : (Phrase.rule .block).Derives (kinds (v ++ w ++ y)) := by
  obtain ⟨hsections⟩ := hvariables
  rw [List.append_assoc, kinds_append, kinds_append, ← List.append_nil (kinds y)]
  exact rule (sequence (of_many (fun _ _ ↦ of_section) hsections)
    (sequence hprocedures (sequence (of_compound hbody) empty)))

theorem of_procedures {x : List Lexeme} {ds : List Declaration}
    (hprocedures : Wording.Procedures x ds) : (Phrase.repeated .procedure).Derives (kinds x) := by
  induction hprocedures with
  | nil => exact done
  | @cons x v w y z _ _ _ _ _ name p q r s hparameters hvariables _ hbody _ inner others =>
    have hblock := of_parts hvariables inner hbody
    have hprocedure : Phrase.procedure.Derives (.keyword .procedure :: .identifier ::
        (kinds x ++ .mark .semicolon :: (kinds (v ++ w ++ y) ++ [.mark .semicolon]))) :=
      sequence (token (.keyword .procedure)) (sequence (token .identifier)
        (sequence (of_parameters hparameters) (sequence (token (.mark .semicolon))
          (sequence hblock (sequence (token (.mark .semicolon)) empty)))))
    have hall := again hprocedure others
    simpa [Token.kind] using hall

theorem of_block {x : List Lexeme} {b : Block} (hblock : Wording.Block x b) :
    (Phrase.rule .block).Derives (kinds x) := by
  obtain ⟨hvariables, hprocedures, hbody⟩ := hblock
  exact of_parts hvariables (of_procedures hprocedures) hbody

theorem of_program {x : List Lexeme} {p : Program} (hprogram : Wording.Program x p) :
    (Phrase.rule .program).Derives (kinds x) := by
  obtain @⟨x, block, name, p, q, r, s, t, hblock⟩ := hprogram
  rw [kinds_cons, kinds_cons, kinds_cons, kinds_append]
  exact rule (sequence (token (.keyword .program)) (sequence (token .identifier)
    (sequence (token (.mark .semicolon)) (sequence (of_block hblock)
      (sequence (token (.mark .dot)) (sequence (token .eof) empty))))))

end Phrase.Derives

/-- Lexemes are a sentence exactly where they write some program. -/
theorem sentence_iff {lexemes : List Lexeme} :
    Sentence (kinds lexemes) ↔ ∃ p, Wording.Program lexemes p := by
  constructor
  · intro hsentence
    exact hsentence.written rfl
  · rintro ⟨p, hprogram⟩
    exact .of_program hprogram

end MiniPascal
