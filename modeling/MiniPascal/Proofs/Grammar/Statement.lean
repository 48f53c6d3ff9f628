import MiniPascal.Proofs.Grammar.Expression

/-!
# Rules for statements

The rule for compound statements reads `Wording.Compound`. A statement may be empty, so what stands
behind one must not begin another: `Rule.Continues` collects the lexemes that would. The mark
between statements and the `END` behind them are not among these, which is why one lexeme suffices
to see where an empty statement ends.
-/

set_option autoImplicit false
set_option relaxedAutoImplicit false

namespace MiniPascal

namespace Wording

/-- A single statement. -/
def Clause : Wording MiniPascal.Statement := fun x s ↦ Sequence x [s]

theorem sequence_ne_nil {x : List Lexeme} {ss : List MiniPascal.Statement}
    (hsequence : Sequence x ss) : ss ≠ [] := by
  cases hsequence <;> exact List.cons_ne_nil _ _

/-- The forms of a single statement. -/
theorem Clause.cases {x : List Lexeme} {s : MiniPascal.Statement} (hclause : Clause x s) :
    (x = [] ∧ s = .empty) ∨
      (∃ name p q y value, Expr .expression y value ∧
        x = ⟨.identifier name, p⟩ :: ⟨.mark .assign, q⟩ :: y ∧
        s = .assign ⟨name, p.line⟩ value q.line) ∨
      ∃ inner, Compound x inner ∧ s = .compound inner := by
  change Sequence x [s] at hclause
  cases hclause with
  | empty => exact .inl ⟨rfl, rfl⟩
  | assign name p q hvalue => exact .inr (.inl ⟨name, p, q, _, _, hvalue, rfl, rfl⟩)
  | compound p q hinner => exact .inr (.inr ⟨_, .mk p q hinner, rfl⟩)
  | more p hfirst hothers => exact absurd rfl (sequence_ne_nil hothers)

theorem Compound.clause {x : List Lexeme} {inner : List MiniPascal.Statement}
    (hcompound : Compound x inner) : Clause x (.compound inner) := by
  obtain ⟨p, q, hinner⟩ := hcompound
  exact .compound p q hinner

theorem separated_clause (x : List Lexeme) (ss : List MiniPascal.Statement) :
    Separated .semicolon Clause x ss ↔ Sequence x ss := by
  constructor
  · intro hseparated
    induction hseparated with
    | one hclause => exact hclause
    | more p hclause _ induct => exact .more p hclause induct
  · intro hsequence
    induction hsequence with
    | empty => exact .one .empty
    | assign name p q hvalue => exact .one (.assign name p q hvalue)
    | compound p q hinner _ => exact .one (.compound p q hinner)
    | more p hfirst _ _ induct => exact .more p hfirst induct

/-- What stands behind the name of an assignment. -/
def Assigned (target : Mention) : Wording MiniPascal.Statement :=
  (Single (·.token.kind = .mark .assign)).Then fun lexeme ↦
    (Expr .expression).Map fun value ↦ .assign target value lexeme.position.line

theorem clause_begins : Clause.Begins [] := ⟨[], .empty, .empty, List.nil_prefix⟩

theorem compound_begins : Compound.Begins [] :=
  ⟨_, _, .mk Position.start Position.start .empty, List.nil_prefix⟩

/-- A compound statement is a sequence between two lexemes. -/
theorem enclosed_iff {x : List Lexeme} {inner : List MiniPascal.Statement} :
    (Single (·.token.kind = .keyword .beginBlock)).Then
        (fun _ ↦ Sequence.Then fun inner ↦ Closing (.keyword .endBlock) inner) x inner ↔
      Compound x inner := by
  constructor
  · rintro ⟨_, ⟨token, p⟩, _, ⟨rfl, hbegin⟩, ⟨y, inner, _, hwritten,
      ⟨rfl, ⟨token', q⟩, hend, rfl⟩, rfl⟩, rfl⟩
    obtain rfl := Token.eq_keyword_of_kind hbegin
    obtain rfl := Token.eq_keyword_of_kind hend
    exact .mk p q hwritten
  · rintro ⟨p, q, hwritten⟩
    exact ⟨_, _, _, ⟨rfl, rfl⟩, ⟨_, inner, _, hwritten, ⟨rfl, _, rfl, rfl⟩, rfl⟩, rfl⟩

end Wording

namespace Rule

/-- The lexemes that would go on with a statement. -/
def Continues (token : Token) : Prop :=
  Operates token ∨ token.kind = .identifier ∨ token = .keyword .beginBlock

theorem not_continues_keyword {word : Keyword} (hword : word ≠ .beginBlock) :
    ¬ Continues (.keyword word) := by
  rintro ((hoperates | hoperates) | hname | hbegin)
  · cases hoperates
  · cases hoperates
  · cases hname
  · exact hword (Token.keyword.inj hbegin)

theorem not_continues_semicolon : ¬ Continues (.mark .semicolon) := by
  rintro ((hoperates | hoperates) | hname | hbegin)
  · cases hoperates
  · cases hoperates
  · cases hname
  · cases hbegin

/-- What ends a compound statement prolongs none of its statements. -/
theorem not_continues_end (token : Token) (hkind : token.kind = .keyword .endBlock) :
    ¬ (Continues token ∨ token.kind = .mark .semicolon) := by
  rw [Token.eq_keyword_of_kind hkind]
  rintro (hcontinues | hsemicolon)
  · exact not_continues_keyword Keyword.noConfusion hcontinues
  · cases hsemicolon

variable {limit levels : Nat} {cursor : Cursor}

theorem reads_assignment {name : String} (hsound : cursor.Sound)
    (htoken : cursor.current.token = .identifier name) (hlevels : limit ≤ cursor.depth + levels) :
    Reads limit 0 Continues Wording.Clause (assignment limit levels) cursor := by
  have hbegins (target : Mention) (lexeme : Lexeme) :
      ((Wording.Expr .expression).Map fun value ↦
        Statement.assign target value lexeme.position.line).Begins [] :=
    Wording.map_begins _ (Wording.expr_begins .expression)
  have hassign : Reads limit 0 Operates (Wording.Name.Then Wording.Assigned)
      (assignment limit levels) cursor := by
    refine Reads.afterName hsound ?_ fun target later hlater hsame ↦ ?_
    · exact fun target ↦ Wording.then_begins (Wording.single_begins _) fun _ lexeme _ ↦
        hbegins target lexeme
    refine Reads.weaken (Nat.zero_le 1) (Reads.afterKind hlater Token.Kind.noConfusion
      (hbegins target) fun lexeme last hlast hsame' ↦ ?_)
    exact Reads.map _ (reads_expression_levels ((hsame'.trans hsame) ▸ hlevels) hlast)
  refine Reads.of_agrees ?_ (fun _ ↦ Or.inl) ?_ hassign
  · rintro x s ⟨_, _, _, ⟨name, p⟩, ⟨_, ⟨token, q⟩, y, ⟨rfl, hkind⟩, ⟨value, hwritten, rfl⟩,
      rfl⟩, rfl⟩
    obtain rfl := Token.eq_mark_of_kind hkind
    exact .assign name p q hwritten
  · intro y s z hclause hstops hhead
    rcases hclause.cases with ⟨rfl, rfl⟩ | ⟨other, p, q, x, value, hwritten, rfl, rfl⟩ |
      ⟨inner, ⟨p, q, hinner⟩, rfl⟩
    · refine absurd ?_ (hstops _ hhead)
      exact .inr (.inl (by rw [htoken]; rfl))
    · exact ⟨_, _, _, .mk other p, ⟨_, _, x, ⟨rfl, rfl⟩, ⟨value, hwritten, rfl⟩, rfl⟩, rfl⟩
    · rw [← Option.some.inj hhead] at htoken
      cases htoken

/-- Statements, given the rule for compound statements. -/
theorem reads_statement {compound : Rule (List Statement)} (hsound : cursor.Sound)
    (hlevels : limit ≤ cursor.depth + levels)
    (hcompound : Reads limit 0 nothing Wording.Compound compound cursor) :
    Reads limit 0 Continues Wording.Clause (statementOf limit levels compound) cursor := by
  refine Reads.peek hsound ?_
  split
  · next htoken =>
    refine Reads.of_agrees ?_ (fun _ ↦ False.elim) ?_ (Reads.map Statement.compound hcompound)
    · rintro x s ⟨inner, hinner, rfl⟩
      exact hinner.clause
    · intro y s z hclause hstops hhead
      rcases hclause.cases with ⟨rfl, rfl⟩ | ⟨name, p, q, x, value, hwritten, rfl, rfl⟩ |
        ⟨inner, hinner, rfl⟩
      · exact absurd (.inr (.inr htoken)) (hstops _ hhead)
      · rw [← Option.some.inj hhead] at htoken
        cases htoken
      · exact ⟨inner, hinner, rfl⟩
  · next name htoken => exact reads_assignment hsound htoken hlevels
  · next hbegin hname =>
    refine Reads.of_agrees ?_ (fun _ ↦ False.elim) ?_ (Reads.pure hsound Statement.empty)
    · rintro x s ⟨rfl, rfl⟩
      exact .empty
    · intro y s z hclause _ hhead
      rcases hclause.cases with ⟨rfl, rfl⟩ | ⟨name, p, q, x, value, hwritten, rfl, rfl⟩ |
        ⟨inner, ⟨p, q, hinner⟩, rfl⟩
      · exact ⟨rfl, rfl⟩
      · exact absurd (congrArg Lexeme.token (Option.some.inj hhead)).symm (hname name)
      · exact absurd (congrArg Lexeme.token (Option.some.inj hhead)).symm hbegin

/-- The end of a compound statement. An identifier in its place is refused all the same, only with
other words. -/
theorem reads_end (hsound : cursor.Sound) (inner : List Statement) :
    Reads limit 0 nothing (Wording.Closing (.keyword .endBlock) inner)
      (peek >>= fun token ↦
        let goOn : Unit → Rule (List Statement) := fun _ ↦
          expect (.keyword .endBlock) >>= fun _ ↦ pure inner
        if token.kind = .identifier then unexpected .separatorOrEnd >>= goOn else goOn ())
      cursor := by
  refine Reads.peek hsound ?_
  by_cases hname : cursor.current.token.kind = .identifier
  · rw [if_pos hname]
    refine Reads.congr hsound (fun other _ _ _ ↦ bind_of_error rfl) (Reads.unexpected hsound _
      (Wording.closing_begins _ inner) ?_)
    rintro y w z ⟨rfl, lexeme, hlexeme, rfl⟩ - hstarts
    rw [List.nil_append, List.singleton_append, List.cons_prefix_cons] at hstarts
    rw [hstarts.1, hlexeme] at hname
    cases hname
  · rw [if_neg hname]
    exact Reads.closing hsound Token.Kind.noConfusion inner

theorem reads_compound (hlevels : limit ≤ cursor.depth + levels) (hsound : cursor.Sound) :
    Reads limit 0 nothing Wording.Compound (compound limit levels) cursor := by
  induction levels generalizing cursor with
  | zero => exact .atLimit hsound hlevels rfl
  | succ levels induct =>
    rw [compound]
    refine Reads.nested hsound fun _ ↦ ?_
    have hdeeper : limit ≤ cursor.depth + 1 + levels := by omega
    have hstatement (later : Cursor) (hlater : later.Sound)
        (hdepth : cursor.depth + 1 ≤ later.depth) :
        Reads limit 0 Continues Wording.Clause
          (statementOf limit levels (compound limit levels)) later := by
      have hlater' : limit ≤ later.depth + levels :=
        Nat.le_trans hdeeper (Nat.add_le_add_right hdepth levels)
      exact reads_statement hlater hlater' (induct hlater' hlater)
    have hbehind (later : Cursor) (hlater : later.Sound)
        (hdepth : later.depth = cursor.depth + 1) :=
      Reads.bind 0
        (Reads.of_iff Wording.separated_clause (Reads.separated not_continues_semicolon
          Wording.clause_begins hstatement hlater (Nat.le_of_eq hdepth.symm)))
        (fun x inner last hmoves _ _ ↦ reads_end hmoves.sound inner)
        (fun _ inner _ ↦ Wording.closing_begins _ inner)
        (fun inner y w z hwritten _ ↦ hwritten.stops not_continues_end) (fun _ _ _ ↦ Nat.zero_le _)
    refine Reads.of_iff (fun _ _ ↦ Wording.enclosed_iff) (Reads.afterKind
      (hsound.withDepth (cursor.depth + 1)) Token.Kind.noConfusion
      (fun _ ↦ Wording.then_begins ⟨[], _, .empty, List.nil_prefix⟩ fun _ inner _ ↦
        Wording.closing_begins _ inner)
      fun lexeme later hlater hsame ↦ hbehind later hlater hsame)

end Rule

end MiniPascal
