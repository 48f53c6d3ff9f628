import MiniPascal.Proofs.Nesting.Room
import MiniPascal.Proofs.Token.Cutting

/-!
# Programs deeper than the limit

From the limit three on there is a program that `parse` takes although it is deeper than the limit:
the left operand of a sum uses up all levels, is closed again, and then hangs one level deeper than
it was read. `parse_signedSum` follows `parse` through this program, and `depth_le_limit_iff` says
for which limits and for which programs the depth stays within the limit.
-/

set_option autoImplicit false
set_option relaxedAutoImplicit false

namespace MiniPascal

namespace Rule

variable {α β : Type} {limit levels : Nat}

/-! ### Single runs of rules -/

/-- The cursor before the lexemes `x`, then `next`, then `rest`. -/
def facing (x : List Lexeme) (next : Lexeme) (rest : List Lexeme) (ending : Ending) (depth : Nat) :
    Cursor :=
  match x with
  | [] => ⟨next, rest, ending, depth⟩
  | first :: others => ⟨first, others ++ next :: rest, ending, depth⟩

theorem advance_facing (first : Lexeme) (x : List Lexeme) (next : Lexeme) (rest : List Lexeme)
    (ending : Ending) (depth : Nat) :
    advance (facing (first :: x) next rest ending depth) =
      .ok first (facing x next rest ending depth) := by
  cases x <;> rfl

theorem expect_facing {kind : Token.Kind} {first : Lexeme} (hkind : first.token.kind = kind)
    (x : List Lexeme) (next : Lexeme) (rest : List Lexeme) (ending : Ending) (depth : Nat) :
    expect kind (facing (first :: x) next rest ending depth) =
      .ok first (facing x next rest ending depth) := by
  refine (peek_bind _ _).trans ?_
  change (if first.token.kind = kind then advance else unexpected (.token kind))
    (facing (first :: x) next rest ending depth) = _
  rw [if_pos hkind]
  exact advance_facing first x next rest ending depth

theorem expect_run {kind : Token.Kind} {lexeme next : Lexeme} {rest : List Lexeme} {ending : Ending}
    {depth : Nat} (hkind : lexeme.token.kind = kind) :
    expect kind ⟨lexeme, next :: rest, ending, depth⟩ = .ok lexeme ⟨next, rest, ending, depth⟩ :=
  expect_facing hkind [] next rest ending depth

theorem mention_run {name : String} {p : Position} {next : Lexeme} {rest : List Lexeme}
    {ending : Ending} {depth : Nat} :
    mention ⟨⟨.identifier name, p⟩, next :: rest, ending, depth⟩ =
      .ok ⟨name, p.line⟩ ⟨next, rest, ending, depth⟩ := rfl

theorem nested_run {rule : Rule α} {v : α} {lexeme last : Lexeme} {upcoming rest : List Lexeme}
    {ending : Ending} {depth : Nat} (hdepth : depth < limit)
    (hrule : rule ⟨lexeme, upcoming, ending, depth + 1⟩ = .ok v ⟨last, rest, ending, depth + 1⟩) :
    nested limit rule ⟨lexeme, upcoming, ending, depth⟩ = .ok v ⟨last, rest, ending, depth⟩ := by
  rw [nested_of_ok hdepth hrule, Nat.add_sub_cancel]

theorem repeatOn_run_none {select : Token → Option β} {item : β → Rule α} {cursor : Cursor}
    (hselect : select cursor.current.token = none) :
    repeatOn select item cursor = .ok [] cursor := by
  rw [repeatOn, repeatAtMost_cons, hselect]
  rfl

theorem chain_run_none {select : Token → Option Operator} {operand : Rule Expression}
    {cursor later : Cursor} {e : Expression} (hoperand : operand cursor = .ok e later)
    (hselect : select later.current.token = none) :
    chain limit select operand cursor = .ok e later := by
  refine (bind_of_ok hoperand).trans ((bind_of_ok (repeatOn_run_none hselect)).trans ?_)
  rfl

/-- A chain of one link. -/
theorem chain_run_one {select : Token → Option Operator} {operand : Rule Expression}
    {cursor : Cursor} {first second : Expression} {operator : Operator}
    {lexeme next last : Lexeme} {rest further : List Lexeme} {ending : Ending} {depth : Nat}
    (hfirst : operand cursor = .ok first ⟨lexeme, next :: rest, ending, depth⟩)
    (hselect : select lexeme.token = some operator) (hdepth : depth < limit)
    (hsecond : operand ⟨next, rest, ending, depth + 1⟩ =
      .ok second ⟨last, further, ending, depth + 1⟩)
    (hlast : select last.token = none) :
    chain limit select operand cursor =
      .ok (.binary operator first second lexeme.position.line)
        ⟨last, further, ending, depth⟩ := by
  refine (bind_of_ok hfirst).trans ?_
  have hlink : link limit operand operator ⟨lexeme, next :: rest, ending, depth⟩ =
      .ok ⟨operator, lexeme.position.line, second⟩ ⟨last, further, ending, depth + 1⟩ := by
    refine (bind_of_ok (descend_of_lt hdepth)).trans ?_
    exact (bind_of_ok (rfl : advance ⟨lexeme, next :: rest, ending, depth + 1⟩ =
      .ok lexeme ⟨next, rest, ending, depth + 1⟩)).trans (bind_of_ok hsecond)
  have hlinks : repeatOn select (link limit operand) ⟨lexeme, next :: rest, ending, depth⟩ =
      .ok [⟨operator, lexeme.position.line, second⟩] ⟨last, further, ending, depth + 1⟩ := by
    rw [repeatOn, repeatAtMost_cons]
    simp only [hselect]
    refine (bind_of_ok hlink).trans ?_
    rw [repeatAtMost_cons]
    simp only [hlast]
    rfl
  exact (bind_of_ok hlinks).trans rfl

/-- A factor of signs and a number opens as many levels as it has lexemes. -/
theorem factor_run {signs : List Lexeme} (hsigns : ∀ sign ∈ signs, sign.token = .mark .minus)
    (n : Int64) (p : Position) (next : Lexeme) (rest : List Lexeme) (ending : Ending)
    {depth : Nat} (hdepth : depth + signs.length < limit) (hlevels : signs.length < levels) :
    ∃ e : Expression, e.depth = signs.length + 1 ∧
      factor limit levels (facing signs ⟨.integer n, p⟩ (next :: rest) ending depth) =
        .ok e ⟨next, rest, ending, depth⟩ := by
  induction signs generalizing levels depth with
  | nil =>
    cases levels with
    | zero => exact absurd hlevels (Nat.lt_irrefl 0)
    | succ levels =>
      refine ⟨.constant (.integer n) p.line, rfl, ?_⟩
      rw [factor]
      exact nested_run hdepth rfl
  | cons sign signs induct =>
    cases levels with
    | zero => exact absurd hlevels (Nat.not_lt_zero _)
    | succ levels =>
      obtain ⟨token, q⟩ := sign
      obtain rfl : token = .mark .minus := hsigns _ (List.mem_cons_self ..)
      simp only [List.length_cons] at hdepth hlevels
      have hinner : ∃ e : Expression, e.depth = signs.length + 1 ∧
          factor limit levels
              (facing signs ⟨.integer n, p⟩ (next :: rest) ending (depth + 1)) =
            .ok e ⟨next, rest, ending, depth + 1⟩ :=
        induct (fun sign hsign ↦ hsigns sign (List.mem_cons_of_mem _ hsign)) (by omega) (by omega)
      obtain ⟨e, he, hrun⟩ := hinner
      refine ⟨.unary .minus e q.line, by rw [Expression.depth, he, List.length_cons], ?_⟩
      rw [factor]
      refine nested_run (by omega) ?_
      change (advance >>= fun _ ↦ factor limit levels >>= fun e ↦
          pure (Expression.unary .minus e q.line))
        (facing (⟨.mark .minus, q⟩ :: signs) ⟨.integer n, p⟩ (next :: rest) ending (depth + 1)) = _
      exact (bind_of_ok (advance_facing _ _ _ _ _ _)).trans ((bind_of_ok hrun).trans rfl)

/-! ### A program with a signed sum -/

/-- An assignment of a sum whose left operand has signs. -/
theorem assignment_run {name : String} {signs : List Lexeme}
    (hsigns : ∀ sign ∈ signs, sign.token = .mark .minus) (m n : Int64) (p q r s t : Position)
    {next : Lexeme} {rest : List Lexeme} {ending : Ending} {depth : Nat}
    (hnext : next.token = .keyword .endBlock) (hdepth : depth + signs.length < limit)
    (hroom : depth + 1 < limit) (hlevels : signs.length < levels) :
    ∃ e : Expression, e.depth = signs.length + 2 ∧
      assignment limit levels ⟨⟨.identifier name, p⟩, ⟨.mark .assign, q⟩ ::
          (signs ++ ⟨.integer m, r⟩ :: ⟨.mark .plus, s⟩ :: ⟨.integer n, t⟩ :: next :: rest),
          ending, depth⟩ =
        .ok (.assign ⟨name, p.line⟩ e q.line) ⟨next, rest, ending, depth⟩ := by
  obtain ⟨first, hfirst, hleft⟩ := factor_run hsigns m r ⟨.mark .plus, s⟩
    (⟨.integer n, t⟩ :: next :: rest) ending hdepth hlevels
  have hone : ∃ e : Expression, e.depth = 1 ∧
      factor limit levels ⟨⟨.integer n, t⟩, next :: rest, ending, depth + 1⟩ =
        .ok e ⟨next, rest, ending, depth + 1⟩ := by
    refine @factor_run limit levels [] ?_ n t next rest ending (depth + 1) hroom ?_
    · intro sign hsign
      cases hsign
    · exact Nat.lt_of_le_of_lt (Nat.zero_le _) hlevels
  obtain ⟨second, hsecond, hright⟩ := hone
  have hmultiplicative : multiplicative next.token = none := by rw [hnext]; rfl
  have hadditive : additive next.token = none := by rw [hnext]; rfl
  have hsum : expression limit levels
      (facing signs ⟨.integer m, r⟩ (⟨.mark .plus, s⟩ :: ⟨.integer n, t⟩ :: next :: rest) ending
        depth) = .ok (.binary .add first second s.line) ⟨next, rest, ending, depth⟩ :=
    chain_run_one (chain_run_none hleft rfl) rfl (by omega) (chain_run_none hright hmultiplicative)
      hadditive
  refine ⟨.binary .add first second s.line, ?_, ?_⟩
  · rw [Expression.depth, hfirst, hsecond]
    omega
  · refine (bind_of_ok mention_run).trans ?_
    exact (bind_of_ok (expect_facing rfl _ _ _ _ _)).trans ((bind_of_ok hsum).trans rfl)

/-- A compound statement of one assignment. -/
theorem compound_run {lexeme begin last next : Lexeme} {x rest : List Lexeme} {ending : Ending}
    {depth : Nat} {name : String} {assigned : Statement}
    (hbegin : begin.token = .keyword .beginBlock)
    (hname : lexeme.token = .identifier name) (hlast : last.token = .keyword .endBlock)
    (hdepth : depth < limit)
    (hassign : assignment limit levels ⟨lexeme, x ++ last :: next :: rest, ending, depth + 1⟩ =
      .ok assigned ⟨last, next :: rest, ending, depth + 1⟩) :
    compound limit (levels + 1)
        ⟨begin, lexeme :: (x ++ last :: next :: rest), ending, depth⟩ =
      .ok [assigned] ⟨next, rest, ending, depth⟩ := by
  have hstatement : statementOf limit levels (compound limit levels)
      ⟨lexeme, x ++ last :: next :: rest, ending, depth + 1⟩ =
        .ok assigned ⟨last, next :: rest, ending, depth + 1⟩ := by
    refine (peek_bind _ _).trans ?_
    simp only [hname]
    exact hassign
  have hnone : onKind (.mark .semicolon) last.token = none := by rw [hlast]; rfl
  have hall : separated (.mark .semicolon) (statementOf limit levels (compound limit levels))
      ⟨lexeme, x ++ last :: next :: rest, ending, depth + 1⟩ =
        .ok [assigned] ⟨last, next :: rest, ending, depth + 1⟩ :=
    (bind_of_ok hstatement).trans ((bind_of_ok (repeatOn_run_none hnone)).trans rfl)
  rw [compound]
  refine nested_run hdepth ?_
  refine (bind_of_ok (expect_run (by rw [hbegin]; rfl))).trans ?_
  refine (bind_of_ok hall).trans ((peek_bind _ _).trans ?_)
  simp only [hlast]
  exact (bind_of_ok (expect_run (by rw [hlast]; rfl))).trans rfl

/-- A block without declarations. -/
theorem block_run {begin : Lexeme} {upcoming : List Lexeme} {ending : Ending} {depth : Nat}
    {body : List Statement} {later : Cursor} (hbegin : begin.token = .keyword .beginBlock)
    (hbody : compound limit levels ⟨begin, upcoming, ending, depth⟩ = .ok body later) :
    block limit levels ⟨begin, upcoming, ending, depth⟩ = .ok ⟨[], body⟩ later := by
  have hvar : onKind (.keyword .var) begin.token = none := by rw [hbegin]; rfl
  have hprocedure : onKind (.keyword .procedure) begin.token = none := by rw [hbegin]; rfl
  have hsections : variableSections ⟨begin, upcoming, ending, depth⟩ =
      .ok [] ⟨begin, upcoming, ending, depth⟩ := (bind_of_ok (repeatOn_run_none hvar)).trans rfl
  refine (bind_of_ok hsections).trans ((bind_of_ok (repeatOn_run_none hprocedure)).trans ?_)
  exact (bind_of_ok hbody).trans rfl

/-- A program that assigns a sum whose left operand has signs needs no more levels than there are
signs, and two more. It is deeper by one. -/
theorem program_run {signs : List Lexeme} (hsigns : ∀ sign ∈ signs, sign.token = .mark .minus)
    (hlimit : signs.length + 1 < limit) (hroom : 2 < limit)
    (a b c d e f g h i j k last : Position) :
    ∃ (tree : Program) (later : Cursor), tree.depth = signs.length + 3 ∧
      program limit ⟨⟨.keyword .program, a⟩, ⟨.identifier "p", b⟩ :: ⟨.mark .semicolon, c⟩ ::
        ⟨.keyword .beginBlock, d⟩ :: ⟨.identifier "x", e⟩ :: ⟨.mark .assign, f⟩ ::
        (signs ++ [⟨.integer 1, g⟩, ⟨.mark .plus, h⟩, ⟨.integer 1, i⟩, ⟨.keyword .endBlock, j⟩,
          ⟨.mark .dot, k⟩]), .eof last, 0⟩ = .ok tree later := by
  cases limit with
  | zero => omega
  | succ levels =>
    obtain ⟨value, hvalue, hassign⟩ := @assignment_run (levels + 1) levels "x" signs hsigns 1 1 e f
      g h i ⟨.keyword .endBlock, j⟩ [⟨.mark .dot, k⟩] (.eof last) 1 rfl (by omega) (by omega)
      (by omega)
    have hbody : compound (levels + 1) (levels + 1) ⟨⟨.keyword .beginBlock, d⟩,
        ⟨.identifier "x", e⟩ :: ⟨.mark .assign, f⟩ ::
          (signs ++ [⟨.integer 1, g⟩, ⟨.mark .plus, h⟩, ⟨.integer 1, i⟩, ⟨.keyword .endBlock, j⟩,
            ⟨.mark .dot, k⟩]), .eof last, 0⟩ =
        .ok [.assign ⟨"x", e.line⟩ value f.line] ⟨⟨.mark .dot, k⟩, [], .eof last, 0⟩ := by
      have hrun := @compound_run (levels + 1) levels ⟨.identifier "x", e⟩ ⟨.keyword .beginBlock, d⟩
        ⟨.keyword .endBlock, j⟩ ⟨.mark .dot, k⟩
        (⟨.mark .assign, f⟩ :: (signs ++ [⟨.integer 1, g⟩, ⟨.mark .plus, h⟩, ⟨.integer 1, i⟩])) []
        (.eof last) 0 "x" (.assign ⟨"x", e.line⟩ value f.line) rfl rfl rfl (Nat.succ_pos _)
      simp only [List.cons_append, List.append_assoc, List.nil_append] at hrun
      exact hrun hassign
    refine ⟨⟨"p", a.line, ⟨[], [.assign ⟨"x", e.line⟩ value f.line]⟩⟩,
      ⟨⟨.eof, last⟩, [], .eof last, 0⟩, ?_, ?_⟩
    · change max 0 (max value.depth 0 + 1) = _
      omega
    · rw [program]
      refine (bind_of_ok (expect_run ?_)).trans ?_
      · rfl
      refine (bind_of_ok mention_run).trans ?_
      refine (bind_of_ok (expect_run ?_)).trans ?_
      · rfl
      refine (bind_of_ok (block_run rfl hbody)).trans ?_
      rfl

end Rule

/-! ### Its text -/

/-- The text of the program with so many signs. -/
def signedSum (signs : Nat) : String :=
  .ofList ("PROGRAM p; BEGIN x := ".toList ++ (List.replicate signs '-' ++ "1 + 1 END.".toList))

theorem scans_head {text : List Char} {tokens : List Token} (hscans : Scans text tokens) :
    Scans ("PROGRAM p; BEGIN x := ".toList ++ text)
      (.keyword .program :: .identifier "p" :: .mark .semicolon :: .keyword .beginBlock ::
        .identifier "x" :: .mark .assign :: tokens) := by
  have hblank : isBlank ' ' = true := by decide
  have havoids (others : List Char) : Avoids isWordPart (' ' :: others) := by
    rw [avoids_cons]
    decide
  have hsemicolon (others : List Char) : Avoids isWordPart (';' :: others) := by
    rw [avoids_cons]
    decide
  have hassign := (hscans.blank hblank).mark .assign Mark.noConfusion Mark.noConfusion
  have hname := @Scans.word _ _ ['x'] (.identifier "x") rfl (by decide) (havoids _)
    (hassign.blank hblank)
  have hbegin :=
    @Scans.word _ _ "BEGIN".toList (.keyword .beginBlock) (by decide) (by decide)
    (havoids _) (hname.blank hblank)
  have hopen := (hbegin.blank hblank).mark .semicolon Mark.noConfusion Mark.noConfusion
  have hheading :=
    @Scans.word _ _ ['p'] (.identifier "p") rfl (by decide) (hsemicolon _) hopen
  have hall := @Scans.word _ _ "PROGRAM".toList (.keyword .program) (by decide) (by decide)
    (havoids _) (hheading.blank hblank)
  exact hall

theorem scans_tail : Scans "1 + 1 END.".toList
    [.integer 1, .mark .plus, .integer 1, .keyword .endBlock, .mark .dot] := by
  have hblank : isBlank ' ' = true := by decide
  have hone (others : List Char) (tokens : List Token) (hscans : Scans others tokens) :
      Scans ('1' :: ' ' :: others) (.integer 1 :: tokens) := by
    refine @Scans.integer _ _ ['1'] 1 (List.cons_ne_nil _ _) ?_ (by decide) ?_ ?_
      (hscans.blank hblank)
    · simp; decide
    · rw [avoids_cons]; decide
    · rw [avoids_cons]; decide
  have hdot := Scans.nil.mark .dot Mark.noConfusion Mark.noConfusion
  have hpoint : Avoids isWordPart ['.'] := by
    rw [avoids_cons]
    decide
  have hend := @Scans.word ['.'] _ "END".toList (.keyword .endBlock) (by decide) (by decide)
    hpoint hdot
  have hplus := ((hone _ _ hend).blank hblank).mark .plus Mark.noConfusion Mark.noConfusion
  exact hone _ _ hplus

theorem scans_signs {text : List Char} {tokens : List Token} (signs : Nat)
    (hscans : Scans text tokens) :
    Scans (List.replicate signs '-' ++ text)
      (List.replicate signs (.mark .minus) ++ tokens) := by
  induction signs with
  | zero => exact hscans
  | succ signs induct =>
    exact induct.mark .minus Mark.noConfusion Mark.noConfusion

theorem scans_signedSum (signs : Nat) : Scans (signedSum signs).toList
    (.keyword .program :: .identifier "p" :: .mark .semicolon :: .keyword .beginBlock ::
      .identifier "x" :: .mark .assign :: (List.replicate signs (.mark .minus) ++
        [.integer 1, .mark .plus, .integer 1, .keyword .endBlock, .mark .dot])) := by
  have htext : (signedSum signs).toList = _ := String.toList_ofList
  rw [htext]
  exact scans_head (scans_signs signs scans_tail)

/-- From the limit three on, some program is taken that is deeper than the limit. -/
theorem parse_signedSum (room : Nat) :
    ∃ p, parse (room + 3) (signedSum (room + 1)) = .ok p ∧ p.depth = room + 4 := by
  obtain ⟨lexemes, last, hfeed, htokens⟩ := (scans_signedSum (room + 1)).feed Position.start
  change Feed.ofText (signedSum (room + 1)) = _ at hfeed
  obtain ⟨a, lexemes, rfl, ht1⟩ := exists_position htokens
  obtain ⟨b, lexemes, rfl, ht2⟩ := exists_position ht1
  obtain ⟨c, lexemes, rfl, ht3⟩ := exists_position ht2
  obtain ⟨d, lexemes, rfl, ht4⟩ := exists_position ht3
  obtain ⟨e, lexemes, rfl, ht5⟩ := exists_position ht4
  obtain ⟨f, lexemes, rfl, ht6⟩ := exists_position ht5
  obtain ⟨signs, lexemes, rfl, hsigns, ht7⟩ := List.map_eq_append_iff.1 ht6
  obtain ⟨g, lexemes, rfl, ht8⟩ := exists_position ht7
  obtain ⟨h, lexemes, rfl, ht9⟩ := exists_position ht8
  obtain ⟨i, lexemes, rfl, ht10⟩ := exists_position ht9
  obtain ⟨j, lexemes, rfl, ht11⟩ := exists_position ht10
  obtain ⟨k, lexemes, rfl, ht12⟩ := exists_position ht11
  obtain rfl := List.map_eq_nil_iff.1 ht12
  have hlength : signs.length = room + 1 := by
    have := congrArg List.length hsigns
    simpa using this
  have hminus : ∀ sign ∈ signs, sign.token = .mark .minus := by
    intro sign hsign
    have hmem : sign.token ∈ signs.map (·.token) := List.mem_map_of_mem hsign
    rw [hsigns] at hmem
    exact List.eq_of_mem_replicate hmem
  obtain ⟨tree, later, hdepth, hrun⟩ := @Rule.program_run (room + 3) signs hminus (by omega)
    (by omega) a b c d e f g h i j k last
  refine ⟨tree, ?_, by omega⟩
  rw [parse, hfeed]
  simp only [Cursor.ofFeed]
  rw [hrun]

/-! ### The depth and the limit -/

/-- Up to the limit two no program is deeper than the limit, and from the limit three on some are.
A program that is taken exceeds the limit on paths through left operands only, and never exceeds
the square of the limit. -/
theorem depth_le_limit_iff (limit : Nat) :
    ((∀ text p, parse limit text = .ok p → p.depth ≤ limit) ↔ limit ≤ 2) ∧
    ∀ text p, parse limit text = .ok p →
      (p.depth ≤ limit ↔ p.leftDepth ≤ limit) ∧ p.depth ≤ limit * limit := by
  constructor
  · constructor
    · intro hall
      by_cases hlimit : limit ≤ 2
      · exact hlimit
      · obtain ⟨room, rfl⟩ : ∃ room, limit = room + 3 := ⟨limit - 3, by omega⟩
        obtain ⟨p, hparse, hdepth⟩ := parse_signedSum room
        have hle : p.depth ≤ room + 3 := hall _ _ hparse
        omega
    · intro hlimit text p hparse
      have hdepth : p.depth ≤ reach limit := (parse_held hparse).2
      exact Nat.le_trans hdepth (reach_le_self hlimit)
  · intro text p hparse
    obtain ⟨hright, hdepth⟩ := parse_held hparse
    refine ⟨?_, Nat.le_trans hdepth (reach_le_square limit)⟩
    rw [p.depth_eq_max]
    omega

/-- A sign in the right operand is counted below its operator, within the limit. -/
theorem depth_le_limit_sign :
    ∃ p, parse 4 "PROGRAM p; BEGIN x := 1 + -1 END." = .ok p ∧ p.depth ≤ 4 := by
  obtain ⟨p, hparse, hleft⟩ : ∃ p, parse 4 "PROGRAM p; BEGIN x := 1 + -1 END." = .ok p ∧
      decide (p.leftDepth ≤ 4) = true := exists_of_any (by decide +kernel)
  exact ⟨p, hparse, ((depth_le_limit_iff 4).2 _ p hparse).1.2 (of_decide_eq_true hleft)⟩

/-- A sign in the left operand takes this program below the limit. -/
theorem depth_exceeds_limit :
    ∃ p, parse 3 "PROGRAM p; BEGIN x := -1 + 1 END." = .ok p ∧ ¬ p.depth ≤ 3 := by
  obtain ⟨p, hparse, hdepth⟩ : ∃ p, parse 3 "PROGRAM p; BEGIN x := -1 + 1 END." = .ok p ∧
      decide (p.depth = 4) = true := exists_of_any (by decide +kernel)
  have hfour : p.depth = 4 := of_decide_eq_true hdepth
  exact ⟨p, hparse, by omega⟩

end MiniPascal
