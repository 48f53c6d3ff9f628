import MiniPascal.Proofs.Grammar.Declaration

/-!
# What `parse` answers

`Rule.reads_program` is the contract of the rule for programs, and `parsed` is what follows from it
for `parse`. A limit above the number of characters is never met, since every open level stands for
a lexeme and every lexeme for a character of its own; so there are three answers only. Either the
lexemes of the text write a program, and `parse` finds it; or a lexeme stands where no program goes
on with it, and `parse` refuses the first such lexeme; or all lexemes up to a lexical fault begin
some program, and `parse` reports that fault.

`parse_iff_written` says the same of the programs alone, and `written_of_parse` what is left of it
at a limit that may be met.
-/

set_option autoImplicit false
set_option relaxedAutoImplicit false

namespace MiniPascal

namespace Wording

/-- A program without the end of the text. -/
def Opening : Wording MiniPascal.Program :=
  (Single (·.token.kind = .keyword .program)).Then fun lexeme ↦ Name.Then fun found ↦
    (Single (·.token.kind = .mark .semicolon)).Then fun _ ↦ Block.Then fun block ↦
      Closing (.mark .dot) ⟨found.name, lexeme.position.line, block⟩

theorem opening_begins : Opening.Begins [] :=
  then_begins (single_begins _) fun _ _ _ ↦ then_begins name_begins fun _ _ _ ↦
    then_begins (single_begins _) fun _ _ _ ↦ then_begins block_begins fun _ _ _ ↦
      closing_begins _ _

theorem program_iff {lexemes : List Lexeme} {p : MiniPascal.Program} :
    Program lexemes p ↔
      ∃ x, Opening x p ∧ ∃ last : Lexeme, last.token = .eof ∧ lexemes = x ++ [last] := by
  constructor
  · rintro ⟨name, p, q, r, s, t, hblock⟩
    refine ⟨_, ⟨[⟨.keyword .program, p⟩], ⟨.keyword .program, p⟩, _, ⟨rfl, rfl⟩, ⟨_, _, _,
      .mk name q, ⟨[⟨.mark .semicolon, r⟩], ⟨.mark .semicolon, r⟩, _, ⟨rfl, rfl⟩, ⟨_, _, _, hblock,
        ⟨rfl, ⟨.mark .dot, s⟩, rfl, rfl⟩, rfl⟩, rfl⟩, rfl⟩, rfl⟩, ⟨.eof, t⟩, rfl, ?_⟩
    simp
  · rintro ⟨_, ⟨_, ⟨token, p⟩, _, ⟨rfl, hprogram⟩, ⟨_, _, _, ⟨name, q⟩, ⟨_, ⟨token', r⟩, _,
      ⟨rfl, hsemicolon⟩, ⟨x, block, _, hblock, ⟨rfl, ⟨token'', s⟩, hdot, rfl⟩, rfl⟩, rfl⟩, rfl⟩,
        rfl⟩, ⟨_, t⟩, rfl, rfl⟩
    obtain rfl := Token.eq_keyword_of_kind hprogram
    obtain rfl := Token.eq_mark_of_kind hsemicolon
    obtain rfl := Token.eq_mark_of_kind hdot
    have hall := Program.mk name p q r s t hblock
    simpa using hall

end Wording

namespace Rule

variable {limit : Nat} {cursor : Cursor}

/-- The rule for programs without the end of the text. -/
def opening (limit : Nat) : Rule Program := do
  let line := (← expect (.keyword .program)).position.line
  let name := (← mention).name
  let _ ← expect (.mark .semicolon)
  let content ← block limit limit
  let _ ← expect (.mark .dot)
  return ⟨name, line, content⟩

theorem program_eq (limit : Nat) :
    program limit = opening limit >>= fun p ↦ expect .eof >>= fun _ ↦ pure p := by
  simp [program, opening]

theorem reads_opening (hsound : cursor.Sound) :
    Reads limit 0 nothing Wording.Opening (opening limit) cursor := by
  have hcontent (name : String) (line : Nat) (later : Cursor) (hlater : later.Sound) :
      Reads limit 0 nothing
        (Wording.Block.Then fun content ↦ Wording.Closing (.mark .dot) ⟨name, line, content⟩)
        (block limit limit >>= fun content ↦ expect (.mark .dot) >>= fun _ ↦
          pure (⟨name, line, content⟩ : Program)) later :=
    Reads.closed (fun content ↦ (⟨name, line, content⟩ : Program))
      (reads_block (Nat.le_add_left limit later.depth) hlater) Token.Kind.noConfusion
      (fun _ _ ↦ id)
  have hbegins (name : String) (line : Nat) : (Wording.Block.Then fun block ↦
      Wording.Closing (.mark .dot) (⟨name, line, block⟩ : Program)).Begins [] :=
    Wording.then_begins Wording.block_begins fun _ _ _ ↦ Wording.closing_begins _ _
  have hbehind (found : Mention) (line : Nat) :
      ((Wording.Single (·.token.kind = .mark .semicolon)).Then fun _ ↦ Wording.Block.Then
        fun block ↦ Wording.Closing (.mark .dot) (⟨found.name, line, block⟩ : Program)).Begins [] :=
    Wording.then_begins (Wording.single_begins _) fun _ _ _ ↦ hbegins found.name line
  refine Reads.weaken (Nat.zero_le 1) (Reads.afterKind hsound Token.Kind.noConfusion
    (fun lexeme ↦ Wording.then_begins Wording.name_begins fun _ found _ ↦
      hbehind found lexeme.position.line) fun lexeme later hlater _ ↦ ?_)
  refine Reads.afterName hlater (fun found ↦ hbehind found lexeme.position.line)
    fun found last hlast _ ↦ ?_
  exact Reads.weaken (Nat.zero_le 1) (Reads.afterKind hlast Token.Kind.noConfusion
    (fun _ ↦ hbegins found.name lexeme.position.line)
    fun _ end' hend _ ↦ hcontent found.name lexeme.position.line end' hend)

/-- Programs, at whose end nothing but the end of the text may follow. -/
theorem reads_program (hsound : cursor.Sound) :
    Reads limit 0 (· ≠ .eof) Wording.Opening (program limit) cursor := by
  rw [program_eq]
  refine Reads.of_iff ?_ (Reads.andThen (reads_opening hsound)
    (fun x p later hmoves _ _ ↦ Reads.finish hmoves.sound p) ?_ (fun _ _ _ ↦ Nat.zero_le _))
  · intro x p
    constructor
    · rintro ⟨x, p, _, hopening, ⟨rfl, rfl⟩, rfl⟩
      rwa [List.append_nil]
    · intro hopening
      exact ⟨x, p, [], hopening, ⟨rfl, rfl⟩, (List.append_nil x).symm⟩
  · intro x p _
    exact ⟨[], p, ⟨rfl, rfl⟩, List.nil_prefix⟩

/-- The rule for programs stops at the end of the text. -/
theorem program_end {p : Program} {last : Cursor} (hsound : cursor.Sound)
    (hok : program limit cursor = .ok p last) : last.current.token = .eof := by
  rw [program_eq] at hok
  cases @reads_opening limit cursor hsound with
  | refused hresult | broken hresult | tooDeep hresult =>
    rw [bind_of_error hresult] at hok
    cases hok
  | @read p' later x hresult hmoves =>
    rw [bind_of_ok hresult] at hok
    by_cases hend : later.current.token = .eof
    · rw [Reads.finish_of_eof hmoves.sound hend] at hok
      rwa [← (EStateM.Result.ok.inj hok).2]
    · rw [Reads.finish_of_ne hend] at hok
      cases hok

/-- What a program that is read leaves ahead is the end of the text alone. -/
theorem program_reaches_end {p : Program} {last : Cursor} {x : List Lexeme} (hsound : cursor.Sound)
    (hok : program limit cursor = .ok p last) (hmoves : cursor.Moves x last) :
    last.current.token = .eof ∧ cursor.ahead = x ++ [last.current] ∧
      cursor.ending = .eof last.current.position := by
  have hend := program_end hsound hok
  refine ⟨hend, ?_, ?_⟩
  · rw [hmoves.ahead, hmoves.sound.ahead_of_eof hend]
  · rw [← hmoves.ending]
    exact (hmoves.sound.last hend).2

end Rule

/-! ### Answers -/

/-- An answer of `parse` at a limit that no text of this length can reach. -/
inductive Parsed (limit : Nat) (text : String) : Prop
  | found {p : Program} {position : Position} (hresult : parse limit text = .ok p)
      (hending : (Feed.ofText text).ending = .eof position)
      (hwritten : Wording.Program (Feed.ofText text).ahead p)
      (hunique : ∀ other, Wording.Program (Feed.ofText text).ahead other → other = p)
  | broken {fault : LexFault} (hresult : parse limit text = .error (.lexical fault))
      (hending : (Feed.ofText text).ending = .broken fault)
      (hbegun : Wording.Opening.Begins (Feed.ofText text).ahead)
  | refused {expected : Expectation} {x : List Lexeme} {next : Lexeme}
      (hresult : parse limit text = .error (.unexpected expected next.token next.position.line))
      (hstands : x ++ [next] <+: (Feed.ofText text).ahead)
      (hbegun : Wording.Opening.Begins x) (hnever : Wording.Opening.Never (· ≠ .eof) x next)
      (hsame : ∀ other : String, x ++ [next] <+: (Feed.ofText other).ahead →
        parse limit other = parse limit text)

theorem parse_of_ofFeed {limit : Nat} {text : String} {cursor : Cursor}
    (hcursor : Cursor.ofFeed (Feed.ofText text) = .ok cursor) :
    parse limit text =
      match Rule.program limit cursor with
      | .ok content _ => .ok content
      | .error fault _ => .error fault := by
  unfold parse
  split
  · next fault hfault => cases hcursor.symm.trans hfault
  · next found hfound =>
    obtain rfl := Except.ok.inj (hfound.symm.trans hcursor)
    rfl

/-- A program ends with the end of the text, so what is written up to there is all of it. -/
theorem Wording.program_unique {x lexemes : List Lexeme} {next : Lexeme}
    {p q : MiniPascal.Program}
    (honly : Wording.Opening.Only (· ≠ .eof) x next p) (hstarts : x ++ [next] <+: lexemes)
    (hwritten : Wording.Program lexemes q) : q = p := by
  obtain ⟨y, hopening, last, hend, rfl⟩ := Wording.program_iff.1 hwritten
  have hstops : Stops (· ≠ .eof) [last] := by simpa using hend
  exact (honly y q [last] hopening hstops hstarts).2

theorem parsed {limit : Nat} {text : String} (hlimit : text.length < limit) :
    Parsed limit text := by
  rcases Cursor.ofFeed_cases text with ⟨cursor, hcursor, hsound, hdepth, hahead, hending⟩ |
    ⟨fault, hfault, hahead, hending⟩
  · have hparse := @parse_of_ofFeed limit text cursor hcursor
    cases @Rule.reads_program limit cursor hsound with
    | @read p last x hresult hmoves _ hwritten honly =>
      rw [hresult] at hparse
      obtain ⟨hend, hall, hplace⟩ := Rule.program_reaches_end hsound hresult hmoves
      rw [hahead] at hall
      refine .found hparse (hending ▸ hplace)
        (Wording.program_iff.2 ⟨x, hwritten, last.current, hend, hall⟩) ?_
      intro other hother
      refine Wording.program_unique honly ?_ hother
      exact hall ▸ List.prefix_refl _
    | @refused expected last x hresult hmoves hbegun hnever hsame =>
      rw [hresult] at hparse
      refine .refused hparse (hahead ▸ hmoves.prefix_ahead) hbegun hnever ?_
      intro other hstarts
      rcases Cursor.ofFeed_cases other with ⟨cursor', hcursor', hsound', hdepth', hahead', -⟩ |
        ⟨fault, -, hahead', -⟩
      · obtain ⟨end', hresult⟩ := hsame cursor' hsound' (hdepth'.trans hdepth.symm)
          (hahead' ▸ hstarts)
        rw [parse_of_ofFeed hcursor', hresult, hparse]
      · rw [hahead'] at hstarts
        exact absurd hstarts.length_le (by simp)
    | broken hresult hbroken hbegun =>
      rw [hresult] at hparse
      exact .broken hparse (hending ▸ hbroken) (hahead ▸ hbegun)
    | @tooDeep line last x hresult hmoves hdeep =>
      have hlong := hmoves.length_le
      have hchars := Feed.length_ahead_le text
      rw [hahead] at hlong
      omega
  · have hparse : parse limit text = .error (.lexical fault) := by
      rw [parse, hfault]
    refine .broken hparse hending ?_
    rw [hahead]
    exact Wording.opening_begins

/-- A program that comes out at whatever limit is written by the lexemes of the text. -/
theorem written_of_parse {limit : Nat} {text : String} {p : Program}
    (hparse : parse limit text = .ok p) :
    tokenize text = .ok (Feed.ofText text).ahead ∧
      Wording.Program (Feed.ofText text).ahead p := by
  rcases Cursor.ofFeed_cases text with ⟨cursor, hcursor, hsound, -, hahead, hending⟩ |
    ⟨fault, hfault, -, -⟩
  · rw [parse_of_ofFeed hcursor] at hparse
    cases @Rule.reads_program limit cursor hsound with
    | refused hresult | broken hresult | tooDeep hresult =>
      rw [hresult] at hparse
      cases hparse
    | @read q last x hresult hmoves _ hwritten =>
      rw [hresult] at hparse
      obtain rfl := Except.ok.inj hparse
      obtain ⟨hend, hall, hplace⟩ := Rule.program_reaches_end hsound hresult hmoves
      refine ⟨Feed.tokenize_eq_of_ending_eof (hending ▸ hplace), ?_⟩
      exact Wording.program_iff.2 ⟨x, hwritten, last.current, hend, hahead ▸ hall⟩
  · rw [parse, hfault] at hparse
    cases hparse

/-- At a limit that no text of this length can reach, these are the programs that come out. -/
theorem parse_iff_written {limit : Nat} {text : String} {lexemes : List Lexeme} {p : Program}
    (htokens : tokenize text = .ok lexemes) (hlimit : text.length < limit) :
    parse limit text = .ok p ↔ Wording.Program lexemes p := by
  obtain ⟨hahead, position, hending⟩ := Feed.ahead_eq_of_tokenize_ok htokens
  rw [← hahead]
  cases parsed hlimit with
  | found hresult _ hwritten hunique =>
    rw [hresult]
    constructor
    · rintro ⟨⟩
      exact hwritten
    · intro hwritten
      rw [hunique p hwritten]
  | broken _ hbroken =>
    rw [hending] at hbroken
    cases hbroken
  | refused hresult hstands _ hnever =>
    rw [hresult]
    constructor
    · rintro ⟨⟩
    · intro hwritten
      obtain ⟨y, hopening, last, hend, hall⟩ := Wording.program_iff.1 hwritten
      rw [hall] at hstands
      exact (hnever y p [last] hopening (by simpa using hend) hstands).elim

end MiniPascal
