import MiniPascal.Proofs.Grammar.Derivation
import MiniPascal.Proofs.Grammar.Parsing

/-!
# The parser recognizes the grammar

`parse_recognizes`: a text whose lexemes are a sentence of the grammar is accepted, any other is
not, and the program that comes out is the one that the lexemes write.

`parse_refuses_first_offence`: whatever stands in a text, `parse` refuses the first lexeme with
which no sentence goes on, and reports a lexical fault only where there is no such lexeme in front
of it. What stands behind a refused lexeme has no say. The lexemes of a text are those of
`tokenize`, and where that fails, those with which the scanner answers in front of the fault.
-/

set_option autoImplicit false
set_option relaxedAutoImplicit false

namespace MiniPascal

/-- If the limit is beyond the length of the text, the text is accepted if and only if its lexemes
are a sentence of the grammar, and then the program is the one that they write. -/
theorem parse_recognizes {limit : Nat} {text : String} {lexemes : List Lexeme}
    (htokens : tokenize text = .ok lexemes) (hlimit : text.length < limit) :
    ((∃ p, parse limit text = .ok p) ↔ Sentence (kinds lexemes)) ∧
      ∀ p, parse limit text = .ok p ↔ Wording.Program lexemes p := by
  have htree (p : Program) : parse limit text = .ok p ↔ Wording.Program lexemes p :=
    parse_iff_written htokens hlimit
  refine ⟨?_, htree⟩
  rw [sentence_iff]
  exact exists_congr htree

/-- A sign in front of a product belongs to its first factor. -/
theorem parse_recognizes_signs :
    ∃ lexemes p, tokenize "PROGRAM p; BEGIN x := - 1 * 2 END." = .ok lexemes ∧
      Sentence (kinds lexemes) ∧ Wording.Program lexemes p := by
  obtain ⟨lexemes, htokens⟩ : ∃ lexemes,
      tokenize "PROGRAM p; BEGIN x := - 1 * 2 END." = .ok lexemes :=
    exists_of_isOk (by decide +kernel)
  obtain ⟨p, hparse⟩ : ∃ p, parse 40 "PROGRAM p; BEGIN x := - 1 * 2 END." = .ok p :=
    exists_of_isOk (by decide +kernel)
  have hall := parse_recognizes htokens (by decide : _ < 40)
  exact ⟨lexemes, p, htokens, hall.1.1 ⟨p, hparse⟩, (hall.2 p).1 hparse⟩

/-! ### Viable prefixes -/

/-- A sentence begins with the lexemes up to this one no more. -/
def Offends (lexemes : List Lexeme) (i : Nat) : Prop := ¬ Viable (kinds (lexemes.take (i + 1)))

theorem Viable.initial {x y : List Lexeme} (hviable : Viable (kinds y)) (hstarts : x <+: y) :
    Viable (kinds x) := by
  obtain ⟨later, hsentence⟩ := hviable
  obtain ⟨z, rfl⟩ := hstarts
  rw [kinds_append, List.append_assoc] at hsentence
  exact ⟨kinds z ++ later, hsentence⟩

theorem viable_of_program {lexemes : List Lexeme} {p : Program}
    (hwritten : Wording.Program lexemes p) : Viable (kinds lexemes) :=
  ⟨[], by simpa using sentence_iff.2 ⟨p, hwritten⟩⟩

theorem viable_of_begins {x : List Lexeme} (hbegins : Wording.Opening.Begins x) :
    Viable (kinds x) := by
  obtain ⟨y, p, hopening, hstarts⟩ := hbegins
  have hwritten : Wording.Program (y ++ [⟨.eof, Position.start⟩]) p :=
    Wording.program_iff.2 ⟨y, hopening, _, rfl, rfl⟩
  exact (viable_of_program hwritten).initial (hstarts.trans (List.prefix_append _ _))

theorem exists_kinds (ks : List Token.Kind) : ∃ lexemes, kinds lexemes = ks := by
  induction ks with
  | nil => exact ⟨[], rfl⟩
  | cons kind ks induct =>
    obtain ⟨lexeme, hlexeme⟩ := Wording.exists_kind kind
    obtain ⟨others, hothers⟩ := induct
    exact ⟨lexeme :: others, by rw [kinds_cons, hlexeme, hothers]⟩

theorem not_viable_of_never {x : List Lexeme} {next : Lexeme}
    (hnever : Wording.Opening.Never (· ≠ .eof) x next) : ¬ Viable (kinds (x ++ [next])) := by
  rintro ⟨later, hsentence⟩
  obtain ⟨z, rfl⟩ := exists_kinds later
  rw [← kinds_append] at hsentence
  obtain ⟨p, hwritten⟩ := sentence_iff.1 hsentence
  obtain ⟨y, hopening, last, hend, hall⟩ := Wording.program_iff.1 hwritten
  exact hnever y p [last] hopening (by simpa using hend) ⟨z, hall⟩

theorem not_offends_of_viable {lexemes : List Lexeme} (hviable : Viable (kinds lexemes)) (i : Nat) :
    ¬ Offends lexemes i :=
  fun hoffends ↦ hoffends (hviable.initial <| List.take_prefix _ _)

theorem take_eq_of_stands {x ahead : List Lexeme} {next : Lexeme}
    (hstands : x ++ [next] <+: ahead) : ahead.take (x.length + 1) = x ++ [next] := by
  have htake := List.prefix_iff_eq_take.1 hstands
  rw [List.length_append] at htake
  exact htake.symm

/-- Where nothing goes on with a lexeme behind a beginning, that lexeme is the first offence. -/
theorem first_offence {x ahead : List Lexeme} {next : Lexeme} (hstands : x ++ [next] <+: ahead)
    (hbegins : Wording.Opening.Begins x) (hnever : Wording.Opening.Never (· ≠ .eof) x next) :
    Offends ahead x.length ∧ ∀ j < x.length, ¬ Offends ahead j := by
  constructor
  · rw [Offends, take_eq_of_stands hstands]
    exact not_viable_of_never hnever
  · intro j hj hoffends
    refine hoffends ((viable_of_begins hbegins).initial ?_)
    obtain ⟨z, rfl⟩ := hstands
    rw [List.append_assoc, List.take_append_of_le_length hj]
    exact List.take_prefix _ _

theorem Offends.eq_of_first {lexemes : List Lexeme} {i j : Nat} (hi : Offends lexemes i)
    (hbefore : ∀ k < i, ¬ Offends lexemes k) (hj : Offends lexemes j)
    (hbefore' : ∀ k < j, ¬ Offends lexemes k) : i = j := by
  rcases Nat.lt_trichotomy i j with hless | heq | hmore
  · exact absurd hi (hbefore' i hless)
  · exact heq
  · exact absurd hj (hbefore j hmore)

/-- Of the lexemes of a text, those in front of its first fault included, the first one with which
no sentence goes on is refused, whatever stands behind it. Without such a lexeme the first fault is
reported, and without a fault the text is accepted. -/
theorem parse_refuses_first_offence {limit : Nat} {text : String} (hlimit : text.length < limit) :
    ((∀ lexemes, tokenize text = .ok lexemes → (Feed.ofText text).ahead = lexemes) ∧
      ∀ fault, tokenize text = .error fault →
        (Scanner.ofText text).steps ((Feed.ofText text).ahead.length + 1) =
          (Feed.ofText text).ahead.map .ok ++ [.error fault]) ∧
    (∀ i next, (Feed.ofText text).ahead[i]? = some next → Offends (Feed.ofText text).ahead i →
      (∀ j < i, ¬ Offends (Feed.ofText text).ahead j) →
        (∃ expected, parse limit text =
          .error (.unexpected expected next.token next.position.line)) ∧
        ∀ other : String, (Feed.ofText text).ahead.take (i + 1) <+: (Feed.ofText other).ahead →
          parse limit other = parse limit text) ∧
    ((∀ i < (Feed.ofText text).ahead.length, ¬ Offends (Feed.ofText text).ahead i) →
      (∀ fault, tokenize text = .error fault → parse limit text = .error (.lexical fault)) ∧
      ∀ lexemes, tokenize text = .ok lexemes → ∃ p, parse limit text = .ok p) ∧
    ∀ p, parse limit text = .ok p → ∃ lexemes, tokenize text = .ok lexemes := by
  refine ⟨⟨fun lexemes htokens ↦ (Feed.ahead_eq_of_tokenize_ok htokens).1, fun fault hfault ↦
    Feed.steps_of_broken (Feed.tokenize_eq_error_iff.1 hfault)⟩, ?_⟩
  cases parsed hlimit with
  | @found p position hresult hending hwritten =>
    have hviable := viable_of_program hwritten
    refine ⟨?_, ?_, ?_⟩
    · intro i next _ hoffends _
      exact absurd hoffends (not_offends_of_viable hviable i)
    · intro _
      refine ⟨?_, fun _ _ ↦ ⟨p, hresult⟩⟩
      intro fault hfault
      rw [Feed.tokenize_eq_of_ending_eof hending] at hfault
      cases hfault
    · intro _ _
      exact ⟨_, Feed.tokenize_eq_of_ending_eof hending⟩
  | @broken fault hresult hending hbegun =>
    have hviable := viable_of_begins hbegun
    have htokens := Feed.tokenize_eq_error_iff.2 hending
    refine ⟨?_, ?_, ?_⟩
    · intro i next _ hoffends _
      exact absurd hoffends (not_offends_of_viable hviable i)
    · intro _
      constructor
      · intro other hother
        rw [htokens] at hother
        rw [hresult, Except.error.inj hother]
      · intro lexemes hlexemes
        rw [htokens] at hlexemes
        cases hlexemes
    · intro p hparse
      rw [hresult] at hparse
      cases hparse
  | @refused expected x next hresult hstands hbegun hnever hsame =>
    obtain ⟨hoffends, hbefore⟩ := first_offence hstands hbegun hnever
    have htake := take_eq_of_stands hstands
    have hnext : (Feed.ofText text).ahead[x.length]? = some next := by
      obtain ⟨z, hz⟩ := hstands
      simp [← hz]
    refine ⟨?_, ?_, ?_⟩
    · intro i lexeme hlexeme hi hfirst
      obtain rfl := hi.eq_of_first hfirst hoffends hbefore
      obtain rfl := Option.some.inj (hlexeme.symm.trans hnext)
      exact ⟨⟨expected, hresult⟩, fun other hstarts ↦ hsame other (htake ▸ hstarts)⟩
    · intro hall
      have hlength := (List.getElem?_eq_some_iff.1 hnext).1
      exact absurd hoffends (hall _ hlength)
    · intro p hparse
      rw [hresult] at hparse
      cases hparse

theorem not_viable_without_semicolon :
    ¬ Viable [.keyword .program, .identifier, .keyword .beginBlock] := by
  rintro ⟨later, hsentence⟩
  obtain ⟨z, rfl⟩ := exists_kinds later
  change Sentence (kinds (⟨.keyword .program, Position.start⟩ ::
    ⟨.identifier "", Position.start⟩ :: ⟨.keyword .beginBlock, Position.start⟩ :: z)) at hsentence
  obtain ⟨p, hwritten⟩ := sentence_iff.1 hsentence
  cases hwritten

theorem viable_heading (name : String) (p q : Position) :
    Viable (kinds [⟨.keyword .program, p⟩, ⟨.identifier name, q⟩]) := by
  obtain ⟨x, block, hblock, -⟩ := Wording.block_begins
  have hwritten := Wording.Program.mk name p q Position.start Position.start Position.start hblock
  exact (viable_of_program hwritten).initial ⟨_, rfl⟩

/-- A heading without its semicolon is refused where the semicolon is missing. -/
theorem parse_refuses_missing_semicolon :
    ∃ expected, parse 40 "PROGRAM p BEGIN END." =
      .error (.unexpected expected (.keyword .beginBlock) 1) := by
  have hahead : (Feed.ofText "PROGRAM p BEGIN END.").ahead =
      [⟨.keyword .program, ⟨1, 1⟩⟩, ⟨.identifier "p", ⟨1, 9⟩⟩, ⟨.keyword .beginBlock, ⟨1, 11⟩⟩,
        ⟨.keyword .endBlock, ⟨1, 17⟩⟩, ⟨.mark .dot, ⟨1, 20⟩⟩, ⟨.eof, ⟨1, 21⟩⟩] := by
    decide +kernel
  refine ((parse_refuses_first_offence (by decide)).2.1 2 ⟨.keyword .beginBlock, ⟨1, 11⟩⟩
    (by rw [hahead]; rfl) ?_ ?_).1
  · rw [Offends, hahead]
    exact not_viable_without_semicolon
  · rw [hahead]
    intro j hj hoffends
    refine hoffends ((viable_heading "p" ⟨1, 1⟩ ⟨1, 9⟩).initial ?_)
    exact List.take_prefix_take_left (Nat.succ_le_of_lt hj)

end MiniPascal
