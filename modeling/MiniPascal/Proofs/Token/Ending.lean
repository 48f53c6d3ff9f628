import MiniPascal.Proofs.Token.Calls

/-!
# Reading comes to an end

A call of a scanner answers with a piece of the text and goes on behind it, whether the piece is a
token or a fault, or it answers with the end and stays there (`Scanner.next_cases`). So after at
most as many calls as there are characters the end is reached for good (`Scanner.exists_reaches`),
and each piece that was answered stands behind those before it (`Scanner.Reaches.precedes`).

`lexing_ends` puts this together for a text, with what becomes of it when all tokens are read.
-/

set_option autoImplicit false
set_option relaxedAutoImplicit false

namespace MiniPascal

namespace Position

/-- The first position is on an earlier line, or farther left on the same line. -/
def Precedes (first second : Position) : Prop :=
  first.line < second.line ∨ first.line = second.line ∧ first.column < second.column

variable {first second : Position}

theorem Precedes.trans {third : Position} (hfirst : first.Precedes second)
    (hsecond : second.Precedes third) : first.Precedes third := by
  unfold Precedes at *
  omega

theorem precedes_after (position : Position) (character : Char) :
    position.Precedes (position.after character) := by
  unfold after
  split
  · exact .inl (Nat.lt_succ_self _)
  · exact .inr ⟨rfl, Nat.lt_succ_self _⟩

theorem Precedes.afterText (hprecedes : first.Precedes second) (text : List Char) :
    first.Precedes (second.afterText text) := by
  induction text generalizing second with
  | nil => exact hprecedes
  | cons character others induct => exact induct (hprecedes.trans (second.precedes_after character))

theorem precedes_afterText (position : Position) {text : List Char} (hne : text ≠ []) :
    position.Precedes (position.afterText text) := by
  obtain ⟨character, others, rfl⟩ := List.exists_cons_of_ne_nil hne
  exact (position.precedes_after character).afterText others

end Position

namespace Scanner

/-! ### One call -/

/-- The scanner passes over some of its text, answers with a piece that is not the end and stands at
this place, and goes on behind it. -/
structure Advances (scanner : Scanner) (place : Position) (answer : Except LexFault Lexeme)
    (later : Scanner) : Prop where
  found : ∃ (skipped : List Char) (chunk : Chunk),
    scanner.rest = skipped ++ (chunk.text ++ later.rest) ∧
    chunk.text ≠ [] ∧ place = scanner.position.afterText skipped ∧ chunk.Answer place answer
  going : ∀ last, answer ≠ .ok ⟨.eof, last⟩
  behind : place.Precedes later.position

theorem Advances.length_lt {scanner later : Scanner} {place : Position}
    {answer : Except LexFault Lexeme} (hadvances : scanner.Advances place answer later) :
    later.rest.length < scanner.rest.length := by
  obtain ⟨skipped, chunk, hrest, hne, -⟩ := hadvances.found
  have htaken := List.length_pos_iff.2 hne
  rw [hrest, List.length_append, List.length_append]
  omega

/-- What is passed over first does not count. -/
theorem Advances.skip {rest taken : List Char} {position place : Position} {later : Scanner}
    {answer : Except LexFault Lexeme}
    (hadvances : Advances ⟨rest, position.afterText taken⟩ place answer later) :
    Advances ⟨taken ++ rest, position⟩ place answer later := by
  obtain ⟨⟨skipped, chunk, hrest, hne, hplace, hanswer⟩, hgoing, hbehind⟩ := hadvances
  refine ⟨⟨taken ++ skipped, chunk, ?_, hne, ?_, hanswer⟩, hgoing, hbehind⟩
  · simp only at hrest
    rw [hrest, List.append_assoc]
  · rw [hplace, Position.afterText_append]

/-- A call answers with a piece or with the end. -/
theorem next_cases (scanner : Scanner) :
    (∃ place, scanner.Advances place scanner.next.1 scanner.next.2) ∨
      scanner.next = (.ok ⟨.eof, scanner.position.afterText scanner.rest⟩,
        ⟨[], scanner.position.afterText scanner.rest⟩) := by
  obtain ⟨text, position⟩ := scanner
  obtain ⟨chunks, hchunks⟩ := exists_divides text
  -- Along the pieces of the text: a call passes over those between tokens, to the first other one.
  induction hchunks generalizing position with
  | nil => exact .inr (next_nil position)
  | @cons chunk chunks rest hleads hrest induct =>
    cases hanswered : chunk.answered with
    | false =>
      rw [next_of_skipped hleads hanswered]
      rcases induct (position.afterText chunk.text) with ⟨place, hadvances⟩ | hend
      · exact .inl ⟨place, hadvances.skip⟩
      · rw [hend, Position.afterText_append]
        exact .inr rfl
    | true =>
      obtain ⟨answer, later, hnext, hanswer, hclosed, hunclosed⟩ :=
        next_of_answered hleads hanswered position
      rw [hnext]
      refine .inl ⟨position, ⟨[], chunk, rfl, hleads.ne_nil, rfl, hanswer⟩,
        hanswer.ne_eof hleads, ?_⟩
      -- The line breaks in an unclosed comment are not counted, but its characters are.
      by_cases hpiece : chunk.piece = .unclosed
      · have htaken := List.length_pos_iff.2 hleads.ne_nil
        rw [hunclosed hpiece]
        exact .inr ⟨rfl, Nat.lt_add_of_pos_right htaken⟩
      · rw [hclosed hpiece]
        exact position.precedes_afterText hleads.ne_nil

/-! ### All calls -/

/-- The scanner behind a number of calls. -/
def after : Nat → Scanner → Scanner
  | 0, scanner => scanner
  | number + 1, scanner => scanner.next.2.after number

theorem after_succ (number : Nat) (scanner : Scanner) :
    scanner.after (number + 1) = (scanner.call number).2 := by
  induction number generalizing scanner with
  | zero => rfl
  | succ number induct => exact induct _

/-- So many calls answer with pieces, which stand at these places, and all others with the end. -/
structure Reaches (scanner : Scanner) (count : Nat) (places : Nat → Position) (last : Position) :
    Prop where
  le : count ≤ scanner.rest.length
  advances : ∀ number < count, (scanner.after number).Advances (places number)
    (scanner.call number).1 (scanner.call number).2
  ended : ∀ number, count ≤ number → scanner.call number = (.ok ⟨.eof, last⟩, ⟨[], last⟩)
  place : last = (scanner.after count).position.afterText (scanner.after count).rest

theorem exists_reaches (scanner : Scanner) :
    ∃ count places last, scanner.Reaches count places last := by
  -- Each call that does not answer with the end leaves a shorter text.
  induction hlength : scanner.rest.length using Nat.strong_induction_on generalizing scanner with
  | _ length induct =>
    rcases scanner.next_cases with ⟨place, hadvances⟩ | hend
    · obtain ⟨count, places, last, hle, hothers, hended, hplace⟩ :=
        induct _ (hlength ▸ hadvances.length_lt) scanner.next.2 rfl
      refine ⟨count + 1, fun number ↦ number.casesOn place places, last, ?_, ?_, ?_, hplace⟩
      · exact Nat.lt_of_le_of_lt hle hadvances.length_lt
      · rintro (_ | number) hnumber
        · exact hadvances
        · exact hothers number (Nat.lt_of_succ_lt_succ hnumber)
      · rintro (_ | number) hnumber
        · cases hnumber
        · exact hended number (Nat.le_of_succ_le_succ hnumber)
    · refine ⟨0, fun _ ↦ scanner.position, _, Nat.zero_le _, fun number hnumber ↦ ?_,
        fun number _ ↦ ?_, rfl⟩
      · cases hnumber
      cases number with
      | zero => exact hend
      | succ number =>
        rw [call, hend]
        exact call_nil number _

namespace Reaches

variable {scanner : Scanner} {count : Nat} {places : Nat → Position} {last : Position}

/-- The scanner goes on behind all places where it has been. -/
theorem precedes_after (hreaches : scanner.Reaches count places last) {number : Nat}
    (hnumber : number ≤ count) :
    ∀ earlier < number, (places earlier).Precedes (scanner.after number).position := by
  induction number with
  | zero => exact nofun
  | succ number induct =>
    intro earlier hearlier
    obtain ⟨⟨skipped, -, -, -, hplace, -⟩, -, hbehind⟩ := hreaches.advances number hnumber
    rw [after_succ]
    rcases Nat.lt_or_eq_of_le (Nat.le_of_lt_succ hearlier) with hearlier | rfl
    · have hprecedes := (induct (Nat.le_of_succ_le hnumber) earlier hearlier).afterText skipped
      rw [← hplace] at hprecedes
      exact hprecedes.trans hbehind
    · exact hbehind

/-- No piece stands where an earlier one does, and the end stands behind all of them. -/
theorem precedes (hreaches : scanner.Reaches count places last) {earlier : Nat} :
    (∀ number < count, earlier < number → (places earlier).Precedes (places number)) ∧
      (earlier < count → (places earlier).Precedes last) := by
  refine ⟨fun number hnumber hearlier ↦ ?_, fun hearlier ↦ ?_⟩
  · obtain ⟨⟨skipped, -, -, -, hplace, -⟩, -⟩ := hreaches.advances number hnumber
    rw [hplace]
    exact (hreaches.precedes_after hnumber.le earlier hearlier).afterText skipped
  · rw [hreaches.place]
    exact (hreaches.precedes_after le_rfl earlier hearlier).afterText _

end Reaches

/-! ### All tokens -/

theorem all_eq_of_next (scanner : Scanner) :
    scanner.all = match scanner.next.1 with
      | .error fault => .error fault
      | .ok lexeme =>
        if lexeme.token = .eof then .ok [lexeme] else scanner.next.2.all.map (lexeme :: ·) := by
  rw [all]
  split
  · next hanswer => rw [hanswer]
  · next hanswer =>
    rw [hanswer]
    rfl

/-- All tokens are those that the calls answer with, up to the end, or there is the first fault that
a call answers with. -/
theorem all_of_calls {count : Nat} {scanner : Scanner} {last : Position}
    (hgoing : ∀ number < count, ∀ last, (scanner.call number).1 ≠ .ok ⟨.eof, last⟩)
    (hend : (scanner.call count).1 = .ok ⟨.eof, last⟩) :
    (∃ lexemes, scanner.all = .ok (lexemes ++ [⟨.eof, last⟩]) ∧
        (∀ lexeme ∈ lexemes, lexeme.token ≠ .eof) ∧ scanner.steps count = lexemes.map .ok) ∨
      ∃ (number : Nat) (fault : LexFault) (lexemes : List Lexeme), number < count ∧
        scanner.all = .error fault ∧
        scanner.steps number = lexemes.map .ok ∧ (scanner.call number).1 = .error fault := by
  induction count generalizing scanner with
  | zero =>
    refine .inl ⟨[], ?_, nofun, rfl⟩
    change scanner.next.1 = _ at hend
    rw [all_eq_of_next, hend]
    rfl
  | succ count induct =>
    have hfirst := hgoing 0 (Nat.succ_pos count)
    change ∀ last, scanner.next.1 ≠ _ at hfirst
    have hall := all_eq_of_next scanner
    cases hanswer : scanner.next.1 with
    | error fault =>
      rw [hanswer] at hall
      exact .inr ⟨0, fault, [], Nat.succ_pos count, hall, rfl, hanswer⟩
    | ok lexeme =>
      have htoken : lexeme.token ≠ .eof := by
        obtain ⟨token, position⟩ := lexeme
        rintro rfl
        exact hfirst position hanswer
      simp only [hanswer, htoken, if_false] at hall
      rcases induct (fun number hnumber ↦ hgoing (number + 1) (Nat.succ_lt_succ hnumber)) hend with
        ⟨lexemes, hothers, htokens, hsteps⟩ |
          ⟨number, fault, lexemes, hnumber, hothers, hsteps, hfault⟩
      · refine .inl ⟨lexeme :: lexemes, ?_, List.forall_mem_cons.2 ⟨htoken, htokens⟩, ?_⟩
        · rw [hall, hothers]
          rfl
        · rw [steps, hanswer, hsteps]
          rfl
      · refine .inr ⟨number + 1, fault, lexeme :: lexemes, Nat.succ_lt_succ hnumber, ?_, ?_, hfault⟩
        · rw [hall, hothers]
          rfl
        · rw [steps, hanswer, hsteps]
          rfl

end Scanner

/-- A number of calls, at most one for each character, answer with tokens or faults at places that
are farther and farther on, each call taking some of the text; all others answer with the end at one
place. Reading all tokens gives those of the calls and one end, or the first fault of a call. -/
theorem lexing_ends (text : String) :
    ∃ (count : Nat) (places : Nat → Position) (last : Position), count ≤ text.length ∧
      (∀ number < count, ((Scanner.ofText text).after number).Advances (places number)
        ((Scanner.ofText text).call number).1 ((Scanner.ofText text).call number).2) ∧
      (∀ number, count ≤ number →
        (Scanner.ofText text).call number = (.ok ⟨.eof, last⟩, ⟨[], last⟩)) ∧
      (∀ earlier < count, (places earlier).Precedes last ∧
        ∀ later < count, earlier < later → (places earlier).Precedes (places later)) ∧
      ((∃ lexemes, tokenize text = .ok (lexemes ++ [⟨.eof, last⟩]) ∧
          (∀ lexeme ∈ lexemes, lexeme.token ≠ .eof) ∧
          (Scanner.ofText text).steps count = lexemes.map .ok) ∨
        ∃ (number : Nat) (fault : LexFault) (lexemes : List Lexeme), number < count ∧
          tokenize text = .error fault ∧
          (Scanner.ofText text).steps number = lexemes.map .ok ∧
          ((Scanner.ofText text).call number).1 = .error fault) := by
  obtain ⟨count, places, last, hreaches⟩ := (Scanner.ofText text).exists_reaches
  refine ⟨count, places, last, ?_, hreaches.advances, hreaches.ended, fun earlier hearlier ↦
    ⟨hreaches.precedes.2 hearlier, hreaches.precedes.1⟩, ?_⟩
  · have hle := hreaches.le
    rwa [Scanner.ofText, String.length_toList] at hle
  · exact Scanner.all_of_calls (fun number hnumber ↦ (hreaches.advances number hnumber).going)
      (congrArg Prod.fst (hreaches.ended count le_rfl))

/-- Faults do not stop the calls, and the comment takes the rest of the text. -/
example :
    (Scanner.ofText "x@ 7\n\x7b;\n").steps 6 = [.ok ⟨.identifier "x", ⟨1, 1⟩⟩,
      .error (.invalidCharacter '@' ⟨1, 2⟩), .ok ⟨.integer 7, ⟨1, 4⟩⟩,
      .error (.unterminatedComment ⟨2, 1⟩), .ok ⟨.eof, ⟨2, 4⟩⟩, .ok ⟨.eof, ⟨2, 4⟩⟩] := by
  cbv

end MiniPascal
