import MiniPascal.Proofs.Grammar.Cursor

/-!
# Texts that are cut into given tokens

`Scans` says which tokens a text is cut into, whatever stands between them and wherever the text
stands. A text that is built from its end forward comes with its tokens: for each kind of piece
there is a lemma that puts one in front of a text, on the condition that the first character of that
text does not prolong the piece. `Scans.tokenize` is what the scanner makes of it.

Read the other way round, a token tells how it was cut off: a number begins with a digit, a word
with a letter, and a mark is written as it stands (`cut_token_cases`, `Cut.mark_token_cases`).
-/

set_option autoImplicit false
set_option relaxedAutoImplicit false

namespace MiniPascal

/-- Which tokens a text is cut into. -/
inductive Scans : List Char → List Token → Prop
  | nil : Scans [] []
  | trivia {first : Char} {others : List Char} {trivia : Trivia} {tokens : List Token} :
      (cut first others).piece = .trivia trivia → Scans (cut first others).rest tokens →
        Scans (first :: others) tokens
  | token {first : Char} {others : List Char} {token : Token} {tokens : List Token} :
      (cut first others).piece = .token token → Scans (cut first others).rest tokens →
        Scans (first :: others) (token :: tokens)

/-- The text does not begin with a character of a class. -/
def Avoids (member : Char → Bool) (text : List Char) : Prop :=
  ∀ character ∈ text.head?, member character = false

@[simp] theorem avoids_nil (member : Char → Bool) : Avoids member [] := by simp [Avoids]

@[simp] theorem avoids_cons (member : Char → Bool) (first : Char) (others : List Char) :
    Avoids member (first :: others) ↔ member first = false := by simp [Avoids]

theorem Avoids.mono {more fewer : Char → Bool} {text : List Char} (havoids : Avoids more text)
    (hless : ∀ character, fewer character = true → more character = true) : Avoids fewer text := by
  intro character hmem
  rw [← Bool.not_eq_true]
  intro hfewer
  have hmore := havoids character hmem
  rw [hless character hfewer] at hmore
  cases hmore

/-! ### Classes of characters -/

theorem not_letter_of_digit {character : Char} (hdigit : isDigit character = true) :
    isLetter character = false := by
  simp only [isDigit, isLetter, decide_eq_true_eq, Char.le_def, UInt32.le_iff_toNat_le,
    Bool.or_eq_false_iff, decide_eq_false_iff_not, not_and, beq_eq_false_iff_ne] at *
  have hhigh : character.val.toNat ≤ 57 := hdigit.2
  refine ⟨⟨?_, ?_⟩, ?_⟩
  · intro hlow
    have hletter : 97 ≤ character.val.toNat := hlow
    omega
  · intro hlow
    have hletter : 65 ≤ character.val.toNat := hlow
    omega
  · rintro rfl
    exact absurd hdigit (by decide)

theorem bne_of_wordPart {text : List Char}
    (htext : ∀ character ∈ text, isWordPart character = true) (stop : Char)
    (hstop : isWordPart stop = false) : ∀ character ∈ text, (character != stop) = true := by
  intro character hmem
  rw [bne_iff_ne]
  rintro rfl
  rw [htext _ hmem] at hstop
  cases hstop

/-- A letter and letters or digits behind it. -/
def isWord : List Char → Bool
  | [] => false
  | first :: others => isLetter first && others.all isWordPart

theorem exists_of_isWord {word : List Char} (hword : isWord word = true) :
    ∃ first others, word = first :: others ∧ isLetter first = true ∧
      ∀ character ∈ others, isWordPart character = true := by
  cases word with
  | nil => cases hword
  | cons first others =>
    obtain ⟨hfirst, hothers⟩ := Bool.and_eq_true_iff.1 hword
    exact ⟨first, others, rfl, hfirst, List.all_eq_true.1 hothers⟩

theorem ne_nil_of_isWord {word : List Char} (hword : isWord word = true) : word ≠ [] := by
  rintro rfl
  cases hword

theorem wordPart_of_isWord {word : List Char} (hword : isWord word = true) :
    ∀ character ∈ word, isWordPart character = true := by
  obtain ⟨first, others, rfl, hfirst, hothers⟩ := exists_of_isWord hword
  rw [List.forall_mem_cons]
  exact ⟨by simp [isWordPart, hfirst], hothers⟩

/-- What is cut off at a letter is a word. -/
theorem isWord_takeWhile {first : Char} (hletter : isLetter first = true) (others : List Char) :
    isWord ((first :: others).takeWhile isWordPart) = true := by
  have hfirst : isWordPart first = true := by simp [isWordPart, hletter]
  rw [List.takeWhile_cons_of_pos hfirst]
  exact Bool.and_eq_true_iff.2 ⟨hletter, List.all_takeWhile⟩

/-- Blanks, breaks and opening braces are neither letters nor digits. -/
theorem not_wordPart_of_space {character : Char}
    (hspace : isBlank character = true ∨ character = '\n' ∨ character = '\x7b') :
    isWordPart character = false := by
  simp only [isBlank, Bool.or_eq_true, beq_iff_eq] at hspace
  rcases hspace with (((rfl | rfl) | rfl) | rfl) | rfl | rfl <;> decide

theorem cut_of_wordPart {first : Char} (hfirst : isWordPart first = true) (others : List Char) :
    cut first others =
      if isDigit first = true then Cut.number (first :: others)
      else if isLetter first = true then
        Cut.run isWordPart (fun word ↦ .token (Token.ofWord (foldCase word))) (first :: others)
      else Cut.mark first others := by
  have hspace (h : isBlank first = true ∨ first = '\n' ∨ first = '\x7b') : False := by
    rw [not_wordPart_of_space h] at hfirst
    cases hfirst
  unfold cut
  rw [if_neg fun h ↦ hspace (.inl h), if_neg fun h ↦ hspace (.inr (.inl (beq_iff_eq.1 h))),
    if_neg fun h ↦ hspace (.inr (.inr (beq_iff_eq.1 h)))]

theorem cut_of_digit {first : Char} (hfirst : isDigit first = true) (others : List Char) :
    cut first others = Cut.number (first :: others) := by
  rw [cut_of_wordPart (by simp [isWordPart, hfirst]), if_pos hfirst]

theorem cut_of_letter {first : Char} (hfirst : isLetter first = true) (others : List Char) :
    cut first others =
      Cut.run isWordPart (fun word ↦ .token (Token.ofWord (foldCase word))) (first :: others) := by
  have hdigit : ¬ isDigit first = true := by
    intro hdigit
    rw [not_letter_of_digit hdigit] at hfirst
    cases hfirst
  rw [cut_of_wordPart (by simp [isWordPart, hfirst]), if_neg hdigit, if_pos hfirst]

section Runs

variable {member : Char → Bool} {run rest : List Char}

theorem takeWhile_run (hrun : ∀ character ∈ run, member character = true)
    (hrest : Avoids member rest) : (run ++ rest).takeWhile member = run := by
  rw [List.takeWhile_append_of_pos hrun]
  cases rest with
  | nil => simp
  | cons first others =>
    rw [avoids_cons] at hrest
    simp [hrest]

theorem dropWhile_run (hrun : ∀ character ∈ run, member character = true)
    (hrest : Avoids member rest) : (run ++ rest).dropWhile member = rest := by
  rw [List.dropWhile_append_of_pos hrun]
  cases rest with
  | nil => rfl
  | cons first others =>
    rw [avoids_cons] at hrest
    simp [hrest]

/-- A run up to a character that is not in it. -/
theorem forall_bne_of_not_mem {stop : Char} (hrun : stop ∉ run) :
    ∀ character ∈ run, (character != stop) = true := by
  intro character hmem
  rw [bne_iff_ne]
  rintro rfl
  exact hrun hmem

end Runs

/-! ### The tokens that are cut off -/

/-- A word is a reserved word, the operator `div`, or a name. -/
theorem Token.ofWord_cases (word : String) :
    (∃ reserved, ofWord word = .keyword reserved) ∨ ofWord word = .mark .doubleSlash ∨
      ofWord word = .identifier word := by
  unfold ofWord
  split <;> simp

/-- A number is read as an integer, or in two parts as a real. -/
theorem Cut.number_token_cases {text : List Char} {token : Token}
    (hpiece : (number text).piece = .token token) :
    (∃ n, token = .integer n ∧ readInteger (text.takeWhile isDigit) = some n) ∨
      ∃ r whole fraction, token = .real r ∧ readReal whole fraction = some r := by
  unfold number at hpiece
  split at hpiece
  · simp only at hpiece
    split at hpiece
    · next r hread => exact .inr ⟨r, _, _, (Piece.token.inj hpiece).symm, hread⟩
    · cases hpiece
  · simp only at hpiece
    split at hpiece
    · next n hread => exact .inl ⟨n, (Piece.token.inj hpiece).symm, hread⟩
    · cases hpiece

/-- A mark is cut off where it is written. -/
theorem Cut.mark_token_cases {first : Char} {others : List Char} {token : Token}
    (hpiece : (mark first others).piece = .token token) :
    ∃ sign, token = .mark sign ∧ sign.text.toList <+: first :: others := by
  unfold mark at hpiece
  split at hpiece <;> cases hpiece <;> exact ⟨_, rfl, by simp [Mark.text]⟩

/-- The first character of a token decides how it is cut off. -/
theorem cut_token_cases {first : Char} {others : List Char} {token : Token}
    (hpiece : (cut first others).piece = .token token) :
    (isDigit first = true ∧ (Cut.number (first :: others)).piece = .token token) ∨
      (isLetter first = true ∧
        Token.ofWord (foldCase ((first :: others).takeWhile isWordPart)) = token) ∨
      (Cut.mark first others).piece = .token token := by
  unfold cut at hpiece
  split at hpiece
  · cases hpiece
  split at hpiece
  · cases hpiece
  split at hpiece
  · unfold Cut.comment at hpiece
    split at hpiece <;> cases hpiece
  split at hpiece
  · next hdigit => exact .inl ⟨hdigit, hpiece⟩
  split at hpiece
  · next hletter => exact .inr (.inl ⟨hletter, Piece.token.inj hpiece⟩)
  · exact .inr (.inr hpiece)

/-- No piece is the end of the text. -/
theorem cut_piece_ne_eof (first : Char) (others : List Char) :
    (cut first others).piece ≠ .token .eof := by
  intro hend
  rcases cut_token_cases hend with ⟨-, hnumber⟩ | ⟨-, hword⟩ | hmark
  · obtain ⟨_, hfound, -⟩ | ⟨_, _, _, hfound, -⟩ := Cut.number_token_cases hnumber <;> cases hfound
  · obtain ⟨_, hfound⟩ | hfound | hfound := Token.ofWord_cases _ <;> cases hfound ▸ hword
  · obtain ⟨_, hfound, -⟩ := Cut.mark_token_cases hmark
    cases hfound

/-- Lexemes with given tokens are these tokens at some positions. -/
theorem exists_position {lexemes : List Lexeme} {first : Token} {others : List Token}
    (htokens : lexemes.map (·.token) = first :: others) :
    ∃ position rest, lexemes = ⟨first, position⟩ :: rest ∧ rest.map (·.token) = others := by
  obtain ⟨⟨token, position⟩, rest, rfl, rfl, hrest⟩ := List.map_eq_cons_iff.1 htokens
  exact ⟨position, rest, rfl, hrest⟩

/-- Lexemes whose tokens stand between two given tokens stand between these at some positions. -/
theorem exists_enclosed {lexemes : List Lexeme} {first last : Token} {inner : List Token}
    (htokens : lexemes.map (·.token) = first :: (inner ++ [last])) :
    ∃ p x q, lexemes = ⟨first, p⟩ :: (x ++ [⟨last, q⟩]) ∧ x.map (·.token) = inner := by
  obtain ⟨p, rest, rfl, hrest⟩ := exists_position htokens
  obtain ⟨x, closing, rfl, hx, hclosing⟩ := List.map_eq_append_iff.1 hrest
  obtain ⟨q, rest, rfl, hnil⟩ := exists_position hclosing
  obtain rfl := List.map_eq_nil_iff.1 hnil
  exact ⟨p, x, q, rfl, hx⟩

namespace Feed

theorem ofScanner_congr {scanner other : Scanner} (hnext : scanner.next = other.next) :
    ofScanner scanner = ofScanner other := by
  rw [ofScanner_eq, ofScanner_eq other, hnext]

end Feed

namespace Scans

variable {text rest : List Char} {tokens : List Token}

theorem feed (hscans : Scans text tokens) (position : Position) :
    ∃ lexemes last, Feed.ofScanner ⟨text, position⟩ = ⟨lexemes, .eof last⟩ ∧
      lexemes.map (·.token) = tokens := by
  induction hscans generalizing position with
  | nil =>
    refine ⟨[], position, ?_, rfl⟩
    rw [Feed.ofScanner_eq, Scanner.next_nil]
    rfl
  | @trivia first others trivia tokens hpiece _ induct =>
    obtain ⟨lexemes, last, hfeed, htokens⟩ :=
      induct (position.afterText (cut first others).text)
    refine ⟨lexemes, last, ?_, htokens⟩
    rw [← hfeed]
    refine Feed.ofScanner_congr ?_
    rw [Scanner.next]
    simp only [hpiece, Scanner.behind]
  | @token first others token tokens hpiece _ induct =>
    obtain ⟨lexemes, last, hfeed, htokens⟩ :=
      induct (position.afterText (cut first others).text)
    have hgoing : token ≠ .eof := by
      rintro rfl
      exact cut_piece_ne_eof first others hpiece
    have hnext : Scanner.next ⟨first :: others, position⟩ = (.ok ⟨token, position⟩,
        ⟨(cut first others).rest, position.afterText (cut first others).text⟩) := by
      rw [Scanner.next]
      simp only [hpiece, Scanner.behind]
    refine ⟨⟨token, position⟩ :: lexemes, last, ?_, by simp [htokens]⟩
    rw [Feed.ofScanner_eq, hnext]
    simp only [hgoing, if_false, hfeed]

theorem tokenize {text : String} (hscans : Scans text.toList tokens) :
    ∃ lexemes, MiniPascal.tokenize text = .ok lexemes ∧
      lexemes.map (·.token) = tokens ++ [.eof] := by
  obtain ⟨lexemes, last, hfeed, htokens⟩ := hscans.feed Position.start
  change Feed.ofText text = _ at hfeed
  refine ⟨(Feed.ofText text).ahead, Feed.tokenize_eq_of_ending_eof (by rw [hfeed]), ?_⟩
  rw [hfeed, Feed.ahead, List.map_append, htokens]
  rfl

theorem of_cut {first : Char} {others taken : List Char} {found : Token}
    (hcut : cut first others = ⟨.token found, taken, text⟩) (hscans : Scans text tokens) :
    Scans (first :: others) (found :: tokens) :=
  .token (by rw [hcut]) (by rwa [hcut])

/-! ### Pieces between tokens -/

theorem blank {character : Char} (hblank : isBlank character = true) (hscans : Scans text tokens) :
    Scans (character :: text) tokens := by
  have hcut (first : Char) (others : List Char) (hfirst : isBlank first = true) :
      cut first others = ⟨.trivia .blanks, (first :: others).takeWhile isBlank,
        (first :: others).dropWhile isBlank⟩ := by
    unfold cut
    rw [if_pos hfirst]
    rfl
  refine @trivia _ _ .blanks _ (by rw [hcut _ _ hblank]) ?_
  rw [hcut _ _ hblank, List.dropWhile_cons_of_pos hblank]
  cases text with
  | nil => exact hscans
  | cons first others =>
    by_cases hfirst : isBlank first = true
    · cases hscans with
      | trivia hpiece hrest => rwa [hcut _ _ hfirst] at hrest
      | token hpiece hrest =>
        rw [hcut _ _ hfirst] at hpiece
        cases hpiece
    · rwa [List.dropWhile_cons_of_neg hfirst]

theorem blanks {run : List Char} (hrun : ∀ character ∈ run, isBlank character = true)
    (hscans : Scans text tokens) : Scans (run ++ text) tokens := by
  induction run with
  | nil => exact hscans
  | cons first others induct =>
    refine blank (hrun first (List.mem_cons_self ..)) (induct ?_)
    intro character hmem
    exact hrun character (List.mem_cons_of_mem _ hmem)

theorem lineBreak (hscans : Scans text tokens) : Scans ('\n' :: text) tokens :=
  @trivia '\n' text .lineBreak tokens rfl hscans

theorem comment {body : List Char} (hbody : '\x7d' ∉ body) (hscans : Scans text tokens) :
    Scans ('\x7b' :: (body ++ '\x7d' :: text)) tokens := by
  have hrun := forall_bne_of_not_mem hbody
  have hcut : cut '\x7b' (body ++ '\x7d' :: text) =
      ⟨.trivia .comment, '\x7b' :: (body ++ ['\x7d']), text⟩ := by
    change Cut.comment _ = _
    unfold Cut.comment
    rw [takeWhile_run hrun (by simp), dropWhile_run hrun (by simp)]
  refine @trivia _ _ .comment tokens (by rw [hcut]) ?_
  rwa [hcut]

/-! ### Tokens -/

theorem word {word : List Char} {found : Token} (hword : isWord word = true)
    (hfound : Token.ofWord (foldCase word) = found) (havoids : Avoids isWordPart text)
    (hscans : Scans text tokens) : Scans (word ++ text) (found :: tokens) := by
  have hrun := wordPart_of_isWord hword
  obtain ⟨first, others, rfl, hfirst, -⟩ := exists_of_isWord hword
  have hcut : cut first (others ++ text) = ⟨.token found, first :: others, text⟩ := by
    rw [cut_of_letter hfirst, Cut.run, ← List.cons_append, takeWhile_run hrun havoids,
      dropWhile_run hrun havoids, hfound]
  exact of_cut hcut hscans

theorem mark (sign : Mark) (hcolon : sign = .colon → Avoids (· == '=') text)
    (hslash : sign = .slash → Avoids (· == '/') text) (hscans : Scans text tokens) :
    Scans (sign.text.toList ++ text) (.mark sign :: tokens) := by
  cases sign with
  | plus => exact @token '+' text _ tokens rfl hscans
  | minus => exact @token '-' text _ tokens rfl hscans
  | star => exact @token '*' text _ tokens rfl hscans
  | slash =>
    have hcut : cut '/' text = ⟨.token (.mark .slash), ['/'], text⟩ := by
      cases text with
      | nil => rfl
      | cons first others =>
        have hfirst : first ≠ '/' := by simpa using hslash rfl
        change Cut.mark '/' (first :: others) = _
        unfold Cut.mark
        split <;> simp_all [Cut.single]
    exact of_cut hcut hscans
  | doubleSlash => exact @token '/' ('/' :: text) _ tokens rfl hscans
  | leftParen => exact @token '(' text _ tokens rfl hscans
  | rightParen => exact @token ')' text _ tokens rfl hscans
  | colon =>
    have hcut : cut ':' text = ⟨.token (.mark .colon), [':'], text⟩ := by
      cases text with
      | nil => rfl
      | cons first others =>
        have hfirst : first ≠ '=' := by simpa using hcolon rfl
        change Cut.mark ':' (first :: others) = _
        unfold Cut.mark
        split <;> simp_all [Cut.single]
    exact of_cut hcut hscans
  | assign => exact @token ':' ('=' :: text) _ tokens rfl hscans
  | comma => exact @token ',' text _ tokens rfl hscans
  | semicolon => exact @token ';' text _ tokens rfl hscans
  | dot => exact @token '.' text _ tokens rfl hscans

theorem integer {digits : List Char} {n : Int64} (hne : digits ≠ [])
    (hdigits : ∀ character ∈ digits, isDigit character = true) (hread : readInteger digits = some n)
    (havoids : Avoids isDigit text) (hpoint : Avoids (· == '.') text) (hscans : Scans text tokens) :
    Scans (digits ++ text) (.integer n :: tokens) := by
  have hnumber : Cut.number (digits ++ text) = ⟨.token (.integer n), digits, text⟩ := by
    unfold Cut.number
    rw [takeWhile_run hdigits havoids, dropWhile_run hdigits havoids]
    split
    · next others => simp at hpoint
    · simp [hread]
  obtain ⟨first, others, rfl⟩ := List.exists_cons_of_ne_nil hne
  have hcut := cut_of_digit (hdigits first (List.mem_cons_self ..)) (others ++ text)
  exact of_cut (hcut.trans hnumber) hscans

theorem real {whole fraction : List Char} {r : Float} (hne : whole ≠ [])
    (hwhole : ∀ character ∈ whole, isDigit character = true)
    (hfraction : ∀ character ∈ fraction, isDigit character = true)
    (hread : readReal whole fraction = some r) (havoids : Avoids isDigit text)
    (hscans : Scans text tokens) :
    Scans (whole ++ '.' :: (fraction ++ text)) (.real r :: tokens) := by
  have hpoint : Avoids isDigit ('.' :: (fraction ++ text)) := by
    rw [avoids_cons]
    decide
  have hnumber : Cut.number (whole ++ '.' :: (fraction ++ text)) =
      ⟨.token (.real r), whole ++ '.' :: fraction, text⟩ := by
    unfold Cut.number
    rw [takeWhile_run hwhole hpoint, dropWhile_run hwhole hpoint]
    simp only [takeWhile_run hfraction havoids, dropWhile_run hfraction havoids, hread]
  obtain ⟨first, others, rfl⟩ := List.exists_cons_of_ne_nil hne
  have hcut := cut_of_digit (hwhole first (List.mem_cons_self ..))
    (others ++ '.' :: (fraction ++ text))
  exact of_cut (hcut.trans hnumber) hscans

end Scans

end MiniPascal
