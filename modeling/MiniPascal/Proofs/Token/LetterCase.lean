import MiniPascal.Proofs.Token.Division
import MiniPascal.Report
import Mathlib

/-!
# Letter case does not matter

`letter_case_is_ignored`: texts that differ only in the case of ASCII letters have the same tokens
at the same positions, or the same fault, and so the same reports from whatever is done with them.

A text and its lower-case form are cut into the same pieces (`cut_lowered`), since no class of
characters tells the cases of a letter apart. The two things that keep the spelling of the text
cannot keep a letter: an oversized literal is written in digits and a point, and an invalid
character is not a letter.
-/

set_option autoImplicit false
set_option relaxedAutoImplicit false

namespace MiniPascal

/-! ### Characters -/

/-- The same character, or an ASCII letter in one case or the other. -/
def SameLetter (first second : Char) : Prop :=
  first = second ∨ first.isAlpha = true ∧ second.isAlpha = true ∧ first.toLower = second.toLower

/-- Texts of one length that differ only in the case of ASCII letters. -/
def SameButCase (first second : String) : Prop :=
  List.Forall₂ SameLetter first.toList second.toList

instance (first second : Char) : Decidable (SameLetter first second) :=
  inferInstanceAs (Decidable (_ ∨ _))

theorem SameLetter.toLower_eq {first second : Char} (hsame : SameLetter first second) :
    first.toLower = second.toLower := by
  rcases hsame with rfl | ⟨-, -, hlower⟩
  · rfl
  · exact hlower

theorem toLower_of_not_letter {character : Char} (hletter : isLetter character = false) :
    character.toLower = character := by
  refine Char.toLower_eq_of_not_isUpper fun hupper ↦ ?_
  simp only [isLetter, Bool.or_eq_false_iff, decide_eq_false_iff_not, Char.le_def] at hletter
  exact hletter.1.2 (of_decide_eq_true hupper)

/-- A class of characters that does not tell the cases of the first 128 characters apart does not
tell any apart. -/
theorem class_toLower {member : Char → Bool}
    (hmember : ∀ n < 128, (member (Char.ofNat n).toLower == member (Char.ofNat n)) = true) :
    member ∘ Char.toLower = member := by
  funext character
  cases hletter : isLetter character with
  | false => rw [Function.comp_apply, toLower_of_not_letter hletter]
  | true =>
    have hpart : isWordPart character = true := by simp [isWordPart, hletter]
    exact eq_of_beq (@of_wordPart (fun c ↦ member c.toLower == member c) hmember _ hpart)

theorem isBlank_toLower : isBlank ∘ Char.toLower = isBlank := class_toLower (by decide)

theorem isDigit_toLower : isDigit ∘ Char.toLower = isDigit := class_toLower (by decide)

theorem isLetter_toLower : isLetter ∘ Char.toLower = isLetter := class_toLower (by decide)

theorem isWordPart_toLower : isWordPart ∘ Char.toLower = isWordPart := class_toLower (by decide)

/-- A character that is not a letter is the lower case of no other. -/
theorem toLower_eq_iff {character stop : Char} (hstop : isLetter stop = false) :
    character.toLower = stop ↔ character = stop := by
  constructor
  · rintro rfl
    have hletter : isLetter character = false := by
      rw [← isLetter_toLower]
      exact hstop
    exact (toLower_of_not_letter hletter).symm
  · rintro rfl
    exact toLower_of_not_letter hstop

/-! ### Pieces -/

def lowerCase (text : List Char) : List Char := text.map Char.toLower

theorem lowerCase_eq_self {text : List Char} (hletters : ∀ c ∈ text, isLetter c = false) :
    lowerCase text = text := by
  have hsame := List.map_congr_left fun c hmem ↦ toLower_of_not_letter (hletters c hmem)
  exact hsame.trans (List.map_id' text)

theorem lowerCase_eq_of_sameLetters {first second : List Char}
    (hsame : List.Forall₂ SameLetter first second) : lowerCase first = lowerCase second := by
  induction hsame with
  | nil => rfl
  | cons hletter _ induct => exact congrArg₂ List.cons hletter.toLower_eq induct

theorem foldCase_lowerCase (word : List Char) : foldCase (lowerCase word) = foldCase word := by
  simp [foldCase, lowerCase, Function.comp_def, Char.toLower_toLower_eq_toLower]

/-- A text begins with a character that is not a letter just when its lower case does. -/
theorem lowerCase_eq_cons {text rest : List Char} {stop : Char} (hstop : isLetter stop = false)
    (htext : lowerCase text = stop :: rest) : ∃ others, text = stop :: others := by
  obtain ⟨first, others, rfl, hfirst, -⟩ := List.map_eq_cons_iff.1 htext
  exact ⟨others, by rw [(toLower_eq_iff hstop).1 hfirst]⟩

theorem lowerCase_digits (text : List Char) :
    lowerCase (text.takeWhile isDigit) = text.takeWhile isDigit :=
  lowerCase_eq_self fun _ hmem ↦ not_letter_of_digit (List.mem_takeWhile_imp hmem)

section Runs

variable {member : Char → Bool} (hmember : member ∘ Char.toLower = member)

include hmember

theorem takeWhile_lowerCase (text : List Char) :
    (lowerCase text).takeWhile member = lowerCase (text.takeWhile member) := by
  rw [lowerCase, List.takeWhile_map, hmember, lowerCase]

theorem dropWhile_lowerCase (text : List Char) :
    (lowerCase text).dropWhile member = lowerCase (text.dropWhile member) := by
  rw [lowerCase, List.dropWhile_map, hmember, lowerCase]

end Runs

namespace Cut

/-- The same piece of the text in lower case. -/
def lowered (cut : Cut) : Cut := ⟨cut.piece, lowerCase cut.text, lowerCase cut.rest⟩

theorem run_lowered {member : Char → Bool} {piece : List Char → Piece}
    (hmember : member ∘ Char.toLower = member)
    (hpiece : ∀ taken, piece (lowerCase taken) = piece taken) (text : List Char) :
    run member piece (lowerCase text) = (run member piece text).lowered := by
  simp only [run, lowered, takeWhile_lowerCase hmember, dropWhile_lowerCase hmember, hpiece]

/-- A number has no letter in it. -/
theorem number_text_lowerCase (text : List Char) :
    lowerCase (number text).text = (number text).text := by
  unfold number
  split
  · next others hpoint =>
    change List.map Char.toLower (_ ++ '.' :: _) = _
    rw [List.map_append, List.map_cons]
    exact congrArg₂ (· ++ '.' :: ·) (lowerCase_digits text) (lowerCase_digits others)
  · exact lowerCase_digits text

theorem number_lowered (text : List Char) : number (lowerCase text) = (number text).lowered := by
  have hwhole : (lowerCase text).takeWhile isDigit = text.takeWhile isDigit := by
    rw [takeWhile_lowerCase isDigit_toLower, lowerCase_digits]
  have hrest := dropWhile_lowerCase isDigit_toLower text
  unfold lowered
  rw [number_text_lowerCase]
  unfold number
  rw [hwhole]
  split
  · next others hpoint =>
    rw [hrest] at hpoint
    obtain ⟨inner, hinner⟩ := lowerCase_eq_cons (by decide) hpoint
    rw [hinner] at hpoint ⊢
    obtain rfl : lowerCase inner = others := (List.cons.inj hpoint).2
    simp only [takeWhile_lowerCase isDigit_toLower, dropWhile_lowerCase isDigit_toLower,
      lowerCase_digits]
  · next hpoint =>
    rw [hrest] at hpoint
    split
    · next inner hinner => exact absurd (by rw [hinner]; rfl) (hpoint (lowerCase inner))
    · rw [hrest]

theorem comment_lowered (inside : List Char) :
    comment (lowerCase inside) = (comment inside).lowered := by
  have hmember : (· != '\x7d') ∘ Char.toLower = (· != '\x7d') := class_toLower (by decide)
  unfold comment
  rw [takeWhile_lowerCase hmember, dropWhile_lowerCase hmember]
  cases inside.dropWhile (· != '\x7d') with
  | nil => rfl
  | cons closing rest => simp [lowered, lowerCase]

theorem mark_lowered {first : Char} (hfirst : isLetter first = false) (others : List Char) :
    mark first (lowerCase others) = (mark first others).lowered := by
  have hother {second : Char} (hsecond : isLetter second = false)
      (hnot : ∀ rest, others = second :: rest → False) :
      ∀ rest, lowerCase others = second :: rest → False := by
    intro rest hrest
    obtain ⟨inner, hinner⟩ := lowerCase_eq_cons hsecond hrest
    exact hnot inner hinner
  fun_cases mark first others
  case case6 hnot =>
    rw [mark]
    · rfl
    · exact hother (by decide) hnot
  case case9 hnot =>
    rw [mark]
    · rfl
    · exact hother (by decide) hnot
  case case13 _ _ _ hslash _ _ hcolon _ _ _ _ _ =>
    rw [mark] <;> try assumption
    · simp [single, lowered, lowerCase, toLower_of_not_letter hfirst]
    · exact fun _ hfirst ↦ (hcolon hfirst).elim
    · exact fun _ hfirst ↦ (hslash hfirst).elim
  all_goals rfl

end Cut

/-- The first piece of a text in lower case is the first piece of the text. -/
theorem cut_lowered (first : Char) (others : List Char) :
    cut first.toLower (lowerCase others) = (cut first others).lowered := by
  have hblank : isBlank first.toLower = isBlank first := congrFun isBlank_toLower first
  have hdigit : isDigit first.toLower = isDigit first := congrFun isDigit_toLower first
  have hletter : isLetter first.toLower = isLetter first := congrFun isLetter_toLower first
  have hmark (stop : Char) (hstop : isLetter stop = false) :
      (first.toLower == stop) = (first == stop) := by
    rw [Bool.eq_iff_iff, beq_iff_eq, beq_iff_eq, toLower_eq_iff hstop]
  have htext : first.toLower :: lowerCase others = lowerCase (first :: others) := rfl
  unfold cut
  rw [hblank, hdigit, hletter, hmark '\n' (by decide), hmark '\x7b' (by decide), htext]
  split_ifs with _ _ _ _ hword
  · exact Cut.run_lowered isBlank_toLower (fun _ ↦ rfl) (first :: others)
  · rfl
  · exact Cut.comment_lowered others
  · exact Cut.number_lowered (first :: others)
  · exact Cut.run_lowered isWordPart_toLower (fun _ ↦ by rw [foldCase_lowerCase]) (first :: others)
  · rw [Bool.not_eq_true] at hword
    rw [toLower_of_not_letter hword]
    exact Cut.mark_lowered hword others

theorem TooLarge.lowerCase {literal : List Char} (hlarge : TooLarge literal) :
    lowerCase literal = literal := by
  refine lowerCase_eq_self fun character hmem ↦ ?_
  cases hlarge with
  | integer _ hdigits _ => exact not_letter_of_digit (hdigits character hmem)
  | real _ hwhole hfraction _ =>
    rcases List.mem_append.1 hmem with hmem | hmem
    · exact not_letter_of_digit (hwhole character hmem)
    rcases List.mem_cons.1 hmem with rfl | hmem
    · decide
    · exact not_letter_of_digit (hfraction character hmem)

theorem Stray.not_letter {character : Char} (hstray : Stray character) :
    isLetter character = false := by
  rw [← Bool.not_eq_true]
  intro hletter
  exact hstray.token [] (.word (by simp [isWord, hletter]))

theorem stray_of_cut {first : Char} {others : List Char}
    (hpiece : (cut first others).piece = .invalid) : Stray first := by
  have hleads := cut_leads first others
  have htext := cut_text_append_rest first others
  rw [hpiece] at hleads
  generalize (cut first others).text = text at hleads htext
  cases hleads with
  | invalid hstray =>
    obtain ⟨rfl, -⟩ := List.cons.inj htext
    exact hstray

theorem tooLarge_of_cut {first : Char} {others : List Char}
    (hpiece : (cut first others).piece = .oversized) : TooLarge (cut first others).text := by
  have hleads := cut_leads first others
  rw [hpiece] at hleads
  cases hleads with
  | oversized hlarge _ => exact hlarge

/-! ### Steps of a scanner -/

theorem Position.afterText_lowerCase (position : Position) (text : List Char) :
    position.afterText (lowerCase text) = position.afterText text := by
  have hafter (character : Char) (place : Position) :
      place.after character.toLower = place.after character := by
    simp only [after, toLower_eq_iff (show isLetter '\n' = false by decide)]
  simp only [afterText, lowerCase, List.foldl_map, hafter]

namespace Scanner

/-- The same scanner on the text in lower case. -/
def lowered (scanner : Scanner) : Scanner := ⟨lowerCase scanner.rest, scanner.position⟩

theorem behind_lowered (scanner : Scanner) (cut : Cut) :
    scanner.lowered.behind cut.lowered = (scanner.behind cut).lowered := by
  have hlength : (lowerCase cut.text).length = cut.text.length := List.length_map ..
  unfold behind
  cases hpiece : cut.piece <;>
    simp only [Cut.lowered, lowered, hpiece, Position.afterText_lowerCase, hlength]

theorem next_lowered_cons {first : Char} {others : List Char} {position : Position}
    {piece : Cut} {later : Scanner} (hcut : cut first others = piece)
    (hlater : behind ⟨first :: others, position⟩ piece = later) :
    next (lowered ⟨first :: others, position⟩) =
      match piece.piece with
      | .trivia _ => next later.lowered
      | .token token => (.ok ⟨token, position⟩, later.lowered)
      | .oversized =>
        (.error (.literalTooLarge (String.ofList (lowerCase piece.text)) position.line),
          later.lowered)
      | .unclosed => (.error (.unterminatedComment position), later.lowered)
      | .invalid => (.error (.invalidCharacter first.toLower position), later.lowered) := by
  subst hcut hlater
  have hbehind : behind ⟨first.toLower :: lowerCase others, position⟩ (cut first others).lowered =
      (behind ⟨first :: others, position⟩ (cut first others)).lowered :=
    behind_lowered ⟨first :: others, position⟩ (cut first others)
  change next ⟨first.toLower :: lowerCase others, position⟩ = _
  rw [next]
  simp only [cut_lowered, hbehind]
  rfl

/-- A step on the text in lower case has the same answer. -/
theorem next_lowered (scanner : Scanner) :
    scanner.lowered.next = (scanner.next.1, scanner.next.2.lowered) := by
  fun_induction next scanner with
  | case1 position => exact next_nil position
  | case2 first others position piece later trivia hpiece induct =>
    rw [next_lowered_cons rfl rfl, hpiece]
    exact induct
  | case3 first others position piece later token hpiece =>
    rw [next_lowered_cons rfl rfl, hpiece]
  | case4 first others position piece later hpiece =>
    have hlarge : TooLarge piece.text := tooLarge_of_cut hpiece
    rw [next_lowered_cons rfl rfl, hpiece, hlarge.lowerCase]
  | case5 first others position piece later hpiece =>
    rw [next_lowered_cons rfl rfl, hpiece]
  | case6 first others position piece later hpiece =>
    have hstray : Stray first := stray_of_cut hpiece
    rw [next_lowered_cons rfl rfl, hpiece, toLower_of_not_letter hstray.not_letter]

end Scanner

namespace Feed

theorem ofScanner_lowered (scanner : Scanner) : ofScanner scanner.lowered = ofScanner scanner := by
  fun_induction ofScanner scanner with
  | case1 scanner fault later hanswer => rw [ofScanner_eq, Scanner.next_lowered, hanswer]
  | case2 scanner lexeme later hanswer hend =>
    rw [ofScanner_eq, Scanner.next_lowered, hanswer]
    exact if_pos hend
  | case3 scanner lexeme later hanswer hgoing feed induct =>
    rw [ofScanner_eq, Scanner.next_lowered, hanswer]
    exact (if_neg hgoing).trans (by rw [induct])

theorem ofText_eq {first second : String} (hsame : SameButCase first second) :
    ofText first = ofText second := by
  have hscanner : (Scanner.ofText first).lowered = (Scanner.ofText second).lowered :=
    congrArg (Scanner.mk · Position.start) (lowerCase_eq_of_sameLetters hsame)
  rw [ofText, ofText, ← ofScanner_lowered, hscanner, ofScanner_lowered]

end Feed

theorem tokenize_eq_of_feed {first second : String}
    (hfeed : Feed.ofText first = Feed.ofText second) : tokenize first = tokenize second := by
  unfold Feed.ofText at hfeed
  rw [tokenize, tokenize, Feed.all_eq, Feed.all_eq, hfeed]

theorem parse_eq_of_feed {first second : String} (hfeed : Feed.ofText first = Feed.ofText second)
    (limit : Nat) : parse limit first = parse limit second := by
  rw [parse, parse, hfeed]

/-- Texts that differ only in letter case have the same lexemes or lexical fault, and under every
limit the same program or fault, and the same reports: what is recorded, the outcome and the texts
written included. -/
theorem letter_case_is_ignored {first second : String} (hsame : SameButCase first second) :
    tokenize first = tokenize second ∧
      ∀ limit, parse limit first = parse limit second ∧ check limit first = check limit second ∧
        run limit first = run limit second ∧ annotate limit first = annotate limit second := by
  have hfeed := Feed.ofText_eq hsame
  refine ⟨tokenize_eq_of_feed hfeed, fun limit ↦ ?_⟩
  have hparse := parse_eq_of_feed hfeed limit
  have hcheck : check limit first = check limit second := by rw [check, check, hparse]
  refine ⟨hparse, hcheck, ?_, ?_⟩
  · rw [run, run, hcheck]
  · rw [annotate, annotate, hparse]

/-- The texts differ in the case of keywords, names and a comment. -/
theorem letter_case_is_ignored_div :
    SameButCase "PROGRAM p; VAR Programs : REAL; {Sum}\nBEGIN PROGRAMS := 7 DIV 2 // q end."
        "program P; var pROGRAMS : Real; {sUM}\nbegin programs := 7 div 2 // Q END." ∧
      tokenize "PROGRAM p; VAR Programs : REAL; {Sum}\nBEGIN PROGRAMS := 7 DIV 2 // q end." =
        tokenize "program P; var pROGRAMS : Real; {sUM}\nbegin programs := 7 div 2 // Q END." ∧
      check 9 "PROGRAM p; VAR Programs : REAL; {Sum}\nBEGIN PROGRAMS := 7 DIV 2 // q end." =
        check 9 "program P; var pROGRAMS : Real; {sUM}\nbegin programs := 7 div 2 // Q END." := by
  have hsame : SameButCase
      "PROGRAM p; VAR Programs : REAL; {Sum}\nBEGIN PROGRAMS := 7 DIV 2 // q end."
      "program P; var pROGRAMS : Real; {sUM}\nbegin programs := 7 div 2 // Q END." := by
    unfold SameButCase
    decide +kernel
  obtain ⟨htokens, hreports⟩ := letter_case_is_ignored hsame
  exact ⟨hsame, htokens, (hreports 9).2.1⟩

end MiniPascal
