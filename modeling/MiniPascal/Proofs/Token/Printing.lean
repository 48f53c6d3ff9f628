import MiniPascal.Proofs.Grammar.Vocabulary
import MiniPascal.Proofs.Token.LetterCase

/-!
# Printed tokens are read back

A token may be spelled in several ways: a word in any letter case, the integer division as a mark or
as a word, a number with any digits of its value. `Token.IsSpelled` says which they are, and `IsGap`
what may stand between tokens. `printed_tokens_are_read_back`: however tokens are spelled and set
apart, the scanner finds just these tokens.

No token reaches into the gap behind it, since a gap begins with a character that prolongs none
(`IsGap.avoids`). The rest is an induction on the tokens, from the end of the text forward.
-/

set_option autoImplicit false
set_option relaxedAutoImplicit false

namespace MiniPascal

/-! ### Spellings and gaps -/

/-- The text is a spelling of the token. -/
def Token.IsSpelled : Token → List Char → Prop
  | .keyword word, text => foldCase text = foldCase word.text.toList
  | .mark sign, text => text = sign.text.toList ∨ sign = .doubleSlash ∧ foldCase text = "div"
  | .identifier name, text => IsIdentifier name ∧ foldCase text = name
  | .integer n, text => IsNumeral text ∧ n.toInt = Nat.ofDigitChars 10 text 0
  | .real r, text => ∃ whole fraction, text = whole ++ '.' :: fraction ∧ IsNumeral whole ∧
      (∀ digit ∈ fraction, isDigit digit = true) ∧ readReal whole fraction = some r
  | .eof, _ => False

/-- Blanks, line breaks and closed comments, as many as one likes. -/
inductive IsGap : List Char → Prop
  | nil : IsGap []
  | space {character : Char} {others : List Char} :
      character ∈ [' ', '\t', '\r', '\x0c', '\n'] → IsGap others → IsGap (character :: others)
  | comment {body others : List Char} : '\x7d' ∉ body → IsGap others →
      IsGap ('\x7b' :: (body ++ '\x7d' :: others))

/-- A token as it is printed, with what stands between it and the next one. -/
structure Printed where
  token : Token
  spelling : List Char
  gap : List Char
  spelled : token.IsSpelled spelling
  between : IsGap gap

def Printed.text (printed : Printed) : List Char := printed.spelling ++ printed.gap

/-! ### Words in any letter case -/

theorem isWord_lowerCase (word : List Char) : isWord (lowerCase word) = isWord word := by
  cases word with
  | nil => rfl
  | cons first others =>
    have hfirst : isLetter first.toLower = isLetter first := congrFun isLetter_toLower first
    change (isLetter first.toLower && (others.map Char.toLower).all isWordPart) = _
    rw [hfirst, List.all_map, isWordPart_toLower, isWord]

theorem isWord_of_foldCase {word : List Char} {name : String} (hname : foldCase word = name)
    (hword : isWord name.toList = true) : isWord word = true := by
  rw [← hname, foldCase, String.toList_ofList] at hword
  rwa [← isWord_lowerCase]

theorem IsIdentifier.isWord {name : String} (hname : IsIdentifier name) :
    isWord name.toList = true := by
  obtain ⟨first, others, htext, hfirst, hothers⟩ := hname.spelling
  rw [htext, MiniPascal.isWord, Bool.and_eq_true, List.all_eq_true]
  refine ⟨?_, fun character hmem ↦ ?_⟩
  · rcases hfirst with hsmall | rfl
    · simp [isLetter, hsmall]
    · rfl
  · rcases hothers character hmem with hsmall | hdigit | rfl
    · simp [isWordPart, isLetter, hsmall]
    · simp [isWordPart, isDigit, hdigit]
    · rfl

theorem Spells.reserved_of_foldCase {text : List Char} {word : String} {token : Token}
    (htext : foldCase text = word) (hmem : (word, token) ∈ reservedWords) : Spells text token := by
  have hwords : ∀ entry ∈ reservedWords, isWord entry.1.toList = true := by decide
  subst htext
  exact .reserved (isWord_of_foldCase rfl (hwords _ hmem)) hmem

theorem Token.IsSpelled.spells {token : Token} {text : List Char}
    (hspelled : token.IsSpelled text) : Spells text token := by
  cases token with
  | keyword word =>
    refine .reserved_of_foldCase hspelled ?_
    cases word <;> decide
  | mark sign =>
    rcases hspelled with rfl | ⟨rfl, hdiv⟩
    · exact .mark sign
    · exact .reserved_of_foldCase hdiv (by decide)
  | identifier name =>
    obtain ⟨hname, rfl⟩ := hspelled
    exact .identifier (isWord_of_foldCase rfl hname.isWord) hname.free
  | integer n =>
    obtain ⟨⟨hne, hdigits⟩, hvalue⟩ := hspelled
    exact .integer hne hdigits hvalue
  | real r =>
    obtain ⟨whole, fraction, rfl, ⟨hne, hwhole⟩, hfraction, hread⟩ := hspelled
    exact .real hne hwhole hfraction hread
  | eof => exact hspelled.elim

/-! ### Where tokens end -/

/-- Whether a token may go on with the character. -/
def prolongsToken (character : Char) : Bool :=
  isWordPart character || character == '.' || character == '=' || character == '/'

theorem Spells.scans {taken rest : List Char} {token : Token} {tokens : List Token}
    (hspells : Spells taken token) (havoids : Avoids prolongsToken rest)
    (hscans : Scans rest tokens) : Scans (taken ++ rest) (token :: tokens) := by
  have hpart : Avoids isWordPart rest := havoids.mono fun _ hmember ↦ by
    simp [prolongsToken, hmember]
  have hdigit : Avoids isDigit rest := hpart.mono fun _ hmember ↦ by simp [isWordPart, hmember]
  have hmark (stop : Char) (hstop : prolongsToken stop = true) : Avoids (· == stop) rest :=
    havoids.mono fun _ hmember ↦ eq_of_beq hmember ▸ hstop
  cases hspells with
  | @integer _ n hne hdigits hvalue =>
    have hread : readInteger taken = some n := by
      rw [readInteger, ← hvalue, fitInteger_toInt]
    exact .integer hne hdigits hread hdigit (hmark '.' rfl) hscans
  | real hne hwhole hfraction hread =>
    rw [List.append_assoc, List.cons_append]
    exact .real hne hwhole hfraction hread hdigit hscans
  | reserved hword hmem => exact .word hword (ofWord_of_reserved hmem) hpart hscans
  | identifier hword hfree => exact .word hword (ofWord_of_not_reserved hfree) hpart hscans
  | mark sign => exact .mark sign (fun _ ↦ hmark '=' rfl) (fun _ ↦ hmark '/' rfl) hscans

namespace IsGap

variable {gap rest : List Char} {tokens : List Token}

theorem scans (hgap : IsGap gap) (hscans : Scans rest tokens) : Scans (gap ++ rest) tokens := by
  induction hgap with
  | nil => exact hscans
  | @space character others hspace _ induct =>
    have hcases : isBlank character = true ∨ character = '\n' := by
      simpa [isBlank, or_assoc] using hspace
    rcases hcases with hblank | rfl
    · exact .blank hblank induct
    · exact .lineBreak induct
  | comment hbody _ induct =>
    rw [List.cons_append, List.append_assoc, List.cons_append]
    exact .comment hbody induct

theorem avoids (hgap : IsGap gap) (hrest : gap = [] → rest = []) :
    Avoids prolongsToken (gap ++ rest) := by
  cases hgap with
  | nil =>
    rw [hrest rfl]
    exact avoids_nil _
  | space hspace _ =>
    have hall : [' ', '\t', '\r', '\x0c', '\n'].all (!prolongsToken ·) = true := by decide
    rw [List.cons_append, avoids_cons]
    simpa using List.all_eq_true.1 hall _ hspace
  | comment _ _ =>
    rw [List.cons_append, avoids_cons]
    rfl

end IsGap

/-! ### Printed tokens -/

theorem scans_printed {printed : List Printed}
    (hapart : ∀ item ∈ printed.dropLast, item.gap ≠ []) :
    Scans (printed.flatMap Printed.text) (printed.map (·.token)) := by
  induction printed with
  | nil => exact .nil
  | cons item others induct =>
    have hothers : ∀ other ∈ others.dropLast, other.gap ≠ [] := by
      intro other hmem
      cases others with
      | nil => cases hmem
      | cons next behind => exact hapart other (List.mem_cons_of_mem _ hmem)
    have hlast : item.gap = [] → others.flatMap Printed.text = [] := by
      intro hempty
      cases others with
      | nil => rfl
      | cons next behind => exact absurd hempty (hapart item (List.mem_cons_self ..))
    -- From the end: the gap is put in front of the others, and the token in front of the gap.
    rw [List.flatMap_cons, List.map_cons, Printed.text, List.append_assoc]
    exact item.spelled.spells.scans (item.between.avoids hlast)
      (item.between.scans (induct hothers))

/-- Tokens that are spelled in any way, with gaps between them and perhaps around them, are read
back, and then the end. -/
theorem printed_tokens_are_read_back {leading : List Char} {printed : List Printed}
    (hleading : IsGap leading) (hapart : ∀ item ∈ printed.dropLast, item.gap ≠ []) :
    ∃ lexemes,
      tokenize (String.ofList (leading ++ printed.flatMap Printed.text)) = .ok lexemes ∧
      lexemes.map (·.token) = printed.map (·.token) ++ [.eof] := by
  refine Scans.tokenize ?_
  rw [String.toList_ofList]
  exact hleading.scans (scans_printed hapart)

/-- The words touch comments, and there is no gap behind the last of them. -/
theorem printed_tokens_are_read_back_div :
    let text := "\n A_1\x7b1\n\x7d:=\t\r007\x0cDiv\x7b\x7d2.50 eND"
    let tokens : List Token := [.identifier "a_1", .mark .assign, .integer 7, .mark .doubleSlash,
      .real 2.5, .keyword .endBlock]
    ∃ (leading : List Char) (printed : List Printed),
      IsGap leading ∧ (∀ item ∈ printed.dropLast, item.gap ≠ []) ∧
      String.ofList (leading ++ printed.flatMap Printed.text) = text ∧
      printed.map (·.token) = tokens ∧
      ∃ lexemes, tokenize text = .ok lexemes ∧ lexemes.map (·.token) = tokens ++ [.eof] := by
  intro text tokens
  have hname : IsIdentifier "a_1" := ⟨⟨'a', ['_', '1'], by decide, by decide, by simp⟩, by decide⟩
  have hnumeral : IsNumeral ['0', '0', '7'] := ⟨by decide, List.all_eq_true.1 (by decide)⟩
  have hreal : (Token.real 2.5).IsSpelled ['2', '.', '5', '0'] :=
    ⟨['2'], ['5', '0'], rfl, ⟨by decide, List.all_eq_true.1 (by decide)⟩,
      List.all_eq_true.1 (by decide), rfl⟩
  have hfeed : IsGap ['\x0c'] := .space (by decide) .nil
  have hblank : IsGap [' '] := .space (by decide) .nil
  have hbreak : IsGap ['\n', ' '] := .space (by decide) hblank
  have hreturn : IsGap ['\t', '\r'] := .space (by decide) (.space (by decide) .nil)
  have hempty : IsGap ['\x7b', '\x7d'] := @IsGap.comment [] [] (by decide) .nil
  have hcomment : IsGap ['\x7b', '1', '\n', '\x7d'] :=
    @IsGap.comment ['1', '\n'] [] (by decide) .nil
  let printed : List Printed := [
    ⟨.identifier "a_1", ['A', '_', '1'], _, ⟨hname, by decide⟩, hcomment⟩,
    ⟨.mark .assign, [':', '='], _, .inl rfl, hreturn⟩,
    ⟨.integer 7, _, _, ⟨hnumeral, by decide⟩, hfeed⟩,
    ⟨.mark .doubleSlash, ['D', 'i', 'v'], _, .inr ⟨rfl, by decide⟩, hempty⟩,
    ⟨.real 2.5, _, _, hreal, hblank⟩,
    ⟨.keyword .endBlock, ['e', 'N', 'D'], [], rfl, .nil⟩]
  have hapart : ∀ item ∈ printed.dropLast, item.gap ≠ [] := by simp [printed]
  have htext : String.ofList (['\n', ' '] ++ printed.flatMap Printed.text) = text := by rfl
  have hread := printed_tokens_are_read_back hbreak hapart
  rw [htext] at hread
  exact ⟨_, printed, hbreak, hapart, htext, rfl, hread⟩

end MiniPascal
