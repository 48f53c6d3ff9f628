import MiniPascal.Proofs.Number.Finite
import MiniPascal.Proofs.Token.Shape
import Mathlib.Data.List.TakeWhile

/-!
# The pieces of a text

A text is divided into pieces, and in one way only. `Spelling` says which texts are tokens, one
pattern after the other; a token in front of a rest is `Longest` when no spelling reaches farther.
`Piece.Leads` says what each piece looks like, without a word on how it is found. `cut` takes a
piece that leads the text (`cut_leads`), and no other does (`Piece.Leads.cut_eq`).
-/

set_option autoImplicit false
set_option relaxedAutoImplicit false

namespace MiniPascal

/-! ### Tokens and what they are spelled -/

/-- The texts of tokens: integers, reals, words and marks. -/
inductive Spelling : List Char → Prop
  | integer {digits : List Char} : digits ≠ [] → (∀ digit ∈ digits, isDigit digit = true) →
      Spelling digits
  | real {whole fraction : List Char} : whole ≠ [] → (∀ digit ∈ whole, isDigit digit = true) →
      (∀ digit ∈ fraction, isDigit digit = true) → Spelling (whole ++ '.' :: fraction)
  | word {word : List Char} : isWord word = true → Spelling word
  | mark (sign : Mark) : Spelling sign.text.toList

/-- A token in front of a rest, which cannot be read any farther. -/
structure Longest (taken rest : List Char) : Prop where
  spelling : Spelling taken
  farthest : ∀ other, Spelling other → other <+: taken ++ rest → other.length ≤ taken.length

/-- The words that are not identifiers. -/
def reservedWords : List (String × Token) :=
  [("program", .keyword .program), ("var", .keyword .var), ("procedure", .keyword .procedure),
    ("integer", .keyword .integer), ("real", .keyword .real), ("begin", .keyword .beginBlock),
    ("end", .keyword .endBlock), ("div", .mark .doubleSlash)]

/-- Which token a text spells, if its number is in range. -/
inductive Spells : List Char → Token → Prop
  | integer {digits : List Char} {n : Int64} : digits ≠ [] →
      (∀ digit ∈ digits, isDigit digit = true) → n.toInt = Nat.ofDigitChars 10 digits 0 →
        Spells digits (.integer n)
  | real {whole fraction : List Char} {r : Float} : whole ≠ [] →
      (∀ digit ∈ whole, isDigit digit = true) → (∀ digit ∈ fraction, isDigit digit = true) →
        readReal whole fraction = some r → Spells (whole ++ '.' :: fraction) (.real r)
  | reserved {word : List Char} {token : Token} : isWord word = true →
      (foldCase word, token) ∈ reservedWords → Spells word token
  | identifier {word : List Char} : isWord word = true →
      foldCase word ∉ reservedWords.map Prod.fst → Spells word (.identifier (foldCase word))
  | mark (sign : Mark) : Spells sign.text.toList (.mark sign)

/-- Digits of a number that no word holds, or that lies beyond the finite doubles. -/
inductive TooLarge : List Char → Prop
  | integer {digits : List Char} : digits ≠ [] → (∀ digit ∈ digits, isDigit digit = true) →
      2 ^ 63 - 1 < Nat.ofDigitChars 10 digits 0 → TooLarge digits
  | real {whole fraction : List Char} : whole ≠ [] → (∀ digit ∈ whole, isDigit digit = true) →
      (∀ digit ∈ fraction, isDigit digit = true) →
        overflowBound * 10 ^ fraction.length ≤ Nat.ofDigitChars 10 (whole ++ fraction) 0 →
          TooLarge (whole ++ '.' :: fraction)

/-- A character with which neither a token nor anything between tokens begins. -/
structure Stray (character : Char) : Prop where
  blank : isBlank character = false
  lineBreak : character ≠ '\n'
  comment : character ≠ '\x7b'
  token : ∀ others, ¬ Spelling (character :: others)

/-- What each piece is, in front of a rest. -/
inductive Piece.Leads : Piece → List Char → List Char → Prop
  | blanks {run rest : List Char} : run ≠ [] → (∀ character ∈ run, isBlank character = true) →
      Avoids isBlank rest → Leads (.trivia .blanks) run rest
  | lineBreak {rest : List Char} : Leads (.trivia .lineBreak) ['\n'] rest
  | comment {body rest : List Char} : '\x7d' ∉ body →
      Leads (.trivia .comment) ('\x7b' :: (body ++ ['\x7d'])) rest
  | token {taken rest : List Char} {token : Token} : Spells taken token → Longest taken rest →
      Leads (.token token) taken rest
  | oversized {taken rest : List Char} : TooLarge taken → Longest taken rest →
      Leads .oversized taken rest
  | unclosed {body : List Char} : '\x7d' ∉ body → Leads .unclosed ('\x7b' :: body) []
  | invalid {character : Char} {rest : List Char} : Stray character →
      Leads .invalid [character] rest

/-! ### How tokens begin -/

theorem Spelling.ne_nil {taken : List Char} (hspelling : Spelling taken) : taken ≠ [] := by
  cases hspelling with
  | integer hne _ => exact hne
  | real hne _ _ => simp
  | word hword => exact ne_nil_of_isWord hword
  | mark sign => cases sign <;> decide

/-- A spelling in front of a text begins with its first character. -/
theorem Spelling.exists_cons {other : List Char} {first : Char} {others : List Char}
    (hspelling : Spelling other) (hstarts : other <+: first :: others) :
    ∃ inner, other = first :: inner := by
  obtain ⟨same, inner, rfl⟩ := List.exists_cons_of_ne_nil hspelling.ne_nil
  obtain ⟨rfl, -⟩ := List.cons_prefix_cons.1 hstarts
  exact ⟨inner, rfl⟩

theorem mark_first {sign : Mark} {first : Char} {others : List Char}
    (hsign : sign.text.toList = first :: others) :
    isWordPart first = false ∧ isBlank first = false ∧ first ≠ '\n' ∧ first ≠ '\x7b' := by
  cases sign <;> simp only [Mark.text] at hsign <;> cases hsign <;> decide

/-- A spelling that begins with a digit is a number. -/
theorem Spelling.of_digit {first : Char} {others : List Char}
    (hspelling : Spelling (first :: others)) (hfirst : isDigit first = true) :
    (∀ digit ∈ first :: others, isDigit digit = true) ∨
      ∃ whole fraction, first :: others = whole ++ '.' :: fraction ∧ whole ≠ [] ∧
        (∀ digit ∈ whole, isDigit digit = true) ∧ ∀ digit ∈ fraction, isDigit digit = true := by
  generalize htaken : first :: others = taken at hspelling
  cases hspelling with
  | integer _ hdigits => exact .inl hdigits
  | real hne hwhole hfraction => exact .inr ⟨_, _, rfl, hne, hwhole, hfraction⟩
  | word hword =>
    rw [← htaken, isWord, Bool.and_eq_true, not_letter_of_digit hfirst] at hword
    cases hword.1
  | mark sign =>
    have hpart := (mark_first htaken.symm).1
    simp [isWordPart, hfirst] at hpart

/-- A spelling that begins with a letter is a word. -/
theorem Spelling.of_letter {first : Char} {others : List Char}
    (hspelling : Spelling (first :: others)) (hfirst : isLetter first = true) :
    isWord (first :: others) = true := by
  have hnot (hdigit : isDigit first = true) : False := by
    rw [not_letter_of_digit hdigit] at hfirst
    cases hfirst
  generalize htaken : first :: others = taken at hspelling
  cases hspelling with
  | integer _ hdigits => exact (hnot (hdigits first (by simp [← htaken]))).elim
  | @real whole fraction hne hwhole _ =>
    obtain ⟨digit, more, rfl⟩ := List.exists_cons_of_ne_nil hne
    obtain ⟨rfl, -⟩ := List.cons.inj htaken
    exact (hnot (hwhole first (List.mem_cons_self ..))).elim
  | word hword => exact hword
  | mark sign =>
    have hpart := (mark_first htaken.symm).1
    simp [isWordPart, hfirst] at hpart

/-- Any other spelling is a mark. -/
theorem Spelling.of_not_wordPart {first : Char} {others : List Char}
    (hspelling : Spelling (first :: others)) (hfirst : isWordPart first = false) :
    ∃ sign : Mark, sign.text.toList = first :: others := by
  generalize htaken : first :: others = taken at hspelling
  rw [isWordPart, Bool.or_eq_false_iff] at hfirst
  cases hspelling with
  | integer _ hdigits =>
    have hdigit := hdigits first (by simp [← htaken])
    rw [hfirst.2] at hdigit
    cases hdigit
  | @real whole fraction hne hwhole _ =>
    obtain ⟨digit, more, rfl⟩ := List.exists_cons_of_ne_nil hne
    obtain ⟨rfl, -⟩ := List.cons.inj htaken
    have hdigit := hwhole first (List.mem_cons_self ..)
    rw [hfirst.2] at hdigit
    cases hdigit
  | word hword =>
    rw [← htaken, isWord, Bool.and_eq_true, hfirst.1] at hword
    cases hword.1
  | mark sign => exact ⟨sign, rfl⟩

/-- With these characters no token begins. -/
theorem not_spelling_of_space {first : Char} {others : List Char}
    (hspace : isBlank first = true ∨ first = '\n' ∨ first = '\x7b') :
    ¬ Spelling (first :: others) := by
  intro hspelling
  obtain ⟨sign, hsign⟩ := hspelling.of_not_wordPart (not_wordPart_of_space hspace)
  obtain ⟨-, hblank, hbreak, hcomment⟩ := mark_first hsign
  rcases hspace with h | h | h
  · rw [hblank] at h
    cases h
  · exact hbreak h
  · exact hcomment h

/-! ### What is cut off -/

/-- There are two marks of two characters. -/
theorem mark_length_le {text : List Char} (hassign : ¬ [':', '='] <+: text)
    (hdivide : ¬ ['/', '/'] <+: text) (sign : Mark) (hsign : sign.text.toList <+: text) :
    sign.text.toList.length ≤ 1 := by
  cases sign with
  | assign => exact absurd hsign hassign
  | doubleSlash => exact absurd hsign hdivide
  | _ => decide

/-- The first character of a mark is a mark, too. -/
theorem exists_short_mark {sign : Mark} {first : Char} {others : List Char}
    (hsign : sign.text.toList = first :: others) : ∃ short : Mark, short.text.toList = [first] := by
  cases sign with
  | assign =>
    obtain ⟨rfl, -⟩ := List.cons.inj hsign
    exact ⟨.colon, rfl⟩
  | doubleSlash =>
    obtain ⟨rfl, -⟩ := List.cons.inj hsign
    exact ⟨.slash, rfl⟩
  | _ =>
    obtain ⟨-, rfl⟩ := List.cons.inj hsign
    exact ⟨_, hsign⟩

/-- A mark is cut off if there is one, and the longer one if there are two. -/
theorem Cut.mark_cases (first : Char) (others : List Char) :
    (∃ sign rest, mark first others = ⟨.token (.mark sign), sign.text.toList, rest⟩ ∧
      ∀ other : Mark, other.text.toList <+: first :: others →
        other.text.toList.length ≤ sign.text.toList.length) ∨
    mark first others = single .invalid first others ∧
      ∀ sign : Mark, ¬ sign.text.toList <+: first :: others := by
  have hlong (sign : Mark) : sign.text.toList.length ≤ 2 := by cases sign <;> decide
  unfold mark
  split
  case h_1 rest => exact .inl ⟨.assign, rest, rfl, fun other _ ↦ hlong other⟩
  case h_2 rest => exact .inl ⟨.doubleSlash, rest, rfl, fun other _ ↦ hlong other⟩
  case h_3 => exact .inl ⟨.plus, others, rfl, mark_length_le (by simp) (by simp)⟩
  case h_4 => exact .inl ⟨.minus, others, rfl, mark_length_le (by simp) (by simp)⟩
  case h_5 => exact .inl ⟨.star, others, rfl, mark_length_le (by simp) (by simp)⟩
  case h_6 hnot =>
    refine .inl ⟨.slash, others, rfl, mark_length_le (by simp) ?_⟩
    rintro ⟨more, hmore⟩
    exact hnot more (List.cons.inj hmore).2.symm
  case h_7 => exact .inl ⟨.leftParen, others, rfl, mark_length_le (by simp) (by simp)⟩
  case h_8 => exact .inl ⟨.rightParen, others, rfl, mark_length_le (by simp) (by simp)⟩
  case h_9 hnot =>
    refine .inl ⟨.colon, others, rfl, mark_length_le ?_ (by simp)⟩
    rintro ⟨more, hmore⟩
    exact hnot more (List.cons.inj hmore).2.symm
  case h_10 => exact .inl ⟨.comma, others, rfl, mark_length_le (by simp) (by simp)⟩
  case h_11 => exact .inl ⟨.semicolon, others, rfl, mark_length_le (by simp) (by simp)⟩
  case h_12 => exact .inl ⟨.dot, others, rfl, mark_length_le (by simp) (by simp)⟩
  case h_13 =>
    refine .inr ⟨rfl, ?_⟩
    rintro sign ⟨more, hmore⟩
    cases sign <;> cases hmore <;> contradiction

theorem length_le_takeWhile {member : Char → Bool} {run text : List Char}
    (hrun : ∀ character ∈ run, member character = true) (hstarts : run <+: text) :
    run.length ≤ (text.takeWhile member).length := by
  obtain ⟨more, rfl⟩ := hstarts
  rw [List.takeWhile_append_of_pos hrun, List.length_append]
  exact Nat.le_add_right ..

/-- The number that is cut off takes all that a spelling can take. -/
theorem Cut.number_farthest {first : Char} {others other : List Char}
    (hfirst : isDigit first = true) (hspelling : Spelling other)
    (hstarts : other <+: first :: others) :
    other.length ≤ (number (first :: others)).text.length := by
  have hwhole : ((first :: others).takeWhile isDigit).length ≤
      (number (first :: others)).text.length := by
    unfold number
    split
    · simp
    · exact le_rfl
  obtain ⟨inner, rfl⟩ := hspelling.exists_cons hstarts
  rcases hspelling.of_digit hfirst with hdigits | ⟨whole, fraction, hother, -, hdigits, hbehind⟩
  · exact (length_le_takeWhile hdigits hstarts).trans hwhole
  · obtain ⟨more, hmore⟩ := hstarts
    have hpoint : Avoids isDigit ('.' :: (fraction ++ more)) := by
      rw [avoids_cons]
      decide
    have htext : first :: others = whole ++ '.' :: (fraction ++ more) := by
      rw [← hmore, hother, List.append_assoc, List.cons_append]
    have hlength := length_le_takeWhile hbehind (List.prefix_append fraction more)
    rw [hother, htext, number, takeWhile_run hdigits hpoint, dropWhile_run hdigits hpoint]
    simp only [List.length_append, List.length_cons]
    omega

theorem Cut.number_leads {first : Char} {others : List Char} (hfirst : isDigit first = true) :
    (number (first :: others)).piece.Leads (number (first :: others)).text
      (number (first :: others)).rest := by
  have hfarthest (hspelling : Spelling (number (first :: others)).text) :
      Longest (number (first :: others)).text (number (first :: others)).rest := by
    refine ⟨hspelling, fun other hother hstarts ↦ ?_⟩
    rw [number_text_append_rest] at hstarts
    exact number_farthest hfirst hother hstarts
  have hne : (first :: others).takeWhile isDigit ≠ [] := by simp [hfirst]
  have hdigits (run : List Char) :
      ∀ digit ∈ run.takeWhile isDigit, isDigit digit = true := fun _ ↦ List.mem_takeWhile_imp
  revert hfarthest
  unfold number
  split
  · next behind hpoint =>
    intro hfarthest
    have hlongest := hfarthest (.real hne (hdigits _) (hdigits _))
    simp only at hlongest ⊢
    split
    · next r hread => exact .token (.real hne (hdigits _) (hdigits _) hread) hlongest
    · next hread =>
      exact .oversized (.real hne (hdigits _) (hdigits _) ((readReal_eq_none_iff _ _).1 hread))
        hlongest
  · intro hfarthest
    have hlongest := hfarthest (.integer hne (hdigits _))
    simp only at hlongest ⊢
    split
    · next n hread => exact .token (.integer hne (hdigits _) (toInt_fitInteger hread)) hlongest
    · next hread =>
      exact .oversized (.integer hne (hdigits _) ((readInteger_eq_none_iff _).1 hread)) hlongest

theorem spells_ofWord {word : List Char} (hword : isWord word = true) :
    Spells word (Token.ofWord (foldCase word)) := by
  have hreserved {text : String} {token : Token} (hfold : foldCase word = text)
      (hmem : (text, token) ∈ reservedWords) : Spells word token :=
    .reserved hword (by rwa [hfold])
  unfold Token.ofWord
  split <;> first
    | exact hreserved ‹_› (by decide)
    | exact .identifier hword (by simp_all [reservedWords])

theorem avoids_dropWhile (member : Char → Bool) (text : List Char) :
    Avoids member (text.dropWhile member) := by
  induction text with
  | nil => exact avoids_nil member
  | cons first others induct =>
    rw [List.dropWhile_cons]
    split
    · exact induct
    · next hfirst => simpa using hfirst

/-- The word that is cut off takes all that a spelling can take. -/
theorem word_leads {first : Char} {others : List Char} (hfirst : isLetter first = true) :
    Piece.Leads (.token (Token.ofWord (foldCase ((first :: others).takeWhile isWordPart))))
      ((first :: others).takeWhile isWordPart) ((first :: others).dropWhile isWordPart) := by
  have hword := isWord_takeWhile hfirst others
  refine .token (spells_ofWord hword) ⟨.word hword, fun other hother hstarts ↦ ?_⟩
  rw [List.takeWhile_append_dropWhile] at hstarts
  obtain ⟨inner, rfl⟩ := hother.exists_cons hstarts
  exact length_le_takeWhile (wordPart_of_isWord (hother.of_letter hfirst)) hstarts

theorem Cut.mark_leads {first : Char} {others : List Char} (hpart : isWordPart first = false)
    (hblank : isBlank first = false) (hbreak : first ≠ '\n') (hcomment : first ≠ '\x7b') :
    (mark first others).piece.Leads (mark first others).text (mark first others).rest := by
  have htext := mark_text_append_rest first others
  have hsign {other : List Char} (hspelling : Spelling other)
      (hstarts : other <+: first :: others) : ∃ sign : Mark, sign.text.toList = other := by
    obtain ⟨inner, rfl⟩ := hspelling.exists_cons hstarts
    exact hspelling.of_not_wordPart hpart
  rcases mark_cases first others with ⟨sign, rest, hmark, hlonger⟩ | ⟨hmark, hnone⟩
  · rw [hmark] at htext ⊢
    refine .token (.mark sign) ⟨.mark sign, fun other hother hstarts ↦ ?_⟩
    rw [htext] at hstarts
    obtain ⟨found, rfl⟩ := hsign hother hstarts
    exact hlonger found hstarts
  · rw [hmark]
    refine .invalid ⟨hblank, hbreak, hcomment, fun inner hother ↦ ?_⟩
    obtain ⟨sign, hspelled⟩ := hother.of_not_wordPart hpart
    obtain ⟨short, hshort⟩ := exists_short_mark hspelled
    exact hnone short (by simp [hshort])

/-- `cut` takes a piece that leads the text. -/
theorem cut_leads (first : Char) (others : List Char) :
    (cut first others).piece.Leads (cut first others).text (cut first others).rest := by
  unfold cut
  split
  · next hblank =>
    refine .blanks ?_ (fun _ ↦ List.mem_takeWhile_imp) (avoids_dropWhile _ _)
    simp [Cut.run, hblank]
  next hblank =>
  split
  · next hbreak =>
    rw [eq_of_beq hbreak]
    exact .lineBreak
  next hbreak =>
  split
  · unfold Cut.comment
    have hbody : '\x7d' ∉ others.takeWhile (· != '\x7d') := fun hmem ↦ by
      simpa using List.mem_takeWhile_imp hmem
    split
    · next closing rest hrest =>
      have hclosing := avoids_dropWhile (· != '\x7d') others
      rw [hrest, avoids_cons, bne_eq_false_iff_eq] at hclosing
      rw [hclosing]
      exact .comment hbody
    · exact .unclosed hbody
  next hcomment =>
  split
  · next hdigit => exact Cut.number_leads hdigit
  next hdigit =>
  split
  · next hletter => exact word_leads hletter
  next hletter =>
  exact Cut.mark_leads (by simp [isWordPart, hdigit, hletter]) (by simpa using hblank)
    (by simpa using hbreak) (by simpa using hcomment)

/-! ### One piece only -/

theorem Spells.spelling {taken : List Char} {token : Token} (hspells : Spells taken token) :
    Spelling taken := by
  cases hspells with
  | integer hne hdigits _ => exact .integer hne hdigits
  | real hne hwhole hfraction _ => exact .real hne hwhole hfraction
  | reserved hword _ | identifier hword _ => exact .word hword
  | mark sign => exact .mark sign

theorem TooLarge.spelling {taken : List Char} (hlarge : TooLarge taken) : Spelling taken := by
  cases hlarge with
  | integer hne hdigits _ => exact .integer hne hdigits
  | real hne hwhole hfraction _ => exact .real hne hwhole hfraction

theorem Longest.unique {taken rest other behind : List Char} (hlongest : Longest taken rest)
    (hother : Longest other behind) (htext : taken ++ rest = other ++ behind) : taken = other := by
  have hle := hlongest.farthest other hother.spelling (htext ▸ List.prefix_append ..)
  have hge := hother.farthest taken hlongest.spelling (htext ▸ List.prefix_append ..)
  exact (List.append_inj htext (Nat.le_antisymm hge hle)).1

theorem ofWord_of_reserved {word : String} {token : Token} (hmem : (word, token) ∈ reservedWords) :
    Token.ofWord word = token := by
  have hall : ∀ entry ∈ reservedWords, Token.ofWord entry.1 = entry.2 := by decide
  exact hall _ hmem

theorem ofWord_of_not_reserved {word : String} (hword : word ∉ reservedWords.map Prod.fst) :
    Token.ofWord word = .identifier word := by
  unfold Token.ofWord
  split <;> simp_all [reservedWords]

section Whole

variable {first : Char} {others : List Char}

theorem cut_digits (hdigits : ∀ digit ∈ first :: others, isDigit digit = true) :
    cut first others =
      ⟨(readInteger (first :: others)).elim .oversized fun n ↦ .token (.integer n),
        first :: others, []⟩ := by
  have htake := takeWhile_run hdigits (avoids_nil isDigit)
  have hdrop := dropWhile_run hdigits (avoids_nil isDigit)
  rw [List.append_nil] at htake hdrop
  rw [cut_of_digit (hdigits first (List.mem_cons_self ..)), Cut.number, htake, hdrop]
  cases readInteger (first :: others) <;> rfl

theorem cut_point {whole fraction : List Char} (htext : first :: others = whole ++ '.' :: fraction)
    (hne : whole ≠ []) (hwhole : ∀ digit ∈ whole, isDigit digit = true)
    (hfraction : ∀ digit ∈ fraction, isDigit digit = true) :
    cut first others =
      ⟨(readReal whole fraction).elim .oversized fun r ↦ .token (.real r),
        first :: others, []⟩ := by
  have hpoint : Avoids isDigit ('.' :: fraction) := by
    rw [avoids_cons]
    decide
  have htake := takeWhile_run hfraction (avoids_nil isDigit)
  have hdrop := dropWhile_run hfraction (avoids_nil isDigit)
  rw [List.append_nil] at htake hdrop
  have hfirst : isDigit first = true := by
    obtain ⟨digit, more, rfl⟩ := List.exists_cons_of_ne_nil hne
    obtain ⟨rfl, -⟩ := List.cons.inj htext
    exact hwhole first (List.mem_cons_self ..)
  rw [cut_of_digit hfirst, htext, Cut.number, takeWhile_run hwhole hpoint,
    dropWhile_run hwhole hpoint]
  simp only [htake, hdrop]
  cases readReal whole fraction <;> rfl

theorem cut_word (hword : isWord (first :: others) = true) :
    cut first others =
      ⟨.token (Token.ofWord (foldCase (first :: others))), first :: others, []⟩ := by
  have htake := takeWhile_run (wordPart_of_isWord hword) (avoids_nil isWordPart)
  have hdrop := dropWhile_run (wordPart_of_isWord hword) (avoids_nil isWordPart)
  rw [List.append_nil] at htake hdrop
  rw [cut_of_letter (Bool.and_eq_true_iff.1 hword).1, Cut.run, htake, hdrop]

/-- The whole of a token is cut off. -/
theorem Spells.cut_self {token : Token} (hspells : Spells (first :: others) token) :
    cut first others = ⟨.token token, first :: others, []⟩ := by
  generalize htaken : first :: others = taken at hspells
  cases hspells with
  | @integer digits n _ hdigits hvalue =>
    subst htaken
    have hread : readInteger (first :: others) = some n := by
      rw [readInteger, ← hvalue, fitInteger_toInt]
    rw [cut_digits hdigits, hread, Option.elim_some]
  | real hne hwhole hfraction hread =>
    rw [cut_point htaken hne hwhole hfraction, hread, Option.elim_some, htaken]
  | reserved hword hmem =>
    subst htaken
    rw [cut_word hword, ofWord_of_reserved hmem]
  | identifier hword hmem =>
    subst htaken
    rw [cut_word hword, ofWord_of_not_reserved hmem]
  | mark sign => cases sign <;> cases htaken <;> rfl

/-- The whole of a number out of range is cut off. -/
theorem TooLarge.cut_self (hlarge : TooLarge (first :: others)) :
    cut first others = ⟨.oversized, first :: others, []⟩ := by
  generalize htaken : first :: others = taken at hlarge
  cases hlarge with
  | integer _ hdigits hvalue =>
    subst htaken
    rw [cut_digits hdigits, (readInteger_eq_none_iff _).2 hvalue, Option.elim_none]
  | real hne hwhole hfraction hvalue =>
    rw [cut_point htaken hne hwhole hfraction, (readReal_eq_none_iff _ _).2 hvalue,
      Option.elim_none, htaken]

end Whole

theorem Piece.Leads.ne_nil {piece : Piece} {taken rest : List Char}
    (hleads : piece.Leads taken rest) : taken ≠ [] := by
  cases hleads with
  | blanks hne _ _ => exact hne
  | token hspells _ => exact hspells.spelling.ne_nil
  | oversized hlarge _ => exact hlarge.spelling.ne_nil
  | _ => simp

/-- A piece that begins as a token does is a token or a number out of range: it is the longest one,
and is cut off alone. -/
theorem Piece.Leads.of_spelling {piece : Piece} {first : Char} {inner others rest : List Char}
    (hleads : piece.Leads (first :: inner) rest) (hspelling : Spelling (first :: others)) :
    Longest (first :: inner) rest ∧ cut first inner = ⟨piece, first :: inner, []⟩ := by
  have hspace (hspace : isBlank first = true ∨ first = '\n' ∨ first = '\x7b') : False :=
    not_spelling_of_space hspace hspelling
  cases hleads with
  | blanks _ hrun _ => exact (hspace (.inl (hrun first (List.mem_cons_self ..)))).elim
  | lineBreak => exact (hspace (.inr (.inl rfl))).elim
  | comment _ | unclosed _ => exact (hspace (.inr (.inr rfl))).elim
  | token hspells hlongest => exact ⟨hlongest, hspells.cut_self⟩
  | oversized hlarge hlongest => exact ⟨hlongest, hlarge.cut_self⟩
  | invalid hstray => exact (hstray.token _ hspelling).elim

theorem cut_eq_of_longest {piece : Piece} {first : Char} {others taken rest : List Char}
    (hleads : piece.Leads taken rest) (hlongest : Longest taken rest)
    (htext : taken ++ rest = first :: others) : cut first others = ⟨piece, taken, rest⟩ := by
  obtain ⟨inner, rfl⟩ := hlongest.spelling.exists_cons ⟨rest, htext⟩
  have hcut := cut_text_append_rest first others
  have hfound := cut_leads first others
  generalize cut first others = found at hcut hfound ⊢
  obtain ⟨other, text, behind⟩ := found
  obtain ⟨same, more, rfl⟩ := List.exists_cons_of_ne_nil hfound.ne_nil
  obtain ⟨rfl, -⟩ := List.cons.inj hcut
  obtain ⟨hfarthest, hself⟩ := hfound.of_spelling hlongest.spelling
  obtain rfl := (List.cons.inj (hfarthest.unique hlongest (hcut.trans htext.symm))).2
  have hsame := hself.symm.trans (hleads.of_spelling hlongest.spelling).2
  have hpiece : other = piece := congrArg Cut.piece hsame
  have hrest : behind = rest := List.append_cancel_left (hcut.trans htext.symm)
  rw [hpiece, hrest]

theorem Stray.cut_eq {first : Char} (hstray : Stray first) (others : List Char) :
    cut first others = ⟨.invalid, [first], others⟩ := by
  have hdigit : ¬ isDigit first = true := fun hdigit ↦
    hstray.token [] (.integer (by simp) (by simpa using hdigit))
  have hletter : ¬ isLetter first = true := fun hletter ↦
    hstray.token [] (.word (by simpa [isWord] using hletter))
  rw [cut, if_neg (by simp [hstray.blank]), if_neg (by simpa using hstray.lineBreak),
    if_neg (by simpa using hstray.comment), if_neg hdigit, if_neg hletter]
  rcases Cut.mark_cases first others with ⟨sign, rest, hmark, -⟩ | ⟨hmark, -⟩
  · have htext := Cut.mark_text_append_rest first others
    have hspelling := Spelling.mark sign
    rw [hmark] at htext
    obtain ⟨same, inner, hsign⟩ := List.exists_cons_of_ne_nil hspelling.ne_nil
    rw [hsign] at htext hspelling
    obtain ⟨rfl, -⟩ := List.cons.inj htext
    exact (hstray.token _ hspelling).elim
  · rw [hmark, Cut.single]

/-- The piece that leads a text is the one that `cut` takes. -/
theorem Piece.Leads.cut_eq {piece : Piece} {first : Char} {others taken rest : List Char}
    (hleads : piece.Leads taken rest) (htext : taken ++ rest = first :: others) :
    cut first others = ⟨piece, taken, rest⟩ := by
  cases hleads with
  | @blanks run _ hne hrun havoids =>
    have hfirst : isBlank first = true := by
      obtain ⟨blank, more, rfl⟩ := List.exists_cons_of_ne_nil hne
      obtain ⟨rfl, -⟩ := List.cons.inj htext
      exact hrun blank (List.mem_cons_self ..)
    rw [cut, if_pos hfirst, Cut.run, ← htext, takeWhile_run hrun havoids,
      dropWhile_run hrun havoids]
  | lineBreak =>
    cases htext
    rfl
  | @comment body _ hbody =>
    obtain ⟨rfl, rfl⟩ := List.cons.inj htext
    change Cut.comment ((body ++ ['\x7d']) ++ rest) = _
    rw [List.append_assoc, Cut.comment, takeWhile_run (forall_bne_of_not_mem hbody) (by simp),
      dropWhile_run (forall_bne_of_not_mem hbody) (by simp)]
    rfl
  | @unclosed body hbody =>
    obtain ⟨rfl, rfl⟩ := List.cons.inj htext
    change Cut.comment (body ++ []) = _
    rw [Cut.comment, takeWhile_run (forall_bne_of_not_mem hbody) (avoids_nil _),
      dropWhile_run (forall_bne_of_not_mem hbody) (avoids_nil _)]
  | token hspells hlongest => exact cut_eq_of_longest (.token hspells hlongest) hlongest htext
  | oversized hlarge hlongest => exact cut_eq_of_longest (.oversized hlarge hlongest) hlongest htext
  | invalid hstray =>
    obtain ⟨rfl, rfl⟩ := List.cons.inj htext
    exact hstray.cut_eq _

end MiniPascal
