import MiniPascal.Proofs.Token.Cutting

/-!
# The shape of the tokens of a text

Whatever a text is, its identifiers are words in lower case that are not reserved, its integers are
not negative, and its reals are read from digits: `Feed.shaped_ahead`. Decimal digits behind an
identifier make another identifier of it (`IsName.append`), since no reserved word ends in a digit.
-/

set_option autoImplicit false
set_option relaxedAutoImplicit false

namespace MiniPascal

/-- An identifier as a text can write it. -/
structure IsName (name : String) : Prop where
  word : isWord name.toList = true
  lower : ∀ character ∈ name.toList, character.toLower = character
  free : Token.ofWord name = .identifier name

/-- What is known of a token of which only the text is unknown. -/
def Token.Shaped : Token → Prop
  | .identifier name => IsName name
  | .integer n => 0 ≤ n.toInt
  | .real r => ∃ whole fraction, readReal whole fraction = some r
  | _ => True

/-! ### Characters -/

theorem isDigit_eq (character : Char) : isDigit character = character.isDigit := by
  simp [isDigit, Char.isDigit, Char.le_def]

/-- What holds of the first 128 characters holds of all letters and digits. -/
theorem of_wordPart {good : Char → Bool} (hgood : ∀ n < 128, good (Char.ofNat n) = true)
    {character : Char} (hpart : isWordPart character = true) : good character = true := by
  have hsmall : character.toNat < 128 := by
    simp only [isWordPart, isLetter, isDigit, Bool.or_eq_true, decide_eq_true_eq, beq_iff_eq,
      Char.le_def, UInt32.le_iff_toNat_le] at hpart
    rcases hpart with ((hlow | hhigh) | rfl) | hdigit
    · exact Nat.lt_of_le_of_lt hlow.2 (by decide)
    · exact Nat.lt_of_le_of_lt hhigh.2 (by decide)
    · decide
    · exact Nat.lt_of_le_of_lt hdigit.2 (by decide)
  have hcharacter := hgood character.toNat hsmall
  rwa [Char.ofNat_toNat] at hcharacter

/-- Lower case keeps letters and digits, and has no further effect on lower case. -/
theorem lower_of_wordPart {character : Char} (hpart : isWordPart character = true) :
    isWordPart character.toLower = true ∧ character.toLower.toLower = character.toLower ∧
      (isLetter character = true → isLetter character.toLower = true) := by
  have hall := @of_wordPart (fun c ↦ !isWordPart c || (isWordPart c.toLower &&
    c.toLower.toLower == c.toLower && (!isLetter c || isLetter c.toLower))) (by decide) _ hpart
  simpa [hpart, and_assoc, ← Bool.not_eq_true, Decidable.imp_iff_not_or] using hall

/-! ### Decimals -/

/-- One or more digits. -/
def IsNumeral (digits : List Char) : Prop :=
  digits ≠ [] ∧ ∀ digit ∈ digits, isDigit digit = true

theorem wordPart_of_digits {digits : List Char}
    (hdigits : ∀ digit ∈ digits, isDigit digit = true) :
    ∀ digit ∈ digits, isWordPart digit = true :=
  fun digit hmem ↦ Bool.or_eq_true_iff.2 (.inr (hdigits digit hmem))

theorem isDigit_of_mem_toDigits {n : Nat} : ∀ digit ∈ Nat.toDigits 10 n, isDigit digit = true := by
  intro digit hmem
  rw [isDigit_eq]
  exact Nat.isDigit_of_mem_toDigits (by decide) (by decide) hmem

theorem toList_toString (n : Nat) : (toString n).toList = Nat.toDigits 10 n := Nat.toList_repr

theorem isDigit_of_mem_toString {n : Nat} :
    ∀ digit ∈ (toString n).toList, isDigit digit = true := by
  rw [toList_toString]
  exact isDigit_of_mem_toDigits

theorem toString_ne_nil (n : Nat) : (toString n).toList ≠ [] := by
  rw [toList_toString]
  exact Nat.toDigits_ne_nil

/-! ### Names -/

theorem toList_foldCase (word : List Char) : (foldCase word).toList = word.map Char.toLower :=
  String.toList_ofList

theorem isWord_lower {word : List Char} (hword : isWord word = true) :
    isWord (word.map Char.toLower) = true := by
  have hparts := wordPart_of_isWord hword
  obtain ⟨first, others, rfl, hfirst, hothers⟩ := exists_of_isWord hword
  refine Bool.and_eq_true_iff.2 ⟨?_, List.all_eq_true.2 ?_⟩
  · exact (lower_of_wordPart (hparts first (List.mem_cons_self ..))).2.2 hfirst
  · intro character hmem
    obtain ⟨before, hbefore, rfl⟩ := List.mem_map.1 hmem
    exact (lower_of_wordPart (hothers before hbefore)).1

theorem isWord_append {word others : List Char} (hword : isWord word = true)
    (hothers : ∀ character ∈ others, isWordPart character = true) :
    isWord (word ++ others) = true := by
  obtain ⟨first, inner, rfl, hfirst, hinner⟩ := exists_of_isWord hword
  have hall : (inner ++ others).all isWordPart = true := by
    rw [List.all_append, List.all_eq_true.2 hinner, List.all_eq_true.2 hothers]
    rfl
  exact Bool.and_eq_true_iff.2 ⟨hfirst, hall⟩

theorem eq_of_ofWord_eq_identifier {word name : String}
    (hfound : Token.ofWord word = .identifier name) : name = word := by
  rcases Token.ofWord_cases word with ⟨_, hword⟩ | hword | hword <;> cases hword ▸ hfound
  rfl

/-- A word that is no reserved word is an identifier, in lower case. -/
theorem isName_of_word {word : List Char} {name : String} (hword : isWord word = true)
    (hfound : Token.ofWord (foldCase word) = .identifier name) : IsName name := by
  obtain rfl := eq_of_ofWord_eq_identifier hfound
  refine ⟨?_, ?_, hfound⟩
  · rw [toList_foldCase]
    exact isWord_lower hword
  · rw [toList_foldCase]
    intro character hmem
    obtain ⟨before, hbefore, rfl⟩ := List.mem_map.1 hmem
    exact (lower_of_wordPart (wordPart_of_isWord hword before hbefore)).2.1

/-- No reserved word has a digit in it. -/
theorem ofWord_of_digit {word : String} {digit : Char} (hdigit : isDigit digit = true)
    (hmem : digit ∈ word.toList) : Token.ofWord word = .identifier word := by
  have hfree (reserved : String) (hall : reserved.toList.all (!isDigit ·) = true) :
      word ≠ reserved := by
    rintro rfl
    simpa [hdigit] using List.all_eq_true.1 hall digit hmem
  unfold Token.ofWord
  split <;> first | rfl | exact absurd rfl (hfree _ (by decide))

theorem lower_of_digit {digit : Char} (hdigit : isDigit digit = true) : digit.toLower = digit := by
  have hall := @of_wordPart (fun c ↦ !isDigit c || c.toLower == c) (by decide) digit
    (by simp [isWordPart, hdigit])
  simpa [hdigit] using hall

namespace IsName

variable {name : String}

theorem foldCase_eq (hname : IsName name) : foldCase name.toList = name := by
  rw [foldCase, List.map_congr_left hname.lower, List.map_id', String.ofList_toList]

theorem wordPart (hname : IsName name) : ∀ character ∈ name.toList, isWordPart character = true :=
  wordPart_of_isWord hname.word

/-- Digits behind a name make a name again. -/
theorem append (hname : IsName name) {digits : String} (hne : digits.toList ≠ [])
    (hdigits : ∀ digit ∈ digits.toList, isDigit digit = true) : IsName (name ++ digits) where
  word := by
    rw [String.toList_append]
    exact isWord_append hname.word fun digit hmem ↦ by simp [isWordPart, hdigits digit hmem]
  lower := by
    intro character hmem
    rw [String.toList_append] at hmem
    rcases List.mem_append.1 hmem with hmem | hmem
    · exact hname.lower character hmem
    · exact lower_of_digit (hdigits character hmem)
  free := by
    obtain ⟨digit, others, hcons⟩ := List.exists_cons_of_ne_nil hne
    have hmem : digit ∈ digits.toList := by simp [hcons]
    exact ofWord_of_digit (hdigits digit hmem) (by simp [String.toList_append, hmem])

end IsName

/-! ### The tokens of a text -/

theorem toInt_of_readInteger {digits : List Char} {n : Int64}
    (hread : readInteger digits = some n) : 0 ≤ n.toInt := by
  rw [toInt_fitInteger hread]
  exact Int.natCast_nonneg _

theorem cut_shaped {first : Char} {others : List Char} {token : Token}
    (hpiece : (cut first others).piece = .token token) : token.Shaped := by
  rcases cut_token_cases hpiece with ⟨-, hnumber⟩ | ⟨hletter, rfl⟩ | hmark
  · obtain ⟨n, rfl, hread⟩ | ⟨r, whole, fraction, rfl, hread⟩ := Cut.number_token_cases hnumber
    · exact toInt_of_readInteger hread
    · exact ⟨whole, fraction, hread⟩
  · have hword := isWord_takeWhile hletter others
    obtain ⟨reserved, hfound⟩ | hfound | hfound := Token.ofWord_cases _
    · rw [hfound]
      trivial
    · rw [hfound]
      trivial
    · rw [hfound]
      exact isName_of_word hword hfound
  · obtain ⟨sign, rfl, -⟩ := Cut.mark_token_cases hmark
    trivial

theorem next_shaped {scanner later : Scanner} {lexeme : Lexeme}
    (hanswer : scanner.next = (.ok lexeme, later)) : lexeme.token.Shaped := by
  fun_induction Scanner.next scanner with
  | case1 position =>
    cases hanswer
    trivial
  | case2 first others position piece further trivia htrivia induct => exact induct hanswer
  | case3 first others position piece further token htoken =>
    obtain rfl := Except.ok.inj (congrArg Prod.fst hanswer)
    exact cut_shaped htoken
  | case4 | case5 | case6 => cases hanswer

namespace Feed

theorem ofScanner_shaped (scanner : Scanner) :
    ∀ lexeme ∈ (ofScanner scanner).lexemes, lexeme.token.Shaped := by
  fun_induction ofScanner scanner with
  | case1 | case2 => simp
  | case3 scanner lexeme later hanswer hgoing feed induct =>
    intro other hmem
    rcases List.mem_cons.1 hmem with rfl | hmem
    · exact next_shaped hanswer
    · exact induct other hmem

theorem shaped_ahead (text : String) :
    ∀ lexeme ∈ (Feed.ofText text).ahead, lexeme.token.Shaped := by
  intro lexeme hmem
  rcases List.mem_append.1 hmem with hmem | hmem
  · exact ofScanner_shaped _ lexeme hmem
  · cases hending : (Feed.ofText text).ending with
    | eof position =>
      rw [hending] at hmem
      obtain rfl := List.mem_singleton.1 hmem
      trivial
    | broken fault =>
      rw [hending] at hmem
      cases hmem

end Feed

end MiniPascal
