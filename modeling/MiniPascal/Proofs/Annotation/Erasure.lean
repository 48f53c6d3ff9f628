import MiniPascal.Annotate
import MiniPascal.Proofs.Token.Shape

/-!
# Erasing annotations

`erase` takes the annotations of a written program away: of a reference only the name is left, and
of a type the word without its level. Levels behind names stay, as they are part of the names.

`Shows` says which tokens a text is once its annotations are erased, and `Inline` that it stands on
one line besides. Texts are put together with `Inline.append`, as long as the second does not begin
with a character that prolongs the first, and with `Inline.andThen` where nothing prolongs the
first. There is one lemma for each kind of piece that the writing of programs uses.
-/

set_option autoImplicit false
set_option relaxedAutoImplicit false

namespace MiniPascal

/-- A type word without its level; any other word as it is. -/
def bareWord (word : List Char) : List Char :=
  if word = "INTEGER0".toList then "INTEGER".toList
  else if word = "REAL0".toList then "REAL".toList
  else word

/-- Both type words with a level are mixed, so a word of one class of characters is none of them. -/
theorem bareWord_of_all {member : Char → Bool} {word : List Char}
    (hword : ∀ character ∈ word, member character = true)
    (hinteger : "INTEGER0".toList.all member = false) (hreal : "REAL0".toList.all member = false) :
    bareWord word = word := by
  have hne (typeWord : List Char) (htype : typeWord.all member = false) : word ≠ typeWord := by
    rintro rfl
    rw [List.all_eq_true.2 hword] at htype
    cases htype
  rw [bareWord, if_neg (hne _ hinteger), if_neg (hne _ hreal)]

/-- A text without annotations: `<name:type>` becomes `name`, and type words lose their level. -/
def erase : List Char → List Char
  | [] => []
  | first :: others =>
    if first = '<' then
      others.takeWhile (· != ':') ++ erase ((others.dropWhile (· != '>')).drop 1)
    else if isWordPart first then
      bareWord (first :: others.takeWhile isWordPart) ++ erase (others.dropWhile isWordPart)
    else first :: erase others
termination_by text => text.length
decreasing_by
  · have hsuffix : others.dropWhile (· != '>') <:+ others := List.dropWhile_suffix _
    have hlength := hsuffix.length_le
    simp only [List.length_drop, List.length_cons]
    omega
  · have hsuffix : others.dropWhile isWordPart <:+ others := List.dropWhile_suffix _
    have hlength := hsuffix.length_le
    simp only [List.length_cons]
    omega
  · simp

/-- The text of a written program without its annotations. -/
def erased (text : String) : String := String.ofList (erase text.toList)

theorem erase_nil : erase [] = [] := by rw [erase]

/-! ### Pieces of an erased text -/

/-- The characters with which a word goes on. An opening bracket counts because the name behind it
takes its place. -/
def joinsWord (character : Char) : Bool := isWordPart character || character == '<'

/-- The characters with which a number goes on. -/
def joinsNumber (character : Char) : Bool := joinsWord character || character == '.'

theorem erase_other {character : Char} (hother : joinsWord character = false) (rest : List Char) :
    erase (character :: rest) = character :: erase rest := by
  simp only [joinsWord, Bool.or_eq_false_iff, beq_eq_false_iff_ne] at hother
  rw [erase, if_neg hother.2, hother.1]
  rfl

theorem erase_others {text : List Char} (hothers : ∀ character ∈ text, joinsWord character = false)
    (rest : List Char) : erase (text ++ rest) = text ++ erase rest := by
  induction text with
  | nil => rfl
  | cons first others induct =>
    rw [List.cons_append, erase_other (hothers first (List.mem_cons_self ..)),
      induct fun character hmem ↦ hothers character (List.mem_cons_of_mem _ hmem)]
    rfl

theorem erase_word {word rest : List Char} (hne : word ≠ [])
    (hword : ∀ character ∈ word, isWordPart character = true) (hrest : Avoids isWordPart rest) :
    erase (word ++ rest) = bareWord word ++ erase rest := by
  obtain ⟨first, others, rfl⟩ := List.exists_cons_of_ne_nil hne
  have hfirst : isWordPart first = true := hword first (List.mem_cons_self ..)
  have hothers : ∀ character ∈ others, isWordPart character = true :=
    fun character hmem ↦ hword character (List.mem_cons_of_mem _ hmem)
  have hopen : first ≠ '<' := by
    rintro rfl
    exact absurd hfirst (by decide)
  rw [List.cons_append, erase, if_neg hopen, if_pos hfirst, takeWhile_run hothers hrest,
    dropWhile_run hothers hrest]

/-- The rest of a reference behind its opening bracket. -/
theorem dropWhile_reference {name tag : List Char}
    (hname : ∀ character ∈ name, isWordPart character = true)
    (htag : ∀ character ∈ tag, isWordPart character = true) (rest : List Char) :
    (name ++ ':' :: (tag ++ '>' :: rest)).dropWhile (· != '>') = '>' :: rest := by
  have hbefore : ∀ character ∈ name ++ ':' :: tag, (character != '>') = true := by
    rw [List.forall_mem_append, List.forall_mem_cons]
    exact ⟨bne_of_wordPart hname '>' (by decide), by decide, bne_of_wordPart htag '>' (by decide)⟩
  have hwhole : name ++ ':' :: (tag ++ '>' :: rest) = (name ++ ':' :: tag) ++ '>' :: rest := by
    simp
  rw [hwhole, dropWhile_run hbefore (by simp)]

theorem erase_reference {name tag : List Char}
    (hname : ∀ character ∈ name, isWordPart character = true)
    (htag : ∀ character ∈ tag, isWordPart character = true) (rest : List Char) :
    erase ('<' :: (name ++ ':' :: (tag ++ '>' :: rest))) = name ++ erase rest := by
  rw [erase, if_pos rfl, takeWhile_run (bne_of_wordPart hname ':' (by decide)) (by simp),
    dropWhile_reference hname htag]
  rfl

/-- What does not prolong a word is kept. -/
theorem avoids_erase {member : Char → Bool} {rest : List Char} (hrest : Avoids joinsWord rest)
    (hmember : Avoids member rest) : Avoids member (erase rest) := by
  cases rest with
  | nil =>
    rw [erase_nil]
    exact avoids_nil member
  | cons first others =>
    rw [avoids_cons] at hrest hmember
    rwa [erase_other hrest, avoids_cons]

theorem Avoids.wordPart {rest : List Char} (hrest : Avoids joinsWord rest) :
    Avoids isWordPart rest :=
  hrest.mono fun _ hpart ↦ Bool.or_eq_true_iff.2 (.inl hpart)

theorem Avoids.word {rest : List Char} (hrest : Avoids joinsNumber rest) : Avoids joinsWord rest :=
  hrest.mono fun _ hpart ↦ Bool.or_eq_true_iff.2 (.inl hpart)

theorem Avoids.point {rest : List Char} (hrest : Avoids joinsNumber rest) :
    Avoids (· == '.') rest :=
  hrest.mono fun _ hpart ↦ Bool.or_eq_true_iff.2 (.inr hpart)

/-! ### Texts and their tokens -/

/-- Which tokens a text is, in front of any text that does not prolong it. -/
def Shows (prolongs : Char → Bool) (text : String) (tokens : List Token) : Prop :=
  ∀ (rest : List Char) (others : List Token), Avoids prolongs rest → Scans (erase rest) others →
    Scans (erase (text.toList ++ rest)) (tokens ++ others)

/-- Nothing prolongs a text that is closed. -/
def noCharacter (_ : Char) : Bool := false

/-- The text begins with a character that is not in a class. -/
def Begins (member : Char → Bool) (text : String) : Prop :=
  text.toList.head?.any (fun character ↦ !member character) = true

instance (member : Char → Bool) (text : String) : Decidable (Begins member text) :=
  inferInstanceAs (Decidable (_ = true))

theorem Begins.append {member : Char → Bool} {first : String} (hbegins : Begins member first)
    (second : String) : Begins member (first ++ second) := by
  rw [Begins, String.toList_append]
  cases htext : first.toList with
  | nil =>
    rw [Begins, htext] at hbegins
    cases hbegins
  | cons character others =>
    rw [Begins, htext] at hbegins
    exact hbegins

theorem Begins.avoids {member : Char → Bool} {text : String} (hbegins : Begins member text)
    (rest : List Char) : Avoids member (text.toList ++ rest) := by
  unfold Begins at hbegins
  cases htext : text.toList with
  | nil =>
    rw [htext] at hbegins
    cases hbegins
  | cons character others =>
    rw [htext] at hbegins
    simpa using hbegins

namespace Shows

variable {prolongs further : Char → Bool} {first second : String} {tokens others : List Token}

theorem mono (hshows : Shows prolongs first tokens)
    (hless : ∀ character, prolongs character = true → further character = true) :
    Shows further first tokens :=
  fun rest others hrest ↦ hshows rest others (hrest.mono hless)

theorem empty : Shows noCharacter "" [] := fun _ _ _ hscans ↦ hscans

theorem append (hfirst : Shows prolongs first tokens) (hsecond : Shows further second others)
    (hbegins : Begins prolongs second) : Shows further (first ++ second) (tokens ++ others) := by
  intro rest later hrest hscans
  rw [String.toList_append, List.append_assoc, List.append_assoc]
  exact hfirst _ _ (hbegins.avoids rest) (hsecond rest later hrest hscans)

/-- A closed text needs no gap behind it. -/
theorem andThen (hfirst : Shows noCharacter first tokens) (hsecond : Shows further second others) :
    Shows further (first ++ second) (tokens ++ others) := by
  intro rest later hrest hscans
  rw [String.toList_append, List.append_assoc, List.append_assoc]
  refine hfirst _ _ ?_ (hsecond rest later hrest hscans)
  intro character _
  rfl

theorem lineBreak : Shows noCharacter "\n" [] := by
  intro rest later _ hscans
  change Scans (erase ('\n' :: rest)) later
  rw [erase_other (by decide)]
  exact hscans.lineBreak

end Shows

/-- A text without a line break in it, and without a carriage return that could belong to one. -/
def Unbroken (text : String) : Prop :=
  ∀ character ∈ text.toList, character ≠ '\n' ∧ character ≠ '\r'

instance (text : String) : Decidable (Unbroken text) :=
  List.decidableBAll (fun character ↦ character ≠ '\n' ∧ character ≠ '\r') text.toList

theorem Unbroken.append {first second : String} (hfirst : Unbroken first)
    (hsecond : Unbroken second) : Unbroken (first ++ second) := by
  intro character hmem
  rw [String.toList_append] at hmem
  exact (List.mem_append.1 hmem).elim (hfirst character) (hsecond character)

theorem ne_break_of_wordPart {character : Char} (hpart : isWordPart character = true) :
    character ≠ '\n' ∧ character ≠ '\r' := by
  constructor <;>
  · rintro rfl
    exact absurd hpart (by decide)

theorem unbroken_of_wordPart {text : String}
    (htext : ∀ character ∈ text.toList, isWordPart character = true) : Unbroken text :=
  fun character hmem ↦ ne_break_of_wordPart (htext character hmem)

theorem unbroken_reference {name tag : String}
    (hname : ∀ character ∈ name.toList, isWordPart character = true)
    (htag : ∀ character ∈ tag.toList, isWordPart character = true) :
    Unbroken ("<" ++ name ++ ":" ++ tag ++ ">") := by
  have hopen : Unbroken "<" := by decide
  have hcolon : Unbroken ":" := by decide
  have hclose : Unbroken ">" := by decide
  exact (((hopen.append (unbroken_of_wordPart hname)).append hcolon).append
    (unbroken_of_wordPart htag)).append hclose

theorem toList_reference (name tag : String) (rest : List Char) :
    ("<" ++ name ++ ":" ++ tag ++ ">").toList ++ rest =
      '<' :: (name.toList ++ ':' :: (tag.toList ++ '>' :: rest)) := by
  simp only [String.toList_append, List.append_assoc]
  rfl

/-- A text that shows tokens on one line. -/
structure Inline (prolongs : Char → Bool) (text : String) (tokens : List Token) : Prop where
  unbroken : Unbroken text
  shows : Shows prolongs text tokens

namespace Inline

variable {prolongs further : Char → Bool} {first second : String} {tokens others : List Token}

theorem mono (hinline : Inline prolongs first tokens)
    (hless : ∀ character, prolongs character = true → further character = true) :
    Inline further first tokens :=
  ⟨hinline.unbroken, hinline.shows.mono hless⟩

theorem number (hinline : Inline joinsWord first tokens) : Inline joinsNumber first tokens :=
  hinline.mono fun _ hpart ↦ Bool.or_eq_true_iff.2 (.inl hpart)

theorem closed (hinline : Inline noCharacter first tokens) : Inline further first tokens :=
  hinline.mono fun _ hpart ↦ Bool.noConfusion hpart

theorem append (hfirst : Inline prolongs first tokens) (hsecond : Inline further second others)
    (hbegins : Begins prolongs second) : Inline further (first ++ second) (tokens ++ others) :=
  ⟨hfirst.unbroken.append hsecond.unbroken, hfirst.shows.append hsecond.shows hbegins⟩

theorem andThen (hfirst : Inline noCharacter first tokens)
    (hsecond : Inline further second others) :
    Inline further (first ++ second) (tokens ++ others) :=
  ⟨hfirst.unbroken.append hsecond.unbroken, hfirst.shows.andThen hsecond.shows⟩

/-! ### Words and numbers -/

theorem word {word : String} {bare : List Char} {token : Token} (hword : isWord word.toList = true)
    (hbare : bareWord word.toList = bare) (hisWord : isWord bare = true)
    (htoken : Token.ofWord (foldCase bare) = token) : Inline joinsWord word [token] := by
  refine ⟨unbroken_of_wordPart (wordPart_of_isWord hword), ?_⟩
  intro rest later hrest hscans
  rw [erase_word (ne_nil_of_isWord hword) (wordPart_of_isWord hword) hrest.wordPart, hbare]
  exact hscans.word hisWord htoken (avoids_erase hrest hrest.wordPart)

theorem bareWord_of_lower {word : List Char} (hlower : ∀ c ∈ word, c.toLower = c) :
    bareWord word = word := by
  refine @bareWord_of_all (fun c ↦ c.toLower == c) word ?_ (by decide) (by decide)
  intro character hmem
  exact beq_iff_eq.2 (hlower character hmem)

theorem name {name : String} (hname : IsName name) : Inline joinsWord name [.identifier name] :=
  word hname.word (bareWord_of_lower hname.lower) hname.word
    ((congrArg Token.ofWord hname.foldCase_eq).trans hname.free)

theorem reference {name tag : String} (hname : IsName name)
    (htag : ∀ character ∈ tag.toList, isWordPart character = true) :
    Inline joinsWord ("<" ++ name ++ ":" ++ tag ++ ">") [.identifier name] := by
  refine ⟨unbroken_reference hname.wordPart htag, ?_⟩
  intro rest later hrest hscans
  rw [toList_reference, erase_reference hname.wordPart htag]
  exact hscans.word hname.word ((congrArg Token.ofWord hname.foldCase_eq).trans hname.free)
    (avoids_erase hrest hrest.wordPart)

theorem erase_digits {digits rest : List Char} (hdigits : ∀ digit ∈ digits, isDigit digit = true)
    (hrest : Avoids isWordPart rest) : erase (digits ++ rest) = digits ++ erase rest := by
  cases digits with
  | nil => rfl
  | cons first others =>
    rw [erase_word (List.cons_ne_nil _ _) (wordPart_of_digits hdigits) hrest,
      bareWord_of_all hdigits (by decide) (by decide)]

theorem digits_avoid {rest : List Char} (hrest : Avoids joinsWord rest) :
    Avoids isDigit (erase rest) :=
  avoids_erase hrest (hrest.wordPart.mono fun _ hdigit ↦ Bool.or_eq_true_iff.2 (.inr hdigit))

theorem integer {n : Int64} (hn : 0 ≤ n.toInt) :
    Inline joinsNumber (Value.integer n).text [.integer n] := by
  obtain ⟨number, hnumber⟩ := Int.eq_ofNat_of_zero_le hn
  have htext : (Value.integer n).text.toList = Nat.toDigits 10 number := by
    rw [Value.text, hnumber]
    exact Nat.toList_repr
  have hall : ∀ digit ∈ Nat.toDigits 10 number, isDigit digit = true := isDigit_of_mem_toDigits
  have hread : readInteger (Nat.toDigits 10 number) = some n := by
    rw [readInteger, Nat.ofDigitChars_ten_toDigits, ← hnumber]
    exact fitInteger_toInt n
  refine ⟨unbroken_of_wordPart (htext ▸ wordPart_of_digits hall), ?_⟩
  intro rest later hrest hscans
  rw [htext, erase_digits hall hrest.word.wordPart]
  exact hscans.integer Nat.toDigits_ne_nil hall hread (digits_avoid hrest.word)
    (avoids_erase hrest.word hrest.point)

theorem real {r : Float} {whole fraction : List Char}
    (htext : (realText r).toList = whole ++ '.' :: fraction) (hne : whole ≠ [])
    (hwhole : ∀ character ∈ whole, isDigit character = true)
    (hfraction : ∀ character ∈ fraction, isDigit character = true)
    (hread : readReal whole fraction = some r) :
    Inline joinsNumber (Value.real r).text [.real r] := by
  change (Value.real r).text.toList = whole ++ '.' :: fraction at htext
  constructor
  · intro character hmem
    rw [htext] at hmem
    rcases List.mem_append.1 hmem with hmem | hmem
    · exact ne_break_of_wordPart (wordPart_of_digits hwhole _ hmem)
    · rcases List.mem_cons.1 hmem with rfl | hmem
      · decide
      · exact ne_break_of_wordPart (wordPart_of_digits hfraction _ hmem)
  intro rest later hrest hscans
  have hpoint : Avoids isWordPart ('.' :: (fraction ++ rest)) := by
    rw [avoids_cons]
    decide
  rw [htext, List.append_assoc, List.cons_append, erase_digits hwhole hpoint,
    erase_other (by decide), erase_digits hfraction hrest.word.wordPart]
  exact hscans.real hne hwhole hfraction hread (digits_avoid hrest.word)

/-! ### Marks, gaps and comments -/

theorem mark_others (sign : Mark) : ∀ c ∈ sign.text.toList, joinsWord c = false := by
  have hall : sign.text.toList.all (fun c ↦ !joinsWord c) = true := by
    cases sign <;> decide
  intro c hmem
  exact Bool.not_eq_true' _ ▸ List.all_eq_true.1 hall c hmem

theorem unbroken_mark (sign : Mark) : Unbroken sign.text := by
  cases sign <;> decide

theorem mark (sign : Mark) (hcolon : sign ≠ .colon) (hslash : sign ≠ .slash) :
    Inline noCharacter sign.text [.mark sign] := by
  refine ⟨unbroken_mark sign, ?_⟩
  intro rest later _ hscans
  rw [erase_others (mark_others sign)]
  exact hscans.mark sign (fun heq ↦ absurd heq hcolon) (fun heq ↦ absurd heq hslash)

theorem semicolon : Inline noCharacter ";" [.mark .semicolon] :=
  mark .semicolon Mark.noConfusion Mark.noConfusion

theorem dot : Inline noCharacter "." [.mark .dot] := mark .dot Mark.noConfusion Mark.noConfusion

theorem parentheses (hinside : Inline prolongs first tokens) (hbegins : Begins prolongs ")") :
    Inline noCharacter ("(" ++ first ++ ")")
      (.mark .leftParen :: (tokens ++ [.mark .rightParen])) := by
  have hopen : Inline noCharacter "(" [.mark .leftParen] :=
    mark .leftParen Mark.noConfusion Mark.noConfusion
  have hclose : Inline noCharacter ")" [.mark .rightParen] :=
    mark .rightParen Mark.noConfusion Mark.noConfusion
  exact (hopen.andThen hinside).append hclose hbegins

theorem empty : Inline noCharacter "" [] := ⟨by decide, .empty⟩

theorem blanks {text : String} (hall : text.toList.all (fun c ↦ c == ' ') = true) :
    Inline noCharacter text [] := by
  have htext : ∀ character ∈ text.toList, character = ' ' :=
    fun character hmem ↦ eq_of_beq (List.all_eq_true.1 hall character hmem)
  constructor
  · intro character hmem
    rw [htext character hmem]
    decide
  intro rest later _ hscans
  rw [erase_others]
  · refine hscans.blanks fun character hmem ↦ ?_
    rw [htext character hmem]
    decide
  · intro character hmem
    rw [htext character hmem]
    decide

theorem blank : Inline noCharacter " " [] := blanks (by decide)

/-- A keyword, in whatever case the text has it. -/
theorem keyword {word : String} {keyword : Keyword}
    (hword : isWord word.toList = true ∧ bareWord word.toList = word.toList ∧
      Token.ofWord (foldCase word.toList) = .keyword keyword) :
    Inline joinsWord word [.keyword keyword] :=
  Inline.word hword.1 hword.2.1 hword.1 hword.2.2

theorem keywordBlank {word : String} {keyword : Keyword}
    (hword : isWord word.toList = true ∧ bareWord word.toList = word.toList ∧
      Token.ofWord (foldCase word.toList) = .keyword keyword) :
    Inline noCharacter (word ++ " ") [.keyword keyword] :=
  (Inline.keyword hword).append blank (by decide)

/-- Any mark with a blank on either side. -/
theorem spaced (sign : Mark) : Inline noCharacter (" " ++ sign.text ++ " ") [.mark sign] := by
  refine ⟨(blank.unbroken.append (unbroken_mark sign)).append blank.unbroken, ?_⟩
  intro rest later _ hscans
  have htext : (" " ++ sign.text ++ " ").toList ++ rest =
      ' ' :: (sign.text.toList ++ ' ' :: rest) := by
    simp only [String.toList_append, List.append_assoc]
    rfl
  rw [htext, erase_other (by decide), erase_others (mark_others sign), erase_other (by decide)]
  refine (Scans.mark sign ?_ ?_ (hscans.blank (by decide))).blank (by decide)
  · intro _
    rw [avoids_cons]
    decide
  · intro _
    rw [avoids_cons]
    decide

theorem closing {name : String} (hname : IsName name) :
    Inline noCharacter (Annotate.closing name) [] := by
  constructor
  · have hopening : Unbroken " \x7bEND OF " := by decide
    have hbrace : Unbroken "\x7d" := by decide
    exact (hopening.append (unbroken_of_wordPart hname.wordPart)).append hbrace
  intro rest later _ hscans
  have htext : (Annotate.closing name).toList ++ rest =
      ' ' :: '\x7b' :: ("END".toList ++ ' ' :: ("OF".toList ++ ' ' ::
        (name.toList ++ '\x7d' :: rest))) := by
    simp only [Annotate.closing, String.toList_append, List.append_assoc]
    rfl
  have hgap (others : List Char) : Avoids isWordPart (' ' :: others) := by
    rw [avoids_cons]
    decide
  have hbrace : Avoids isWordPart ('\x7d' :: rest) := by
    rw [avoids_cons]
    decide
  have hne := ne_nil_of_isWord hname.word
  have herase : erase ((Annotate.closing name).toList ++ rest) =
      ' ' :: '\x7b' :: (("END".toList ++ ' ' :: ("OF".toList ++ ' ' :: name.toList)) ++
        '\x7d' :: erase rest) := by
    rw [htext, erase_other (by decide), erase_other (by decide),
      erase_word (by decide) (List.all_eq_true.1 (by decide)) (hgap _),
      erase_other (by decide),
      erase_word (by decide) (List.all_eq_true.1 (by decide)) (hgap _),
      erase_other (by decide),
      erase_word hne hname.wordPart hbrace, erase_other (by decide),
      bareWord_of_lower hname.lower]
    simp only [List.append_assoc, List.cons_append]
    rfl
  rw [herase]
  refine (Scans.comment ?_ hscans).blank (by decide)
  intro hmem
  have hname' : '\x7d' ∉ name.toList := fun hmem ↦ absurd (hname.wordPart _ hmem) (by decide)
  simp [hname'] at hmem

end Inline

end MiniPascal
