import MiniPascal.Proofs.Annotation.Row

/-!
# What a reader sees of an annotated text

Reading a text from left to right, `sightings` notes each word that ends in a digit and each
reference `<name:type>`, and skips everything else: other words, numbers, marks, and comments. It
knows nothing of the program that the text was written from.

`Reveals` says what is noted of a text on one line, whatever follows it. There is one lemma for each
kind of piece that programs are written with, and `RowsReveal` puts lines together.
-/

set_option autoImplicit false
set_option relaxedAutoImplicit false

namespace MiniPascal

open Annotate

/-- A word with digits behind it, or a reference with what it says of its name. -/
inductive Sighting where
  | tagged (text : String)
  | reference (text type : String)
  deriving DecidableEq, Repr

/-- What stands for a name. -/
def Sighting.text : Sighting → String
  | .tagged text => text
  | .reference text _ => text

/-- The words that end in a digit and the references of a text, in order. -/
def sightings : List Char → List Sighting
  | [] => []
  | first :: others =>
    if first = '\x7b' then sightings ((others.dropWhile (· != '\x7d')).drop 1)
    else if first = '<' then
      .reference (String.ofList (others.takeWhile (· != ':')))
        (String.ofList (((others.dropWhile (· != ':')).drop 1).takeWhile (· != '>'))) ::
          sightings ((others.dropWhile (· != '>')).drop 1)
    else if isLetter first then
      let word := first :: others.takeWhile isWordPart
      let further := sightings (others.dropWhile isWordPart)
      if word.getLast?.any isDigit then .tagged (String.ofList word) :: further else further
    else sightings others
termination_by text => text.length
decreasing_by
  · have hlength := (List.dropWhile_suffix (l := others) (· != '\x7d')).length_le
    simp only [List.length_drop, List.length_cons]
    omega
  · have hlength := (List.dropWhile_suffix (l := others) (· != '>')).length_le
    simp only [List.length_drop, List.length_cons]
    omega
  · have hlength := (List.dropWhile_suffix (l := others) isWordPart).length_le
    simp only [List.length_cons]
    omega
  · simp

theorem sightings_nil : sightings [] = [] := by rw [sightings]

/-! ### Single pieces -/

/-- A character that begins nothing of interest. -/
def isPlain (character : Char) : Bool :=
  !(isLetter character || character == '\x7b' || character == '<')

theorem sightings_plain {character : Char} (hplain : isPlain character = true) (rest : List Char) :
    sightings (character :: rest) = sightings rest := by
  simp only [isPlain, Bool.not_eq_true', Bool.or_eq_false_iff, beq_eq_false_iff_ne] at hplain
  obtain ⟨⟨hletter, hbrace⟩, hopen⟩ := hplain
  rw [sightings, if_neg hbrace, if_neg hopen, hletter]
  rfl

theorem sightings_plains {text : List Char} (hplain : ∀ c ∈ text, isPlain c = true)
    (rest : List Char) : sightings (text ++ rest) = sightings rest := by
  induction text with
  | nil => rfl
  | cons character others induct =>
    rw [List.forall_mem_cons] at hplain
    rw [List.cons_append, sightings_plain hplain.1, induct hplain.2]

theorem sightings_word {word rest : List Char} (hword : isWord word = true)
    (hrest : Avoids isWordPart rest) :
    sightings (word ++ rest) =
      if word.getLast?.any isDigit then .tagged (String.ofList word) :: sightings rest
      else sightings rest := by
  obtain ⟨first, others, rfl, hfirst, hothers⟩ := exists_of_isWord hword
  have hbrace : first ≠ '\x7b' := by
    rintro rfl
    exact absurd hfirst (by decide)
  have hopen : first ≠ '<' := by
    rintro rfl
    exact absurd hfirst (by decide)
  rw [List.cons_append, sightings, if_neg hbrace, if_neg hopen, if_pos hfirst,
    takeWhile_run hothers hrest, dropWhile_run hothers hrest]

theorem sightings_reference {name type : List Char}
    (hname : ∀ character ∈ name, isWordPart character = true)
    (htype : ∀ character ∈ type, isWordPart character = true) (rest : List Char) :
    sightings ('<' :: (name ++ ':' :: (type ++ '>' :: rest))) =
      .reference (String.ofList name) (String.ofList type) :: sightings rest := by
  have hcolon := bne_of_wordPart hname ':' (by decide)
  have hclose := bne_of_wordPart htype '>' (by decide)
  rw [sightings, if_neg (by decide), if_pos rfl, takeWhile_run hcolon (by simp),
    dropWhile_run hcolon (by simp), List.drop_one, List.tail_cons, takeWhile_run hclose (by simp),
    dropWhile_reference hname htype]
  rfl

theorem sightings_comment {body : List Char} (hbody : '\x7d' ∉ body) (rest : List Char) :
    sightings ('\x7b' :: (body ++ '\x7d' :: rest)) = sightings rest := by
  have hrun := forall_bne_of_not_mem hbody
  rw [sightings, if_pos rfl, dropWhile_run hrun (by simp)]
  rfl

/-! ### Texts on one line -/

/-- What is seen of a text on one line, in front of any text that does not prolong it. -/
structure Reveals (prolongs : Char → Bool) (text : String) (seen : List Sighting) : Prop where
  unbroken : Unbroken text
  sees : ∀ rest, Avoids prolongs rest → sightings (text.toList ++ rest) = seen ++ sightings rest

namespace Reveals

variable {prolongs further : Char → Bool} {first second : String} {seen others : List Sighting}

theorem closed (hfirst : Reveals noCharacter first seen) : Reveals further first seen :=
  ⟨hfirst.unbroken, fun rest _ ↦ hfirst.sees rest fun _ _ ↦ rfl⟩

theorem append (hfirst : Reveals prolongs first seen) (hsecond : Reveals further second others)
    (hbegins : Begins prolongs second) : Reveals further (first ++ second) (seen ++ others) := by
  refine ⟨hfirst.unbroken.append hsecond.unbroken, fun rest hrest ↦ ?_⟩
  rw [String.toList_append, List.append_assoc, hfirst.sees _ (hbegins.avoids rest),
    hsecond.sees rest hrest, List.append_assoc]

/-- A closed text needs no gap behind it. -/
theorem andThen (hfirst : Reveals noCharacter first seen)
    (hsecond : Reveals further second others) :
    Reveals further (first ++ second) (seen ++ others) := by
  refine ⟨hfirst.unbroken.append hsecond.unbroken, fun rest hrest ↦ ?_⟩
  rw [String.toList_append, List.append_assoc, hfirst.sees _ fun _ _ ↦ rfl,
    hsecond.sees rest hrest, List.append_assoc]

/-- Digits, marks and blanks are passed over. -/
theorem plain {text : String} (hunbroken : Unbroken text)
    (hplain : ∀ character ∈ text.toList, isPlain character = true) :
    Reveals noCharacter text [] :=
  ⟨hunbroken, fun rest _ ↦ sightings_plains hplain rest⟩

/-- The same of a text that is given. -/
theorem sign {text : String} (hplain : Unbroken text ∧ text.toList.all isPlain = true) :
    Reveals noCharacter text [] :=
  plain hplain.1 (List.all_eq_true.1 hplain.2)

theorem word {word : String}
    (hword : isWord word.toList = true ∧ word.toList.getLast?.any isDigit = false) :
    Reveals isWordPart word [] := by
  refine ⟨unbroken_of_wordPart (wordPart_of_isWord hword.1), fun rest hrest ↦ ?_⟩
  rw [sightings_word hword.1 hrest, hword.2]
  rfl

theorem blank : Reveals noCharacter " " [] := sign (by decide)

theorem keywordBlank {word : String}
    (hword : isWord word.toList = true ∧ word.toList.getLast?.any isDigit = false) :
    Reveals noCharacter (word ++ " ") [] :=
  (Reveals.word hword).append blank (by decide)

theorem terminated (hfirst : Reveals isWordPart first seen) :
    Reveals noCharacter (first ++ ";") seen := by
  have hsemicolon : Reveals noCharacter ";" [] := sign (by decide)
  have hall := hfirst.append hsemicolon (by decide)
  rwa [List.append_nil] at hall

theorem parentheses (hinside : Reveals isWordPart first seen) :
    Reveals noCharacter ("(" ++ first ++ ")") seen := by
  have hopen : Reveals noCharacter "(" [] := sign (by decide)
  have hclose : Reveals noCharacter ")" [] := sign (by decide)
  have hall := (hopen.andThen hinside).append hclose (by decide)
  rwa [List.nil_append, List.append_nil] at hall

/-- A word with a level behind it. -/
theorem tagged {name : String} (hname : isWord name.toList = true) (level : Nat) :
    Reveals isWordPart (tagged name level) [.tagged (tagged name level)] := by
  have hdigits : ∀ digit ∈ (toString level).toList, isDigit digit = true := isDigit_of_mem_toString
  have hword : isWord (Annotate.tagged name level).toList = true := by
    rw [Annotate.tagged, String.toList_append]
    exact isWord_append hname (wordPart_of_digits hdigits)
  have hlast : (Annotate.tagged name level).toList.getLast?.any isDigit = true := by
    have hne := toString_ne_nil level
    rw [Annotate.tagged, String.toList_append, List.getLast?_append_of_ne_nil _ hne,
      List.getLast?_eq_some_getLast hne, Option.any_some]
    exact hdigits _ (List.getLast_mem hne)
  refine ⟨unbroken_of_wordPart (wordPart_of_isWord hword), fun rest hrest ↦ ?_⟩
  rw [sightings_word hword hrest, hlast, String.ofList_toList]
  rfl

theorem reference {name type : String}
    (hname : ∀ character ∈ name.toList, isWordPart character = true)
    (htype : ∀ character ∈ type.toList, isWordPart character = true) :
    Reveals noCharacter ("<" ++ name ++ ":" ++ type ++ ">") [.reference name type] := by
  refine ⟨unbroken_reference hname htype, fun rest _ ↦ ?_⟩
  rw [toList_reference, sightings_reference hname htype, String.ofList_toList,
    String.ofList_toList]
  rfl

theorem closing {name : String} (hname : ∀ character ∈ name.toList, isWordPart character = true) :
    Reveals noCharacter (closing name) [] := by
  constructor
  · have hopening : Unbroken " \x7bEND OF " := by decide
    have hbrace : Unbroken "\x7d" := by decide
    exact (hopening.append (unbroken_of_wordPart hname)).append hbrace
  intro rest _
  have htext : (Annotate.closing name).toList ++ rest =
      ' ' :: '\x7b' :: (("END OF ".toList ++ name.toList) ++ '\x7d' :: rest) := by
    simp only [Annotate.closing, String.toList_append, List.append_assoc]
    rfl
  have hbody : '\x7d' ∉ "END OF ".toList ++ name.toList := by
    rw [List.mem_append, not_or]
    exact ⟨by decide, fun hmem ↦ absurd (hname _ hmem) (by decide)⟩
  rw [htext, sightings_plain (by decide), sightings_comment hbody]
  rfl

/-! ### Constants -/

theorem isPlain_of_digit {character : Char} (hdigit : isDigit character = true) :
    isPlain character = true := by
  have hbrace : character ≠ '\x7b' := by
    rintro rfl
    exact absurd hdigit (by decide)
  have hopen : character ≠ '<' := by
    rintro rfl
    exact absurd hdigit (by decide)
  simp [isPlain, not_letter_of_digit hdigit, hbrace, hopen]

theorem digits {text : String} (hdigits : ∀ c ∈ text.toList, isDigit c = true) :
    Reveals noCharacter text [] :=
  plain (unbroken_of_wordPart (wordPart_of_digits hdigits))
    fun c hmem ↦ isPlain_of_digit (hdigits c hmem)

theorem minus : Reveals noCharacter "-" [] := sign (by decide)

theorem integer (n : Int64) : Reveals noCharacter (Value.integer n).text [] := by
  rw [Value.text]
  cases n.toInt with
  | ofNat number => exact digits isDigit_of_mem_toString
  | negSucc number => exact minus.andThen (digits isDigit_of_mem_toString)

/-- A decimal is digits and a point. -/
theorem layout (decimal : Decimal) : Reveals noCharacter (String.ofList decimal.layout) [] := by
  have hpadded (n places : Nat) :
      ∀ c ∈ List.replicate n '0' ++ Nat.toDigits 10 places, isDigit c = true := by
    rw [List.forall_mem_append]
    refine ⟨fun c hmem ↦ ?_, isDigit_of_mem_toDigits⟩
    rw [List.eq_of_mem_replicate hmem]
    decide
  have hall : ∀ c ∈ decimal.layout, isDigit c = true ∨ c = '.' := by
    intro c hmem
    rcases List.mem_append.1 hmem with hmem | hmem
    · exact .inl (hpadded _ _ c (List.mem_of_mem_take hmem))
    rcases List.mem_cons.1 hmem with rfl | hmem
    · exact .inr rfl
    split at hmem
    · rw [List.mem_singleton.1 hmem]
      exact .inl (by decide)
    · exact .inl (hpadded _ _ c (List.mem_of_mem_drop hmem))
  refine plain ?_ ?_
  · intro c hmem
    rw [String.toList_ofList] at hmem
    rcases hall c hmem with hdigit | rfl
    · exact ne_break_of_wordPart (Bool.or_eq_true_iff.2 (.inr hdigit))
    · decide
  · intro c hmem
    rw [String.toList_ofList] at hmem
    rcases hall c hmem with hdigit | rfl
    · exact isPlain_of_digit hdigit
    · decide

theorem real (r : Float) : Reveals isWordPart (Value.real r).text [] := by
  have hinf : Reveals isWordPart "inf" [] := word (by decide)
  have hnan : Reveals isWordPart "NaN" [] := word (by decide)
  have hsign (negative : Bool) : Reveals noCharacter (if negative then "-" else "") [] := by
    cases negative with
    | true => exact minus
    | false => exact sign (by decide)
  simp only [Value.text, realText]
  split
  · exact hnan
  split
  · exact (hsign _).andThen hinf
  · exact ((hsign _).andThen (layout _)).closed

theorem value (v : Value) : Reveals isWordPart v.text [] := by
  cases v with
  | integer n => exact (integer n).closed
  | real r => exact real r

/-! ### Indented lines -/

theorem indented (hfirst : Reveals prolongs first seen) (depth : Nat) :
    Reveals prolongs (Row.indented depth first) seen := by
  induction depth with
  | zero => exact hfirst
  | succ depth induct => exact (sign (by decide)).andThen induct

theorem line {row : Row} (hrow : Reveals prolongs row.text seen) :
    Reveals prolongs row.line seen := by
  unfold Row.line
  split
  · next hempty => rwa [hempty] at hrow
  · exact hrow.indented row.depth

end Reveals

/-! ### Texts of several lines -/

/-- What is seen in some rows, one row after the other. -/
inductive RowsReveal : List Row → List Sighting → Prop
  | nil : RowsReveal [] []
  | cons {row : Row} {rows : List Row} {seen others : List Sighting} :
      Reveals isWordPart row.text seen → RowsReveal rows others →
        RowsReveal (row :: rows) (seen ++ others)

namespace RowsReveal

variable {rows further : List Row} {seen others : List Sighting}

theorem single (depth : Nat) {text : String} (htext : Reveals isWordPart text seen) :
    RowsReveal [⟨depth, text⟩] seen := by
  have hrows := @RowsReveal.cons ⟨depth, text⟩ [] seen [] htext .nil
  rwa [List.append_nil] at hrows

theorem append (hrows : RowsReveal rows seen) (hfurther : RowsReveal further others) :
    RowsReveal (rows ++ further) (seen ++ others) := by
  induction hrows with
  | nil => exact hfurther
  | cons hrow _ induct =>
    rw [List.append_assoc]
    exact .cons hrow induct

theorem deeper (hrows : RowsReveal rows seen) : RowsReveal (rows.map .deeper) seen := by
  induction hrows with
  | nil => exact .nil
  | cons hrow _ induct => exact .cons hrow induct

theorem unbroken (hrows : RowsReveal rows seen) : UnbrokenRows rows := by
  induction hrows with
  | nil => exact fun row hmem ↦ (List.not_mem_nil hmem).elim
  | cons hrow _ induct =>
    intro row hmem
    rcases List.mem_cons.1 hmem with rfl | hmem
    · exact hrow.unbroken
    · exact induct row hmem

/-- Indentation and line breaks are passed over. -/
theorem sightings_joinLines (hrows : RowsReveal rows seen) {rest : List Char}
    (hrest : Avoids isWordPart rest) :
    sightings ((joinLines (rows.map Row.line)).toList ++ rest) = seen ++ sightings rest := by
  induction hrows with
  | nil => rfl
  | @cons row rows seen others hrow hrows induct =>
    cases rows with
    | nil =>
      cases hrows
      rw [List.append_nil]
      exact hrow.line.sees rest hrest
    | cons second rows =>
      have hbreak : Begins isWordPart "\n" := by decide
      have hplain : ∀ c ∈ "\n".toList, isPlain c = true := List.all_eq_true.1 (by decide)
      have hne : (second :: rows).map Row.line ≠ [] := List.cons_ne_nil _ _
      rw [List.map_cons, joinLines_cons _ hne, String.toList_append,
        String.toList_append, List.append_assoc, List.append_assoc,
        hrow.line.sees _ (hbreak.avoids _), sightings_plains hplain, induct, List.append_assoc]

end RowsReveal

end MiniPascal
