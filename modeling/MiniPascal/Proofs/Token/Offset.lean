import MiniPascal.Proofs.Token.Calls

/-!
# Reading by byte offsets

`Reader` keeps the whole text, the number of bytes read, the current line and the offset at which
that line starts; it finds a column by taking the bytes from there on and counting their characters.
Bytes that are not whole characters have no column, and `Reader.next?` has no answer there.

`Reader.call?_eq`: this never happens, and the answers are those of `Scanner`, which keeps the
position instead. `Reader.Tracks` is the invariant: the line starts behind a whole number of
characters, and as many stand between it and the next piece as the column says.
-/

set_option autoImplicit false
set_option relaxedAutoImplicit false

namespace MiniPascal

/-! ### Bytes of a text -/

def byteLength (text : List Char) : Nat := (text.map Char.utf8Size).sum

@[simp] theorem byteLength_nil : byteLength [] = 0 := rfl

@[simp] theorem byteLength_cons (first : Char) (others : List Char) :
    byteLength (first :: others) = first.utf8Size + byteLength others := rfl

@[simp] theorem byteLength_append (first second : List Char) :
    byteLength (first ++ second) = byteLength first + byteLength second := by
  simp [byteLength]

/-- A text divided behind some bytes, if they are whole characters of it. -/
def splitBytes? : Nat → List Char → Option (List Char × List Char)
  | 0, text => some ([], text)
  | _ + 1, [] => none
  | count + 1, first :: others =>
    if first.utf8Size ≤ count + 1 then
      (splitBytes? (count + 1 - first.utf8Size) others).map fun (taken, rest) ↦
        (first :: taken, rest)
    else none

/-- The characters between two offsets, if both stand between characters, in this order. -/
def slice? (text : List Char) (start stop : Nat) : Option (List Char) :=
  if start ≤ stop then
    (splitBytes? start text).bind fun (_, behind) ↦
      (splitBytes? (stop - start) behind).map Prod.fst
  else none

/-- The offset of the last line break. -/
def lastBreak? : List Char → Option Nat
  | [] => none
  | first :: others =>
    match lastBreak? others with
    | some offset => some (first.utf8Size + offset)
    | none => if first = '\n' then some 0 else none

theorem splitBytes?_byteLength (taken rest : List Char) :
    splitBytes? (byteLength taken) (taken ++ rest) = some (taken, rest) := by
  induction taken with
  | nil => rw [byteLength_nil, splitBytes?, List.nil_append]
  | cons first others induct =>
    have hpos := first.utf8Size_pos
    obtain ⟨count, hcount⟩ : ∃ count, byteLength (first :: others) = count + 1 :=
      Nat.exists_eq_add_one.2 (by rw [byteLength_cons]; omega)
    have hothers : count + 1 - first.utf8Size = byteLength others := by
      rw [← hcount, byteLength_cons, Nat.add_sub_cancel_left]
    rw [hcount, List.cons_append, splitBytes?, hothers, induct, if_pos]
    · rfl
    · rw [← hcount, byteLength_cons]
      exact Nat.le_add_right ..

theorem slice?_byteLength (before taken rest : List Char) :
    slice? (before ++ (taken ++ rest)) (byteLength before) (byteLength (before ++ taken)) =
      some taken := by
  rw [slice?, byteLength_append, if_pos (Nat.le_add_right ..), splitBytes?_byteLength,
    Option.bind_some, Nat.add_sub_cancel_left]
  simp only [splitBytes?_byteLength, Option.map_some]

theorem lastBreak?_of_unbroken {text : List Char} (hunbroken : '\n' ∉ text) :
    lastBreak? text = none := by
  induction text with
  | nil => rfl
  | cons first others induct =>
    rw [List.mem_cons, not_or] at hunbroken
    rw [lastBreak?, induct hunbroken.2]
    exact if_neg (Ne.symm hunbroken.1)

theorem lastBreak?_append_break (before : List Char) {behind : List Char}
    (hunbroken : '\n' ∉ behind) :
    lastBreak? (before ++ '\n' :: behind) = some (byteLength before) := by
  induction before with
  | nil => rw [List.nil_append, lastBreak?, lastBreak?_of_unbroken hunbroken]; rfl
  | cons first others induct => rw [List.cons_append, lastBreak?, induct]; rfl

/-- A text has no line break, or a last one. -/
theorem unbroken_or_last (text : List Char) :
    '\n' ∉ text ∨ ∃ before behind, text = before ++ '\n' :: behind ∧ '\n' ∉ behind := by
  induction text with
  | nil => exact .inl (by simp)
  | cons first others induct =>
    rcases induct with hunbroken | ⟨before, behind, rfl, hbehind⟩
    · by_cases hfirst : first = '\n'
      · exact .inr ⟨[], others, by rw [hfirst]; rfl, hunbroken⟩
      · exact .inl (by simp [hunbroken, Ne.symm hfirst])
    · exact .inr ⟨first :: before, behind, rfl, hbehind⟩

/-! ### Positions -/

theorem afterText_of_unbroken (position : Position) {text : List Char} (hunbroken : '\n' ∉ text) :
    position.afterText text = ⟨position.line, position.column + text.length⟩ := by
  induction text generalizing position with
  | nil => rfl
  | cons first others induct =>
    rw [List.mem_cons, not_or] at hunbroken
    have hafter : position.after first = ⟨position.line, position.column + 1⟩ :=
      if_neg (Ne.symm hunbroken.1)
    change (position.after first).afterText others = _
    rw [induct _ hunbroken.2, hafter, List.length_cons, Nat.add_assoc, Nat.add_comm 1]

theorem line_afterText (position : Position) (text : List Char) :
    (position.afterText text).line = position.line + text.count '\n' := by
  induction text generalizing position with
  | nil => rfl
  | cons first others induct =>
    change ((position.after first).afterText others).line = _
    rw [induct, Position.after, List.count_cons]
    by_cases hfirst : first = '\n'
    · simp [hfirst]
      omega
    · simp [hfirst]

/-- A line begins behind the last break. -/
theorem afterText_append_break (position : Position) (before : List Char) {behind : List Char}
    (hunbroken : '\n' ∉ behind) :
    position.afterText (before ++ '\n' :: behind) =
      ⟨position.line + (before ++ '\n' :: behind).count '\n', behind.length + 1⟩ := by
  have hcount : (before ++ '\n' :: behind).count '\n' = before.count '\n' + 1 := by
    rw [List.count_append, List.count_cons_self, List.count_eq_zero.2 hunbroken]
  rw [hcount, Position.afterText_append]
  change ((position.afterText before).after '\n').afterText behind = _
  rw [afterText_of_unbroken _ hunbroken, Position.after, if_pos rfl, line_afterText,
    Nat.add_assoc, Nat.add_comm 1]

theorem Spelling.unbroken {taken : List Char} (hspelling : Spelling taken) : '\n' ∉ taken := by
  have hdigits {digits : List Char} (hall : ∀ digit ∈ digits, isDigit digit = true) :
      '\n' ∉ digits := fun hmem ↦ by cases hall _ hmem
  cases hspelling with
  | integer _ hall => exact hdigits hall
  | real _ hwhole hfraction => simp [hdigits hwhole, hdigits hfraction]
  | word hword =>
    intro hmem
    cases wordPart_of_isWord hword _ hmem
  | mark sign => cases sign <;> decide

/-! ### The reader -/

structure Reader where
  source : List Char
  /-- What is left of the source behind the bytes that are read. -/
  rest : List Char
  offset : Nat
  line : Nat
  /-- The offset of the first character of the line. -/
  lineStart : Nat
  deriving DecidableEq, Repr

namespace Reader

def ofText (text : String) : Reader := ⟨text.toList, text.toList, 0, 1, 0⟩

/-- The position at the offset, if the line up to it is made of whole characters. -/
def position? (reader : Reader) : Option Position :=
  (slice? reader.source reader.lineStart reader.offset).map fun before ↦
    ⟨reader.line, before.length + 1⟩

/-- The reader behind a piece, on the same line. -/
def past (reader : Reader) (cut : Cut) : Reader :=
  { reader with rest := cut.rest, offset := reader.offset + byteLength cut.text }

/-- The reader behind a piece between tokens. A comment is searched for its line breaks. -/
def beyond (reader : Reader) (trivia : Trivia) (cut : Cut) : Reader :=
  match trivia with
  | .blanks => reader.past cut
  | .lineBreak =>
    { reader.past cut with line := reader.line + 1, lineStart := (reader.past cut).offset }
  | .comment =>
    match lastBreak? cut.text with
    | none => reader.past cut
    | some last =>
      { reader.past cut with
        line := reader.line + cut.text.count '\n', lineStart := reader.offset + last + 1 }

theorem beyond_rest (reader : Reader) (trivia : Trivia) (cut : Cut) :
    (reader.beyond trivia cut).rest = cut.rest := by
  cases trivia with
  | blanks | lineBreak => rfl
  | comment =>
    rw [beyond]
    simp only
    split <;> rfl

/-- The answer to a piece, if its position can be found, and the reader behind it. -/
def answer? (reader : Reader) (cut : Cut) (answer : Position → Except LexFault Lexeme) :
    Option (Except LexFault Lexeme × Reader) :=
  reader.position?.map fun position ↦ (answer position, reader.past cut)

/-- The next token or fault with the reader behind it, if its position can be found. -/
def next? (reader : Reader) : Option (Except LexFault Lexeme × Reader) :=
  match _htext : reader.rest with
  | [] => reader.position?.map fun position ↦ (.ok ⟨.eof, position⟩, reader)
  | first :: others =>
    match (cut first others).piece with
    | .trivia trivia => next? (reader.beyond trivia (cut first others))
    | .token token => reader.answer? (cut first others) fun position ↦ .ok ⟨token, position⟩
    | .oversized =>
      reader.answer? (cut first others) fun position ↦
        .error (.literalTooLarge (String.ofList (cut first others).text) position.line)
    | .unclosed =>
      reader.answer? (cut first others) fun position ↦ .error (.unterminatedComment position)
    | .invalid =>
      reader.answer? (cut first others) fun position ↦ .error (.invalidCharacter first position)
termination_by reader.rest.length
decreasing_by
  rw [beyond_rest, _htext]
  exact cut_rest_length_lt ..

/-- The answer to a call, the first of which has number zero, if the positions up to it are
found. -/
def call? : Nat → Reader → Option (Except LexFault Lexeme × Reader)
  | 0, reader => reader.next?
  | number + 1, reader => reader.next?.bind fun (_, later) ↦ later.call? number

/-- The line starts behind whole characters, and a scanner stands behind as many more of them as
its column counts. -/
def Tracks (reader : Reader) (scanner : Scanner) : Prop :=
  ∃ earlier current, reader.source = earlier ++ (current ++ reader.rest) ∧
    reader.lineStart = byteLength earlier ∧ reader.offset = byteLength (earlier ++ current) ∧
      scanner = ⟨reader.rest, ⟨reader.line, current.length + 1⟩⟩

theorem tracks_ofText (text : String) : (ofText text).Tracks (Scanner.ofText text) :=
  ⟨[], [], rfl, rfl, rfl, rfl⟩

section Tracks

variable {reader : Reader} {scanner : Scanner}

theorem Tracks.position (htracks : reader.Tracks scanner) :
    reader.position? = some scanner.position := by
  obtain ⟨earlier, current, hsource, hstart, hoffset, rfl⟩ := htracks
  rw [position?, hsource, hstart, hoffset, slice?_byteLength]
  rfl

theorem Tracks.rest (htracks : reader.Tracks scanner) : scanner.rest = reader.rest := by
  obtain ⟨_, _, _, _, _, rfl⟩ := htracks
  rfl

/-- A piece whose characters all count as columns. -/
theorem Tracks.past {cut : Cut} (htracks : reader.Tracks scanner)
    (hrest : cut.text ++ cut.rest = reader.rest) :
    (reader.past cut).Tracks
      ⟨cut.rest, ⟨scanner.position.line, scanner.position.column + cut.text.length⟩⟩ := by
  obtain ⟨earlier, current, hsource, hstart, hoffset, rfl⟩ := htracks
  refine ⟨earlier, current ++ cut.text, ?_, hstart, ?_, ?_⟩
  · rw [List.append_assoc, ← hrest] at *
    exact hsource
  · simp only [Reader.past, hoffset, byteLength_append, Nat.add_assoc]
  · simp only [Reader.past, List.length_append]
    congr 2
    omega

theorem Tracks.past_unbroken {cut : Cut} (htracks : reader.Tracks scanner)
    (hrest : cut.text ++ cut.rest = reader.rest) (hunbroken : '\n' ∉ cut.text) :
    (reader.past cut).Tracks ⟨cut.rest, scanner.position.afterText cut.text⟩ := by
  rw [afterText_of_unbroken _ hunbroken]
  exact htracks.past hrest

/-- A piece between tokens with a line break in it. -/
theorem Tracks.past_break {cut : Cut} {before behind : List Char} (htracks : reader.Tracks scanner)
    (hrest : cut.text ++ cut.rest = reader.rest) (htext : cut.text = before ++ '\n' :: behind)
    (hunbroken : '\n' ∉ behind) :
    Tracks { reader.past cut with
        line := reader.line + cut.text.count '\n',
        lineStart := reader.offset + byteLength before + 1 }
      ⟨cut.rest, scanner.position.afterText cut.text⟩ := by
  obtain ⟨earlier, current, hsource, hstart, hoffset, rfl⟩ := htracks
  refine ⟨earlier ++ (current ++ (before ++ ['\n'])), behind, ?_, ?_, ?_, ?_⟩
  · simp [Reader.past, hsource, ← hrest, htext]
  · simp only [hoffset, byteLength_append, byteLength_cons, byteLength_nil, Nat.add_assoc]
    rfl
  · simp only [Reader.past, hoffset, htext, byteLength_append, byteLength_cons, byteLength_nil,
      Nat.add_assoc, Nat.add_zero]
  · rw [htext, afterText_append_break _ _ hunbroken]
    rfl

end Tracks

/-- Only line breaks and comments have line breaks in them. -/
theorem unbroken_of_leads {piece : Piece} {taken rest : List Char}
    (hleads : piece.Leads taken rest) (hbreak : piece ≠ .trivia .lineBreak)
    (hcomment : piece ≠ .trivia .comment) (hunclosed : piece ≠ .unclosed) : '\n' ∉ taken := by
  cases hleads with
  | blanks _ hrun _ =>
    intro hmem
    cases hrun _ hmem
  | lineBreak => exact absurd rfl hbreak
  | comment _ => exact absurd rfl hcomment
  | token hspells _ => exact hspells.spelling.unbroken
  | oversized hlarge _ => exact hlarge.spelling.unbroken
  | unclosed _ => exact absurd rfl hunclosed
  | invalid hstray => simp [Ne.symm hstray.lineBreak]

theorem Tracks.beyond {reader : Reader} {scanner : Scanner} {trivia : Trivia} {first : Char}
    {others : List Char} (htracks : reader.Tracks scanner) (htext : reader.rest = first :: others)
    (hpiece : (cut first others).piece = .trivia trivia) :
    (reader.beyond trivia (cut first others)).Tracks (scanner.behind (cut first others)) := by
  have hrest : (cut first others).text ++ (cut first others).rest = reader.rest :=
    (cut_text_append_rest first others).trans htext.symm
  have hleads := cut_leads first others
  rw [Scanner.behind, hpiece]
  rw [hpiece] at hleads
  generalize cut first others = found at *
  cases trivia with
  | blanks =>
    exact htracks.past_unbroken hrest (unbroken_of_leads hleads (by simp) (by simp) (by simp))
  | lineBreak =>
    obtain ⟨piece, text, rest⟩ := found
    cases hleads with
    | lineBreak => exact @Tracks.past_break _ _ _ [] [] htracks hrest rfl (by simp)
  | comment =>
    rcases unbroken_or_last found.text with hunbroken | ⟨before, behind, hbreak, hunbroken⟩
    · simp only [Reader.beyond, lastBreak?_of_unbroken hunbroken]
      exact htracks.past_unbroken hrest hunbroken
    · have hlast : lastBreak? found.text = some (byteLength before) := by
        rw [hbreak, lastBreak?_append_break before hunbroken]
      simp only [Reader.beyond, hlast]
      exact htracks.past_break hrest hbreak hunbroken

/-- A piece with an answer is found at its position, and the invariant is kept behind it. -/
theorem Tracks.answer {reader : Reader} {scanner : Scanner} {first : Char} {others : List Char}
    (htracks : reader.Tracks scanner) (htext : reader.rest = first :: others)
    (hpiece : ∀ trivia, (cut first others).piece ≠ .trivia trivia)
    (answer : Position → Except LexFault Lexeme) :
    ∃ later, reader.answer? (cut first others) answer = some (answer scanner.position, later) ∧
      later.Tracks (scanner.behind (cut first others)) := by
  have hrest : (cut first others).text ++ (cut first others).rest = reader.rest :=
    (cut_text_append_rest first others).trans htext.symm
  have hleads := cut_leads first others
  refine ⟨reader.past (cut first others), by rw [answer?, htracks.position]; rfl, ?_⟩
  rw [Scanner.behind]
  split
  · exact htracks.past hrest
  · next hclosed =>
    exact htracks.past_unbroken hrest (unbroken_of_leads hleads (hpiece _) (hpiece _) hclosed)

/-- One call finds the position, gives the same answer and keeps the invariant. -/
theorem Tracks.next {reader : Reader} {scanner : Scanner} (htracks : reader.Tracks scanner) :
    ∃ later, reader.next? = some (scanner.next.1, later) ∧ later.Tracks scanner.next.2 := by
  have hscanner := htracks.rest
  obtain ⟨text, position⟩ := scanner
  simp only at hscanner
  subst hscanner
  fun_induction Reader.next? reader generalizing position with
  | case1 reader htext =>
    rw [htext] at htracks ⊢
    rw [htracks.position, Scanner.next_nil]
    exact ⟨reader, rfl, htracks⟩
  | case2 reader first others htext trivia hpiece induct =>
    have hlater := htracks.beyond htext hpiece
    rw [htext] at hlater ⊢
    rw [Scanner.next]
    simp only [hpiece]
    rw [Scanner.behind, hpiece] at hlater ⊢
    rw [← beyond_rest reader trivia] at hlater ⊢
    exact induct _ hlater
  | case3 reader first others htext token hpiece | case4 reader first others htext hpiece
  | case5 reader first others htext hpiece | case6 reader first others htext hpiece =>
    rw [htext] at htracks ⊢
    rw [Scanner.next]
    simp only [hpiece]
    exact htracks.answer htext (by simp [hpiece]) _

theorem Tracks.call {reader : Reader} {scanner : Scanner} (htracks : reader.Tracks scanner)
    (number : Nat) :
    ∃ later, reader.call? number = some ((scanner.call number).1, later) := by
  induction number generalizing reader scanner with
  | zero =>
    obtain ⟨later, hnext, -⟩ := htracks.next
    exact ⟨later, hnext⟩
  | succ number induct =>
    obtain ⟨later, hnext, hlater⟩ := htracks.next
    rw [call?, hnext]
    exact induct hlater

/-- All columns are found, and the answers are those of the scanner. -/
theorem call?_ofText (text : String) (number : Nat) :
    ((ofText text).call? number).map Prod.fst = some ((Scanner.ofText text).call number).1 := by
  obtain ⟨later, hcall⟩ := (tracks_ofText text).call number
  rw [hcall]
  rfl

end Reader

end MiniPascal
