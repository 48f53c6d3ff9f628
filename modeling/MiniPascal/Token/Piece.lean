import MiniPascal.Token

/-!
Cutting one piece off the front of a text.

Every nonempty text begins with exactly one piece: a token, something to skip, or something that is
neither. `cut` takes the longest piece that its first characters allow. `cut_text_append_rest` says
that it neither adds nor drops a character, and `cut_text_ne_nil` that it always takes one.
-/

set_option autoImplicit false
set_option relaxedAutoImplicit false

namespace MiniPascal

/-- Pieces that stand between tokens. -/
inductive Trivia where
  | blanks
  | lineBreak
  | comment
  deriving DecidableEq, Repr

def Trivia.text : Trivia → String
  | .blanks => "whitespace"
  | .lineBreak => "line break"
  | .comment => "comment"

inductive Piece where
  | trivia (trivia : Trivia)
  | token (token : Token)
  /-- Digits whose number is out of range. -/
  | oversized
  /-- A comment without its closing brace, which takes the rest of the text. -/
  | unclosed
  /-- A character that begins nothing else. -/
  | invalid
  deriving DecidableEq, Repr

/-- A text divided into its first piece and what follows it. -/
structure Cut where
  piece : Piece
  text : List Char
  rest : List Char
  deriving DecidableEq, Repr

def isBlank (character : Char) : Bool :=
  character == ' ' || character == '\t' || character == '\r' || character == '\x0c'

def isDigit (character : Char) : Bool := decide ('0' ≤ character ∧ character ≤ '9')

def isLetter (character : Char) : Bool :=
  decide ('a' ≤ character ∧ character ≤ 'z') || decide ('A' ≤ character ∧ character ≤ 'Z') ||
    character == '_'

def isWordPart (character : Char) : Bool := isLetter character || isDigit character

/-- The word in lower case, letters outside `A` to `Z` kept. -/
def foldCase (word : List Char) : String := String.ofList (word.map Char.toLower)

namespace Cut

/-- The longest run of characters of one class. -/
def run (member : Char → Bool) (piece : List Char → Piece) (text : List Char) : Cut :=
  let taken := text.takeWhile member
  ⟨piece taken, taken, text.dropWhile member⟩

/-- A run of digits, and a point behind it with a possibly empty run of further digits. -/
def number (text : List Char) : Cut :=
  let whole := text.takeWhile isDigit
  match text.dropWhile isDigit with
  | '.' :: others =>
    let fraction := others.takeWhile isDigit
    let piece := match readReal whole fraction with
      | some r => .token (.real r)
      | none => .oversized
    ⟨piece, whole ++ '.' :: fraction, others.dropWhile isDigit⟩
  | rest =>
    let piece := match readInteger whole with
      | some n => .token (.integer n)
      | none => .oversized
    ⟨piece, whole, rest⟩

/-- A comment, given the text behind its opening brace. -/
def comment (inside : List Char) : Cut :=
  let body := inside.takeWhile (· != '\x7d')
  match inside.dropWhile (· != '\x7d') with
  | closing :: rest => ⟨.trivia .comment, '\x7b' :: (body ++ [closing]), rest⟩
  | [] => ⟨.unclosed, '\x7b' :: body, []⟩

/-- One character that is a piece of its own. -/
def single (piece : Piece) (first : Char) (others : List Char) : Cut := ⟨piece, [first], others⟩

/-- A mark of two characters where there is one, else of one, else an invalid character. -/
def mark (first : Char) (others : List Char) : Cut :=
  match first, others with
  | ':', '=' :: rest => ⟨.token (.mark .assign), [':', '='], rest⟩
  | '/', '/' :: rest => ⟨.token (.mark .doubleSlash), ['/', '/'], rest⟩
  | '+', rest => single (.token (.mark .plus)) '+' rest
  | '-', rest => single (.token (.mark .minus)) '-' rest
  | '*', rest => single (.token (.mark .star)) '*' rest
  | '/', rest => single (.token (.mark .slash)) '/' rest
  | '(', rest => single (.token (.mark .leftParen)) '(' rest
  | ')', rest => single (.token (.mark .rightParen)) ')' rest
  | ':', rest => single (.token (.mark .colon)) ':' rest
  | ',', rest => single (.token (.mark .comma)) ',' rest
  | ';', rest => single (.token (.mark .semicolon)) ';' rest
  | '.', rest => single (.token (.mark .dot)) '.' rest
  | other, rest => single .invalid other rest

end Cut

/-- The first piece of the text `first :: others`. -/
def cut (first : Char) (others : List Char) : Cut :=
  if isBlank first then Cut.run isBlank (fun _ ↦ .trivia .blanks) (first :: others)
  else if first == '\n' then Cut.single (.trivia .lineBreak) first others
  else if first == '\x7b' then Cut.comment others
  else if isDigit first then Cut.number (first :: others)
  else if isLetter first then
    Cut.run isWordPart (fun word ↦ .token (Token.ofWord (foldCase word))) (first :: others)
  else Cut.mark first others

theorem Cut.run_text_append_rest (member : Char → Bool) (piece : List Char → Piece)
    (text : List Char) : (run member piece text).text ++ (run member piece text).rest = text := by
  simp [run]

theorem Cut.number_text_append_rest (text : List Char) :
    (number text).text ++ (number text).rest = text := by
  have hsplit := List.takeWhile_append_dropWhile (p := isDigit) (l := text)
  unfold number
  split
  · next others hfound =>
    rw [hfound] at hsplit
    simpa using hsplit
  · exact hsplit

theorem Cut.comment_text_append_rest (inside : List Char) :
    (comment inside).text ++ (comment inside).rest = '\x7b' :: inside := by
  have hsplit := List.takeWhile_append_dropWhile (p := (· != '\x7d')) (l := inside)
  unfold comment
  split
  · next closing rest hfound =>
    rw [hfound] at hsplit
    simpa using hsplit
  · next hfound =>
    rw [hfound] at hsplit
    simpa using hsplit

theorem Cut.mark_text_append_rest (first : Char) (others : List Char) :
    (mark first others).text ++ (mark first others).rest = first :: others := by
  unfold mark
  split <;> rfl

theorem cut_text_append_rest (first : Char) (others : List Char) :
    (cut first others).text ++ (cut first others).rest = first :: others := by
  unfold cut
  split
  · exact Cut.run_text_append_rest ..
  split
  · rfl
  split
  · next hopening =>
    rw [Cut.comment_text_append_rest, eq_of_beq hopening]
  split
  · exact Cut.number_text_append_rest _
  split
  · exact Cut.run_text_append_rest ..
  · exact Cut.mark_text_append_rest ..

theorem cut_text_ne_nil (first : Char) (others : List Char) : (cut first others).text ≠ [] := by
  unfold cut
  split
  · next hblank => simp [Cut.run, hblank]
  split
  · simp [Cut.single]
  split
  · unfold Cut.comment
    split <;> simp
  split
  · next hdigit =>
    unfold Cut.number
    split <;> simp [hdigit]
  split
  · next hletter => simp [Cut.run, isWordPart, hletter]
  · unfold Cut.mark
    split <;> simp [Cut.single]

/-- A cut makes the text shorter. -/
theorem cut_rest_length_lt (first : Char) (others : List Char) :
    (cut first others).rest.length < (first :: others).length := by
  have hwhole := congrArg List.length (cut_text_append_rest first others)
  have htaken := List.length_pos_iff.2 (cut_text_ne_nil first others)
  rw [List.length_append] at hwhole
  omega

end MiniPascal
