import MiniPascal.Fault
import MiniPascal.Token.Piece

/-!
Reading tokens off a text, one by one.

A scanner stands at a position and holds the text from there on. `Scanner.next` skips trivia and
takes one token or one fault; at the end it answers with `Token.eof` for ever. After a fault it goes
on behind the offending piece. `Scanner.all` reads up to the end or the first fault.

`Scanner.next_rest` says that a step answers with the end or consumes a character, and
`Scanner.next_nil` that the end is never left.
-/

set_option autoImplicit false
set_option relaxedAutoImplicit false

namespace MiniPascal

/-- A token together with where it starts. -/
structure Lexeme where
  token : Token
  position : Position
  deriving DecidableEq, Repr

structure Scanner where
  rest : List Char
  position : Position
  deriving DecidableEq, Repr

namespace Scanner

def ofText (text : String) : Scanner := ⟨text.toList, Position.start⟩

/-- The scanner behind a piece. Line breaks count wherever they stand, except in an unclosed
comment, whose characters all count as columns. -/
def behind (scanner : Scanner) (cut : Cut) : Scanner :=
  match cut.piece with
  | .unclosed =>
    ⟨cut.rest, ⟨scanner.position.line, scanner.position.column + cut.text.length⟩⟩
  | _ => ⟨cut.rest, scanner.position.afterText cut.text⟩

theorem behind_rest (scanner : Scanner) (cut : Cut) : (scanner.behind cut).rest = cut.rest := by
  unfold behind
  split <;> rfl

/-- The next token or fault, and the scanner behind it. -/
def next : Scanner → Except LexFault Lexeme × Scanner
  | ⟨[], position⟩ => (.ok ⟨.eof, position⟩, ⟨[], position⟩)
  | ⟨first :: others, position⟩ =>
    let piece := cut first others
    let later := behind ⟨first :: others, position⟩ piece
    match piece.piece with
    | .trivia _ => next later
    | .token token => (.ok ⟨token, position⟩, later)
    | .oversized => (.error (.literalTooLarge (String.ofList piece.text) position.line), later)
    | .unclosed => (.error (.unterminatedComment position), later)
    | .invalid => (.error (.invalidCharacter first position), later)
termination_by scanner => scanner.rest.length
decreasing_by
  rw [behind_rest]
  exact cut_rest_length_lt ..

theorem next_nil (position : Position) :
    next ⟨[], position⟩ = (.ok ⟨.eof, position⟩, ⟨[], position⟩) := by
  rw [next]

/-- A step answers with the end, standing there, or it shortens the text. -/
theorem next_rest (scanner : Scanner) :
    (∃ position, scanner.next = (.ok ⟨.eof, position⟩, ⟨[], position⟩)) ∨
      scanner.next.2.rest.length < scanner.rest.length := by
  fun_induction next scanner with
  | case1 position => exact .inl ⟨position, rfl⟩
  | case2 first others position piece later _ _ induct =>
    have hshorter : later.rest.length < (first :: others).length := by
      rw [behind_rest]
      exact cut_rest_length_lt ..
    exact induct.imp id (fun hfurther ↦ Nat.lt_trans hfurther hshorter)
  | case3 first others | case4 first others | case5 first others | case6 first others =>
    refine .inr ?_
    rw [behind_rest]
    exact cut_rest_length_lt ..

theorem next_rest_length_lt {scanner later : Scanner} {lexeme : Lexeme}
    (hanswer : scanner.next = (.ok lexeme, later)) (hgoing : lexeme.token ≠ .eof) :
    later.rest.length < scanner.rest.length := by
  obtain ⟨position, hended⟩ | hshorter := scanner.next_rest
  · rw [hended] at hanswer
    cases hanswer
    exact absurd rfl hgoing
  · rwa [hanswer] at hshorter

/-- The tokens up to the end, which is the last of them, or the first fault. -/
def all (scanner : Scanner) : Except LexFault (List Lexeme) :=
  match _hanswer : scanner.next with
  | (.error fault, _) => .error fault
  | (.ok lexeme, later) =>
    if _hgoing : lexeme.token = .eof then .ok [lexeme] else later.all.map (lexeme :: ·)
termination_by scanner.rest.length
decreasing_by exact next_rest_length_lt _hanswer _hgoing

/-- The answers of `count` steps. -/
def steps : Nat → Scanner → List (Except LexFault Lexeme)
  | 0, _ => []
  | count + 1, scanner => scanner.next.1 :: steps count scanner.next.2

end Scanner

/-- The tokens of a text, the last of them the end, or the first fault. -/
def tokenize (text : String) : Except LexFault (List Lexeme) := (Scanner.ofText text).all

end MiniPascal
