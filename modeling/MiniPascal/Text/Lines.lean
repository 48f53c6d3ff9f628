/-!
Texts as sequences of lines.

`splitLines` ends a line at each line break, together with a carriage return in front of it, and
yields no empty line behind the last break; `splitLinesFrom_append_break` says so of the first
line. `joinLines` puts breaks between lines.
-/

set_option autoImplicit false
set_option relaxedAutoImplicit false

namespace MiniPascal

/-- A line read backwards without a carriage return at its end. -/
def dropReturn : List Char → List Char
  | '\r' :: earlier => earlier
  | line => line

/-- As `splitLines`, with the characters of the current line read before, backwards. -/
def splitLinesFrom : List Char → List Char → List (List Char)
  | [], [] => []
  | line, [] => [line.reverse]
  | line, character :: others =>
    if character = '\n' then (dropReturn line).reverse :: splitLinesFrom [] others
    else splitLinesFrom (character :: line) others

/-- Up to its first line break, a text is one line. -/
theorem splitLinesFrom_append_break (line text others : List Char) (hunbroken : '\n' ∉ text) :
    splitLinesFrom line (text ++ '\n' :: others) =
      (dropReturn (text.reverse ++ line)).reverse :: splitLinesFrom [] others := by
  induction text generalizing line with
  | nil => simp [splitLinesFrom]
  | cons character text induct =>
    rw [List.mem_cons, not_or] at hunbroken
    simp [splitLinesFrom, Ne.symm hunbroken.1, induct _ hunbroken.2]

def splitLines (text : String) : List String :=
  (splitLinesFrom [] text.toList).map String.ofList

def joinLines : List String → String
  | [] => ""
  | [line] => line
  | line :: others => line ++ "\n" ++ joinLines others

/-- One level of indentation. -/
def indentation : String := "   "

/-- Indents every line of a text that is not empty. -/
def indentText (text : String) : String :=
  joinLines ((splitLines text).map fun line ↦ if line.isEmpty then line else indentation ++ line)

end MiniPascal
