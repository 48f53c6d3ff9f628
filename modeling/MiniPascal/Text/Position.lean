/-!
Positions in a text: the line and the column of a character, both counted from one.

A line break, and nothing else, begins a new line; columns count characters. `afterText_append`
says that walking over two texts in turn is walking over their concatenation.
-/

set_option autoImplicit false
set_option relaxedAutoImplicit false

namespace MiniPascal

/-- A place in a text, where its next character would stand. -/
structure Position where
  line : Nat
  column : Nat
  deriving DecidableEq, Repr, Inhabited

namespace Position

def start : Position := ⟨1, 1⟩

/-- The position behind one character. -/
def after (position : Position) (character : Char) : Position :=
  if character = '\n' then ⟨position.line + 1, 1⟩ else ⟨position.line, position.column + 1⟩

/-- The position behind a text. -/
def afterText (position : Position) (text : List Char) : Position :=
  text.foldl after position

@[simp] theorem afterText_nil (position : Position) : position.afterText [] = position := rfl

theorem afterText_append (position : Position) (first second : List Char) :
    position.afterText (first ++ second) = (position.afterText first).afterText second := by
  simp [afterText]

end Position

end MiniPascal
