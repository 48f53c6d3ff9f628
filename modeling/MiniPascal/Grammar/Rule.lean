import MiniPascal.Token.Scanner

/-!
Grammar rules and the cursor on which they act.

A cursor looks at one token at a time. The lexemes behind it are drawn from a scanner beforehand
(`Feed`), up to the end of the text or a fault, which surfaces only when a rule reaches it. The
cursor also counts the levels of nesting that are open: `descend` refuses to pass the limit, and
`nested` runs a rule one level deeper.

A rule that fails leaves the cursor where it failed. `repeatOn` is the only loop.
-/

set_option autoImplicit false
set_option relaxedAutoImplicit false

namespace MiniPascal

/-- How the lexemes of a text end. -/
inductive Ending where
  | eof (position : Position)
  | broken (fault : LexFault)
  deriving DecidableEq, Repr

/-- The lexemes of a text before its end or its first fault. -/
structure Feed where
  lexemes : List Lexeme
  ending : Ending
  deriving DecidableEq, Repr

namespace Feed

/-- All that a scanner has to offer. -/
def ofScanner (scanner : Scanner) : Feed :=
  match _hanswer : scanner.next with
  | (.error fault, _) => ⟨[], .broken fault⟩
  | (.ok lexeme, later) =>
    if _hgoing : lexeme.token = .eof then ⟨[], .eof lexeme.position⟩
    else
      let feed := ofScanner later
      ⟨lexeme :: feed.lexemes, feed.ending⟩
termination_by scanner.rest.length
decreasing_by exact Scanner.next_rest_length_lt _hanswer _hgoing

def ofText (text : String) : Feed := ofScanner (Scanner.ofText text)

end Feed

structure Cursor where
  current : Lexeme
  upcoming : List Lexeme
  ending : Ending
  /-- Levels of nesting open at the current token. -/
  depth : Nat
  deriving DecidableEq, Repr

/-- A cursor on the first token of a feed. -/
def Cursor.ofFeed (feed : Feed) : Except LexFault Cursor :=
  match feed.lexemes, feed.ending with
  | first :: later, ending => .ok ⟨first, later, ending, 0⟩
  | [], .eof position => .ok ⟨⟨.eof, position⟩, [], .eof position, 0⟩
  | [], .broken fault => .error fault

/-- A grammar rule: it consumes tokens and yields a part of a program, or fails. -/
abbrev Rule (α : Type) := EStateM ParseFault Cursor α

namespace Rule

/-- The current token. -/
def peek : Rule Token := fun cursor ↦ .ok cursor.current.token cursor

/-- The line of the current token. -/
def currentLine : Rule Nat := fun cursor ↦ .ok cursor.current.position.line cursor

/-- Consumes the current token and returns it. At the end, the end stays current. -/
def advance : Rule Lexeme := fun cursor ↦
  match cursor.upcoming, cursor.ending with
  | next :: later, _ => .ok cursor.current { cursor with current := next, upcoming := later }
  | [], .eof position => .ok cursor.current { cursor with current := ⟨.eof, position⟩ }
  | [], .broken fault => .error (.lexical fault) cursor

/-- Fails because the current token is not what the grammar asks for. -/
def unexpected {α : Type} (expected : Expectation) : Rule α := fun cursor ↦
  .error (.unexpected expected cursor.current.token cursor.current.position.line) cursor

/-- Consumes a token of one kind. -/
def expect (kind : Token.Kind) : Rule Lexeme := do
  if (← peek).kind = kind then advance else unexpected (.token kind)

/-- Consumes an identifier. -/
def identifier : Rule (String × Nat) := do
  match ← peek with
  | .identifier name => return (name, (← advance).position.line)
  | _ => unexpected (.token .identifier)

/-! ### Nesting -/

/-- Fails because the current token would open a level beyond the limit. -/
def tooDeep {α : Type} (limit : Nat) : Rule α := fun cursor ↦
  .error (.tooDeep limit cursor.current.position.line) cursor

/-- Opens a level. -/
def descend (limit : Nat) : Rule Unit := fun cursor ↦
  if limit ≤ cursor.depth then tooDeep limit cursor
  else .ok () { cursor with depth := cursor.depth + 1 }

/-- Closes levels. -/
def ascend (levels : Nat) : Rule Unit := fun cursor ↦
  .ok () { cursor with depth := cursor.depth - levels }

/-- Runs a rule one level deeper, and closes that level whether or not the rule succeeds. -/
def nested {α : Type} (limit : Nat) (rule : Rule α) : Rule α := do
  descend limit
  fun cursor ↦
    match rule cursor with
    | .ok value later => .ok value { later with depth := later.depth - 1 }
    | .error fault later => .error fault { later with depth := later.depth - 1 }

/-! ### Repetition -/

/-- As `repeatOn`, at most once for each lexeme of a list, behind items already read. -/
def repeatAtMost {α β : Type} (select : Token → Option β) (item : β → Rule α) :
    List Lexeme → List α → Rule (List α)
  | [], done => return done.reverse
  | _ :: bound, done => do
    match select (← peek) with
    | none => return done.reverse
    | some choice => repeatAtMost select item bound ((← item choice) :: done)

/-- Reads items as long as the current token selects one. Each item has to consume a token, so there
are at most as many as lexemes in sight. -/
def repeatOn {α β : Type} (select : Token → Option β) (item : β → Rule α) : Rule (List α) :=
  fun cursor ↦ repeatAtMost select item (cursor.current :: cursor.upcoming) [] cursor

/-- Selects on the tokens of one kind. -/
def onKind (kind : Token.Kind) (token : Token) : Option Unit :=
  if token.kind = kind then some () else none

/-- Reads one item and then, behind each token of the separating kind, another. -/
def separated {α : Type} (separator : Token.Kind) (item : Rule α) : Rule (List α) := do
  let first ← item
  let others ← repeatOn (onKind separator) fun _ ↦ do
    let _ ← advance
    item
  return first :: others

end Rule

end MiniPascal
