import MiniPascal.Grammar.Block

/-!
Reading the text of a program.

```text
program := PROGRAM identifier ";" block "." (end of the text)
```

`parse` draws the lexemes of a text and applies the rule to them. It fails with the first fault that
the rule meets, be it lexical or grammatical.
-/

set_option autoImplicit false
set_option relaxedAutoImplicit false

namespace MiniPascal

def Rule.program (limit : Nat) : Rule Program := do
  let line := (← expect (.keyword .program)).position.line
  let name := (← mention).name
  let _ ← expect (.mark .semicolon)
  let content ← block limit limit
  let _ ← expect (.mark .dot)
  let _ ← expect .eof
  return ⟨name, line, content⟩

/-- Reads a text as a program that opens at most `limit` levels of nesting at once. -/
def parse (limit : Nat) (text : String) : Except ParseFault Program :=
  match Cursor.ofFeed (Feed.ofText text) with
  | .error fault => .error (.lexical fault)
  | .ok cursor =>
    match Rule.program limit cursor with
    | .ok content _ => .ok content
    | .error fault _ => .error fault

/-- The nesting limit used unless another is given. -/
def defaultLimit : Nat := 256

end MiniPascal
