import MiniPascal.Annotate
import MiniPascal.Check
import MiniPascal.Execution
import MiniPascal.Grammar.Program

/-!
What can be done with the text of a program: check it, run it, or write it annotated.

A report holds the outcome together with the steps recorded on the way. `check` and `annotate`
each resolve names on their own; `run` runs only what `check` accepts.
-/

set_option autoImplicit false
set_option relaxedAutoImplicit false

namespace MiniPascal

structure Report (α : Type) where
  log : List Event
  outcome : Except Fault α

namespace Report

/-- A report on something that took no recorded step. -/
def ofParse {α : Type} (outcome : Except ParseFault α) : Report α :=
  ⟨[], outcome.mapError .parse⟩

/-- A report on a walk that starts with the scalar types alone. -/
def ofWalk {α : Type} (walk : Walk α) : Report α :=
  match walk Walker.start with
  | .ok value walker => ⟨walker.log.toList, .ok value⟩
  | .error fault walker => ⟨walker.log.toList, .error (.scope fault)⟩

/-- A report on a run that starts with an empty store. -/
def ofRun {α : Type} (run : Run α) : Report α :=
  match run Memory.start with
  | .ok value memory => ⟨memory.log.toList, .ok value⟩
  | .error fault memory => ⟨memory.log.toList, .error (.run fault)⟩

/-- Goes on with the outcome, unless it is a fault, and puts the logs together. -/
def andThen {α β : Type} (first : Report α) (next : α → Report β) : Report β :=
  match first.outcome with
  | .ok value => ⟨first.log ++ (next value).log, (next value).outcome⟩
  | .error fault => ⟨first.log, .error fault⟩

end Report

/-- The program in a text, if its names are used correctly. -/
def check (limit : Nat) (text : String) : Report Program :=
  (Report.ofParse (parse limit text)).andThen fun content ↦
    (Report.ofWalk (Check.program content)).andThen fun _ ↦ ⟨[], .ok content⟩

/-- The store that a checked program leaves. -/
def run (limit : Nat) (text : String) : Report Store :=
  (check limit text).andThen fun content ↦ Report.ofRun (Run.program content)

/-- The annotated text of a program. -/
def annotate (limit : Nat) (text : String) : Report String :=
  (Report.ofParse (parse limit text)).andThen fun content ↦ Report.ofWalk (Annotate.program content)

end MiniPascal
