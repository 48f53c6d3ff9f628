import MiniPascal.Grammar.Rule
import MiniPascal.Proofs.Script

/-!
# Rules step by step

A rule is known by its result and the cursor that it leaves. A `Routine` is a rule as data, a script
whose requests are accesses to the cursor. Performing a routine is a rule (`Routine.perform`), and
`Routine.Reaches` says by which cursors it comes on the way, and what is still to be done there.

No access fails: where reading goes wrong, the fault is the answer. So a routine may go on behind a
fault (`Script.attempt`), as a nested rule does when it closes its level. For each way to build a
rule there is one to build a routine, and performing carries the one to the other (`perform_bind`,
`perform_nested`, `perform_repeatOn`).
-/

set_option autoImplicit false
set_option relaxedAutoImplicit false

namespace MiniPascal

/-- One access to a cursor. Only two kinds change the depth, and neither looks at it first. -/
inductive Access where
  | look
  | advance
  | raise
  | lower (levels : Nat)

namespace Access

def Answer : Access → Type
  | look => Cursor
  | advance => Except ParseFault Lexeme
  | raise | lower _ => Unit

/-- The answer, and the cursor that the access leaves. -/
def perform : (access : Access) → Cursor → access.Answer × Cursor
  | look, cursor => (cursor, cursor)
  | advance, cursor =>
    match Rule.advance cursor with
    | .ok lexeme later => (.ok lexeme, later)
    | .error fault later => (.error fault, later)
  | raise, cursor => ((), { cursor with depth := cursor.depth + 1 })
  | lower levels, cursor => ((), { cursor with depth := cursor.depth - levels })

/-- The access as a rule, which always succeeds. -/
def rule (access : Access) : Rule access.Answer := fun cursor ↦
  .ok (access.perform cursor).1 (access.perform cursor).2

end Access

abbrev Routine : Type → Type := Script Access Access.Answer ParseFault

namespace Routine

variable {α β : Type}

def perform (routine : Routine α) : Rule α := Script.perform Access.rule routine

/-- On its way from one cursor the routine comes by another, where the rest is still to be done. -/
def Reaches (routine : Routine α) (cursor : Cursor) (rest : Routine α) (moment : Cursor) : Prop :=
  Script.Reaches Access.rule routine cursor rest moment

theorem reaches_of_ok {routine : Routine α} {cursor later : Cursor} {value : α}
    (hok : routine.perform cursor = .ok value later) :
    routine.Reaches cursor (.done (.ok value)) later :=
  Script.reaches_of_ok hok

theorem reaches_of_error {routine : Routine α} {cursor later : Cursor} {fault : ParseFault}
    (herror : routine.perform cursor = .error fault later) :
    routine.Reaches cursor (.done (.error fault)) later := by
  rcases Script.reaches_of_error herror with hend | ⟨access, next, moment, -, hfails⟩
  · exact hend
  · cases hfails

@[simp] theorem perform_pure (value : α) : (pure value : Routine α).perform = pure value := rfl

@[simp] theorem perform_bind (first : Routine α) (second : α → Routine β) :
    (first >>= second).perform = first.perform >>= fun value ↦ (second value).perform :=
  Script.perform_bind first second

/-! ### Tokens -/

def peek : Routine Token := .step .look fun cursor ↦ pure cursor.current.token

def currentLine : Routine Nat := .step .look fun cursor ↦ pure cursor.current.position.line

def advance : Routine Lexeme := .step .advance .done

def unexpected (expected : Expectation) : Routine α :=
  .step .look fun cursor ↦
    .done (.error (.unexpected expected cursor.current.token cursor.current.position.line))

def expect (kind : Token.Kind) : Routine Lexeme := do
  if (← peek).kind = kind then advance else unexpected (.token kind)

def identifier : Routine (String × Nat) := do
  match ← peek with
  | .identifier name => return (name, (← advance).position.line)
  | _ => unexpected (.token .identifier)

@[simp] theorem perform_peek : peek.perform = Rule.peek := rfl

@[simp] theorem perform_currentLine : currentLine.perform = Rule.currentLine := rfl

@[simp] theorem perform_advance : advance.perform = Rule.advance := by
  funext cursor
  change Script.perform Access.rule (.done (Access.advance.perform cursor).1)
    (Access.advance.perform cursor).2 = _
  simp only [Access.perform]
  cases Rule.advance cursor <;> rfl

@[simp] theorem perform_unexpected (expected : Expectation) :
    (unexpected expected : Routine α).perform = Rule.unexpected expected := rfl

@[simp] theorem perform_expect (kind : Token.Kind) : (expect kind).perform = Rule.expect kind := by
  rw [expect, perform_bind, perform_peek, Rule.expect]
  refine congrArg _ (funext fun token ↦ ?_)
  split
  · exact perform_advance
  · exact perform_unexpected _

@[simp] theorem perform_identifier : identifier.perform = Rule.identifier := by
  rw [identifier, perform_bind, perform_peek, Rule.identifier]
  refine congrArg _ (funext fun token ↦ ?_)
  cases token with
  | identifier name => simp
  | keyword | mark | integer | real | eof => exact perform_unexpected _

/-! ### Levels -/

def tooDeep (limit : Nat) : Routine α :=
  .step .look fun cursor ↦ .done (.error (.tooDeep limit cursor.current.position.line))

def descend (limit : Nat) : Routine Unit :=
  .step .look fun cursor ↦
    if limit ≤ cursor.depth then tooDeep limit else .step .raise fun _ ↦ pure ()

def ascend (levels : Nat) : Routine Unit := .step (.lower levels) fun _ ↦ pure ()

def nested (limit : Nat) (rule : Routine α) : Routine α := do
  descend limit
  rule.attempt fun outcome ↦ .step (.lower 1) fun _ ↦ .done outcome

@[simp] theorem perform_tooDeep (limit : Nat) :
    (tooDeep limit : Routine α).perform = Rule.tooDeep limit := rfl

@[simp] theorem perform_descend (limit : Nat) : (descend limit).perform = Rule.descend limit := by
  funext cursor
  change Routine.perform
    (if limit ≤ cursor.depth then tooDeep limit else .step .raise fun _ ↦ pure ()) cursor = _
  rw [Rule.descend]
  split <;> rfl

@[simp] theorem perform_ascend (levels : Nat) : (ascend levels).perform = Rule.ascend levels := rfl

@[simp] theorem perform_nested (limit : Nat) (rule : Routine α) :
    (nested limit rule).perform = Rule.nested limit rule.perform := by
  rw [nested, perform_bind, perform_descend, Rule.nested]
  refine congrArg _ (funext fun _ ↦ funext fun cursor ↦ ?_)
  cases hrule : rule.perform cursor with
  | ok value later => exact Script.perform_attempt (reaches_of_ok hrule) _
  | error fault later => exact Script.perform_attempt (reaches_of_error hrule) _

/-! ### Repetition -/

def repeatAtMost (select : Token → Option β) (item : β → Routine α) :
    List Lexeme → List α → Routine (List α)
  | [], found => return found.reverse
  | _ :: bound, found => do
    match select (← peek) with
    | none => return found.reverse
    | some choice => repeatAtMost select item bound ((← item choice) :: found)

def repeatOn (select : Token → Option β) (item : β → Routine α) : Routine (List α) :=
  .step .look fun cursor ↦ repeatAtMost select item (cursor.current :: cursor.upcoming) []

def separated (separator : Token.Kind) (item : Routine α) : Routine (List α) := do
  let first ← item
  let others ← repeatOn (Rule.onKind separator) fun _ ↦ do
    let _ ← advance
    item
  return first :: others

@[simp] theorem perform_repeatAtMost (select : Token → Option β) (item : β → Routine α)
    (bound : List Lexeme) (found : List α) :
    (repeatAtMost select item bound found).perform =
      Rule.repeatAtMost select (fun choice ↦ (item choice).perform) bound found := by
  induction bound generalizing found with
  | nil => rfl
  | cons lexeme bound induct =>
    rw [repeatAtMost, perform_bind, perform_peek, Rule.repeatAtMost]
    refine congrArg _ (funext fun token ↦ ?_)
    cases select token with
    | none => rfl
    | some choice => simp only [perform_bind, induct]

@[simp] theorem perform_repeatOn (select : Token → Option β) (item : β → Routine α) :
    (repeatOn select item).perform =
      Rule.repeatOn select fun choice ↦ (item choice).perform := by
  funext cursor
  exact congrFun (perform_repeatAtMost select item (cursor.current :: cursor.upcoming) []) cursor

@[simp] theorem perform_separated (separator : Token.Kind) (item : Routine α) :
    (separated separator item).perform = Rule.separated separator item.perform := by
  simp only [separated, perform_bind, perform_repeatOn, perform_advance, perform_pure,
    Rule.separated]

end Routine

end MiniPascal
