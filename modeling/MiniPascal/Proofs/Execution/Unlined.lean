import MiniPascal.Proofs.Execution.Assignments

/-!
# Lines do not matter to a run

A body that is written on other lines runs in the same way, but for the lines in its faults:
`Program.final_unlined`.
-/

set_option autoImplicit false
set_option relaxedAutoImplicit false

namespace MiniPascal

/-! ### Without lines -/

def Expression.unlined : Expression → Expression
  | .constant value _ => .constant value 0
  | .read mention => .read ⟨mention.name, 0⟩
  | .unary sign operand _ => .unary sign operand.unlined 0
  | .binary operator left right _ => .binary operator left.unlined right.unlined 0

mutual

def Statement.unlined : Statement → Statement
  | .compound inner => .compound (Statement.unlinedAll inner)
  | .assign target value _ => .assign ⟨target.name, 0⟩ value.unlined 0
  | .empty => .empty

def Statement.unlinedAll : List Statement → List Statement
  | [] => []
  | first :: others => first.unlined :: Statement.unlinedAll others

end

def Assignment.unlined (assignment : Assignment) : Assignment :=
  ⟨⟨assignment.target.name, 0⟩, assignment.value.unlined⟩

def RunFault.unlined : RunFault → RunFault
  | .undefinedVariable name _ => .undefinedVariable name 0
  | .divisionByZero _ => .divisionByZero 0
  | .overflow _ => .overflow 0
  | .integerTooLarge _ => .integerTooLarge 0

def Fault.unlined : Fault → Fault
  | .run fault => .run fault.unlined
  | fault => fault

mutual

theorem assignments_unlined (s : Statement) :
    s.unlined.assignments = s.assignments.map Assignment.unlined := by
  cases s with
  | compound inner =>
    rw [Statement.unlined, Statement.assignments, Statement.assignments,
      assignmentsAll_unlined inner]
  | assign target value line => rfl
  | empty => rfl

theorem assignmentsAll_unlined (ss : List Statement) :
    Statement.assignmentsAll (Statement.unlinedAll ss) =
      (Statement.assignmentsAll ss).map Assignment.unlined := by
  cases ss with
  | nil => rfl
  | cons first others =>
    rw [Statement.unlinedAll, Statement.assignmentsAll, Statement.assignmentsAll, List.map_append,
      assignments_unlined first, assignmentsAll_unlined others]

end

/-! ### Operators -/

theorem integerResult_unlined (n : Int) (line : Nat) :
    integerResult n 0 = (integerResult n line).mapError RunFault.unlined := by
  unfold integerResult
  split <;> rfl

theorem Sign.apply_unlined (sign : Sign) (value : Value) (line : Nat) :
    sign.apply value 0 = (sign.apply value line).mapError RunFault.unlined := by
  cases sign with
  | plus => rfl
  | minus =>
    cases value with
    | integer n => exact integerResult_unlined _ line
    | real r => rfl

theorem Operator.applyPromoted_unlined (operator : Operator) (left right : Value) (line : Nat) :
    operator.applyPromoted left right 0 =
      (operator.applyPromoted left right line).mapError RunFault.unlined := by
  unfold applyPromoted promote
  cases left.asReal with
  | none => rfl
  | some first =>
    cases right.asReal with
    | none => rfl
    | some second =>
      simp only [bind, Except.bind]
      split <;> rfl

theorem Operator.apply_unlined (operator : Operator) (left right : Value) (line : Nat) :
    operator.apply left right 0 =
      (operator.apply left right line).mapError RunFault.unlined := by
  unfold apply
  split
  · split
    · split
      · rfl
      · exact integerResult_unlined _ line
    · exact applyPromoted_unlined operator _ _ line
  · exact applyPromoted_unlined operator _ _ line

/-! ### Runs -/

theorem Expression.eval_unlined (store : Store) (e : Expression) :
    e.unlined.eval store = (e.eval store).mapError RunFault.unlined := by
  induction e with
  | constant value line => rfl
  | read mention =>
    rw [unlined, eval, eval]
    cases store.get? mention.name <;> rfl
  | unary sign operand line induct =>
    rw [unlined, eval, eval, induct]
    cases operand.eval store with
    | error fault => rfl
    | ok v => exact sign.apply_unlined v line
  | binary operator left right line inductLeft inductRight =>
    rw [unlined, eval, eval, inductLeft, inductRight]
    cases left.eval store with
    | error fault => rfl
    | ok first =>
      cases right.eval store with
      | error fault => rfl
      | ok second => exact operator.apply_unlined first second line

theorem Store.afterAll_unlined (store : Store) (assignments : List Assignment) :
    store.afterAll (assignments.map Assignment.unlined) =
      (store.afterAll assignments).mapError RunFault.unlined := by
  induction assignments generalizing store with
  | nil => rfl
  | cons first others induct =>
    rw [List.map_cons, afterAll_cons, afterAll_cons, Assignment.unlined,
      Expression.eval_unlined]
    cases first.value.eval store with
    | error fault => rfl
    | ok v => exact induct _

/-- Programs whose bodies differ in lines only have the same outcome, but for lines. -/
theorem Program.final_unlined {p q : Program}
    (hbody : Statement.unlinedAll p.block.body = Statement.unlinedAll q.block.body) :
    p.final.mapError RunFault.unlined = q.final.mapError RunFault.unlined := by
  unfold final
  rw [← Store.afterAll_unlined, ← Store.afterAll_unlined, ← assignmentsAll_unlined, hbody,
    assignmentsAll_unlined]

end MiniPascal
