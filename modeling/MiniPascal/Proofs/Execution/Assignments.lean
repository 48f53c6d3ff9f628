import MiniPascal.Proofs.Action
import MiniPascal.Proofs.Execution.Ordered
import MiniPascal.Proofs.Scope.Environment
import MiniPascal.Report

/-!
# A run is its assignments in order

Compound statements only group assignments, so a body is a list of them
(`Statement.assignmentsAll`), and running it makes one store of another, assignment after
assignment: `outcome_program`. The store holds the targets of the assignments, in order
(`Program.final_names`), and a variable without a value is one that the expression reads
(`Expression.mem_mentions_of_undefined`).
-/

set_option autoImplicit false
set_option relaxedAutoImplicit false

namespace MiniPascal

/-! ### The assignments of a body -/

structure Assignment where
  target : Mention
  value : Expression
  deriving DecidableEq, Repr

def Assignment.mentions (assignment : Assignment) : List Mention :=
  assignment.target :: assignment.value.mentions

/-- The names that are written by some assignments. -/
def assignedNames (assignments : List Assignment) : List String :=
  assignments.map (·.target.name)

/-- The names that occur in the values of some assignments. -/
def readNames (assignments : List Assignment) : List String :=
  assignments.flatMap fun assignment ↦ assignment.value.mentions.map (·.name)

mutual

def Statement.assignments : Statement → List Assignment
  | .compound inner => Statement.assignmentsAll inner
  | .assign target value _ => [⟨target, value⟩]
  | .empty => []

def Statement.assignmentsAll : List Statement → List Assignment
  | [] => []
  | first :: others => first.assignments ++ Statement.assignmentsAll others

end

mutual

theorem mentions_eq (s : Statement) : s.mentions = s.assignments.flatMap Assignment.mentions := by
  cases s with
  | compound inner =>
    rw [Statement.mentions, Statement.assignments, mentionsAll_eq inner]
  | assign target value line => exact (List.flatMap_singleton ..).symm
  | empty => rfl

/-- The names in a body are those in its assignments. -/
theorem mentionsAll_eq (ss : List Statement) :
    Statement.mentionsAll ss = (Statement.assignmentsAll ss).flatMap Assignment.mentions := by
  cases ss with
  | nil => rfl
  | cons first others =>
    rw [Statement.mentionsAll, Statement.assignmentsAll, List.flatMap_append, mentions_eq first,
      mentionsAll_eq others]

end

/-! ### Stores from stores -/

/-- The store behind an assignment. -/
def Store.after (store : Store) (assignment : Assignment) : Except RunFault Store := do
  return store.insert assignment.target.name (← assignment.value.eval store)

/-- The store behind some assignments. -/
def Store.afterAll (store : Store) (assignments : List Assignment) : Except RunFault Store :=
  assignments.foldlM Store.after store

/-- The store behind the body of a program. -/
def Program.final (p : Program) : Except RunFault Store :=
  Store.afterAll Table.empty (Statement.assignmentsAll p.block.body)

theorem Store.afterAll_append (store : Store) (first second : List Assignment) :
    store.afterAll (first ++ second) = store.afterAll first >>= (·.afterAll second) :=
  List.foldlM_append

theorem Store.afterAll_cons (store : Store) (first : Assignment) (others : List Assignment) :
    store.afterAll (first :: others) = first.value.eval store >>= fun v ↦
      Store.afterAll (store.insert first.target.name v) others := by
  unfold Store.afterAll Store.after
  rw [List.foldlM_cons, bind_assoc]
  rfl

/-- The run makes one store of another as the function does, whatever the log. -/
def Leaves (run : Run Unit) (effect : Store → Except RunFault Store) : Prop :=
  ∀ memory, (∃ later, run memory = .ok () later ∧ effect memory.store = .ok later.store) ∨
    ∃ fault later, run memory = .error fault later ∧ effect memory.store = .error fault

namespace Leaves

variable {first second : Run Unit} {effect effect' : Store → Except RunFault Store}

theorem pure : Leaves (Pure.pure ()) .ok := fun memory ↦ .inl ⟨memory, rfl, rfl⟩

theorem bind (hfirst : Leaves first effect) (hsecond : Leaves second effect') :
    Leaves (first >>= fun _ ↦ second) (fun store ↦ effect store >>= effect') := by
  intro memory
  rcases hfirst memory with ⟨later, hrun, heffect⟩ | ⟨fault, later, hrun, heffect⟩
  · rw [bind_of_ok hrun]
    simp only [heffect]
    exact hsecond later
  · refine .inr ⟨fault, later, bind_of_error hrun, ?_⟩
    simp only [heffect]
    rfl

end Leaves

theorem leaves_assign (target : Mention) (value : Expression) :
    Leaves (do Run.assign target.name (← Run.evaluate value)) (Store.after · ⟨target, value⟩) := by
  intro memory
  unfold Store.after
  cases heval : value.eval memory.store with
  | ok v =>
    have hrun : Run.evaluate value memory = .ok v memory := by rw [Run.evaluate, heval]
    refine .inl ⟨_, bind_of_ok hrun, ?_⟩
    simp only [heval]
    rfl
  | error fault =>
    have hrun : Run.evaluate value memory = .error fault memory := by rw [Run.evaluate, heval]
    refine .inr ⟨fault, memory, bind_of_error hrun, ?_⟩
    simp only [heval]
    rfl

mutual

theorem leaves_statement (s : Statement) :
    Leaves (Run.statement s) (Store.afterAll · s.assignments) := by
  cases s with
  | compound inner =>
    rw [Run.statement, Statement.assignments]
    exact leaves_statements inner
  | assign target value line =>
    rw [Run.statement, Statement.assignments]
    simpa [Store.afterAll] using leaves_assign target value
  | empty =>
    rw [Run.statement]
    exact Leaves.pure

theorem leaves_statements (ss : List Statement) :
    Leaves (Run.statements ss) (Store.afterAll · (Statement.assignmentsAll ss)) := by
  cases ss with
  | nil =>
    rw [Run.statements]
    exact Leaves.pure
  | cons first others =>
    rw [Run.statements, Statement.assignmentsAll]
    simp only [Store.afterAll_append]
    exact (leaves_statement first).bind (leaves_statements others)

end

/-- Running a program gives the store behind its body, or the first fault. -/
theorem outcome_program (p : Program) :
    (Report.ofRun (Run.program p)).outcome = p.final.mapError .run := by
  unfold Report.ofRun Program.final
  rcases leaves_statements p.block.body Memory.start with
    ⟨later, hrun, hstore⟩ | ⟨fault, later, hrun, hstore⟩
  · change Store.afterAll Table.empty _ = _ at hstore
    rw [Run.program, bind_of_ok hrun, hstore]
    rfl
  · change Store.afterAll Table.empty _ = _ at hstore
    rw [Run.program, bind_of_error hrun, hstore]
    rfl

theorem outcome_program_eq_ok_iff {p : Program} {store : Store} :
    (Report.ofRun (Run.program p)).outcome = .ok store ↔ p.final = .ok store := by
  rw [outcome_program]
  cases p.final with
  | ok later => exact ⟨fun hsame ↦ congrArg _ (Except.ok.inj hsame), congrArg _⟩
  | error fault => exact ⟨nofun, nofun⟩

theorem outcome_program_eq_error_iff {p : Program} {fault : RunFault} :
    (Report.ofRun (Run.program p)).outcome = .error (.run fault) ↔ p.final = .error fault := by
  rw [outcome_program]
  cases p.final with
  | ok later => exact ⟨nofun, nofun⟩
  | error cause =>
    refine ⟨fun hsame ↦ ?_, congrArg _⟩
    cases hsame
    rfl

/-! ### The names in a store -/

theorem Store.afterAll_cons_ok {store later : Store} {first : Assignment}
    {others : List Assignment} (hafter : store.afterAll (first :: others) = .ok later) :
    ∃ v, Store.afterAll (store.insert first.target.name v) others = .ok later := by
  rw [afterAll_cons] at hafter
  cases heval : first.value.eval store with
  | error fault =>
    rw [heval] at hafter
    cases hafter
  | ok v =>
    rw [heval] at hafter
    exact ⟨v, hafter⟩

theorem Store.mem_names_afterAll {store later : Store} {assignments : List Assignment}
    (hafter : store.afterAll assignments = .ok later) (name : String) :
    name ∈ later.names ↔ name ∈ store.names ∨ ∃ a ∈ assignments, a.target.name = name := by
  induction assignments generalizing store with
  | nil =>
    cases hafter
    simp
  | cons first others induct =>
    obtain ⟨v, hothers⟩ := afterAll_cons_ok hafter
    rw [induct hothers, Table.mem_names_insert]
    simp only [List.mem_cons, or_and_right, exists_or, exists_eq_left, @eq_comm _ name]
    rw [or_assoc]
    exact or_left_comm

theorem Store.ascending_afterAll {store later : Store} {assignments : List Assignment}
    (hafter : store.afterAll assignments = .ok later) (hascending : store.Ascending) :
    later.Ascending := by
  induction assignments generalizing store with
  | nil =>
    cases hafter
    exact hascending
  | cons first others induct =>
    obtain ⟨v, hothers⟩ := afterAll_cons_ok hafter
    exact induct hothers (Table.ascending_insert hascending _ _)

theorem target_mem_mentionsAll {ss : List Statement} {a : Assignment}
    (hmem : a ∈ Statement.assignmentsAll ss) : a.target ∈ Statement.mentionsAll ss := by
  rw [mentionsAll_eq]
  exact List.mem_flatMap.2 ⟨a, hmem, List.mem_cons_self ..⟩

/-- The names in the store that a program leaves are the targets of its assignments, in order. -/
theorem Program.final_names {p : Program} {store : Store} (hfinal : p.final = .ok store) :
    store.Ascending ∧ ∀ name, name ∈ store.names ↔
      ∃ a ∈ Statement.assignmentsAll p.block.body, a.target.name = name := by
  refine ⟨Store.ascending_afterAll hfinal Table.ascending_empty, fun name ↦ ?_⟩
  simpa using Store.mem_names_afterAll hfinal name

/-! ### Variables without a value -/

section Operators

variable {left right : Value} {name : String} {line place : Nat}

theorem integerResult_ne_undefined (n : Int) :
    integerResult n line ≠ .error (.undefinedVariable name place) := by
  unfold integerResult
  split <;> simp

theorem Sign.apply_ne_undefined (sign : Sign) :
    sign.apply left line ≠ .error (.undefinedVariable name place) := by
  cases sign <;> cases left <;> simp [Sign.apply, integerResult_ne_undefined]

theorem Operator.applyPromoted_ne_undefined (operator : Operator) :
    operator.applyPromoted left right line ≠ .error (.undefinedVariable name place) := by
  unfold Operator.applyPromoted promote
  cases left.asReal with
  | none => simp [bind, Except.bind]
  | some first =>
    cases right.asReal with
    | none => simp [bind, Except.bind]
    | some second =>
      simp only [bind, Except.bind]
      split <;> simp [throw, throwThe, MonadExceptOf.throw, pure, Except.pure]

theorem Operator.apply_ne_undefined (operator : Operator) :
    operator.apply left right line ≠ .error (.undefinedVariable name place) := by
  unfold Operator.apply
  split
  · split
    · split
      · simp
      · exact integerResult_ne_undefined _
    · exact applyPromoted_ne_undefined operator
  · exact applyPromoted_ne_undefined operator

end Operators

theorem Expression.mem_mentions_of_undefined {store : Store} {e : Expression} {name : String}
    {line : Nat} (heval : e.eval store = .error (.undefinedVariable name line)) :
    ⟨name, line⟩ ∈ e.mentions := by
  induction e with
  | constant value place => cases heval
  | read mention =>
    rw [eval] at heval
    split at heval
    · cases heval
    · cases heval
      exact List.mem_singleton_self _
  | unary sign operand place induct =>
    rw [eval] at heval
    cases hoperand : operand.eval store with
    | ok v =>
      rw [hoperand] at heval
      exact absurd heval (sign.apply_ne_undefined)
    | error fault =>
      rw [hoperand] at heval
      cases heval
      exact induct hoperand
  | binary operator left right place inductLeft inductRight =>
    rw [eval] at heval
    cases hleft : left.eval store with
    | ok first =>
      rw [hleft] at heval
      cases hright : right.eval store with
      | ok second =>
        rw [hright] at heval
        exact absurd heval (operator.apply_ne_undefined)
      | error fault =>
        rw [hright] at heval
        cases heval
        exact List.mem_append_right _ (inductRight hright)
    | error fault =>
      rw [hleft] at heval
      cases heval
      exact List.mem_append_left _ (inductLeft hleft)

end MiniPascal
