import MiniPascal.Proofs.Execution.Assignments

/-!
# A run gets as far as its first fault

A statement is run as the list of its assignments, one after the other
(`Run.statement_eq_assignments`). Each of them is evaluated in the store that those in front of it
leave, and adds one write to the store and to the log; `Store.Performs` says so without a run. The
first one that has no value ends the run and writes nothing.

`statement_runs_its_assignments`: whether a statement succeeds or fails, the store behind it is the
one before it with the recorded writes replayed, and these are the writes of the assignments in
front of the failing one, or of all of them.
-/

set_option autoImplicit false
set_option relaxedAutoImplicit false

namespace MiniPascal

/-! ### Writes -/

/-- A value and the name it is written under. -/
structure Write where
  name : String
  value : Value
  deriving DecidableEq, Repr

/-- How a write is recorded. -/
def Write.event (write : Write) : Event := .assigned write.name write.value

theorem Write.message_event (write : Write) :
    (write.event.severity.text, write.event.message) =
      ("DEBUG", "Assign: " ++ write.name ++ " = " ++ write.value.text) := rfl

/-- The store behind some writes, of which the later ones count. -/
def Store.replay (store : Store) (writes : List Write) : Store :=
  writes.foldl (fun store write ↦ store.insert write.name write.value) store

/-- The memory behind some writes, each of them on record. -/
def Memory.written (memory : Memory) (writes : List Write) : Memory :=
  ⟨memory.store.replay writes, memory.log ++ (writes.map Write.event).toArray⟩

theorem Memory.written_nil (memory : Memory) : memory.written [] = memory := by
  simp [written, Store.replay]

theorem Memory.written_append (memory : Memory) (first second : List Write) :
    memory.written (first ++ second) = (memory.written first).written second := by
  simp [written, Store.replay]

theorem Memory.written_cons (memory : Memory) (first : Write) (others : List Write) :
    memory.written (first :: others) = (memory.written [first]).written others :=
  memory.written_append [first] others

/-- All of the assignments have values, each in the store that those in front of it leave, and
these are written. -/
inductive Store.Performs : Store → List Assignment → List Write → Prop where
  | nil {store : Store} : Performs store [] []
  | cons {store : Store} {first : Assignment} {others : List Assignment} {v : Value}
      {writes : List Write} : first.value.eval store = .ok v →
        Performs (store.insert first.target.name v) others writes →
          Performs store (first :: others) (⟨first.target.name, v⟩ :: writes)

theorem Store.Performs.afterAll {store : Store} {assignments : List Assignment}
    {writes : List Write} (hperforms : store.Performs assignments writes) :
    store.afterAll assignments = .ok (store.replay writes) := by
  induction hperforms with
  | nil => rfl
  | cons hvalue _ induct =>
    rw [Store.afterAll_cons, hvalue]
    exact induct

theorem Store.Performs.names_eq {store : Store} {assignments : List Assignment}
    {writes : List Write} (hperforms : store.Performs assignments writes) :
    writes.map Write.name = assignedNames assignments := by
  induction hperforms with
  | nil => rfl
  | cons _ _ induct => exact congrArg (_ :: ·) induct

/-- Assignments fail at the first of them that has no value behind those in front of it. -/
theorem Store.afterAll_eq_error_iff {store : Store} {assignments : List Assignment}
    {fault : RunFault} :
    store.afterAll assignments = .error fault ↔
      ∃ done failing others writes, assignments = done ++ failing :: others ∧
        store.Performs done writes ∧ failing.value.eval (store.replay writes) = .error fault := by
  constructor
  · intro hafter
    induction assignments generalizing store with
    | nil => cases hafter
    | cons first others induct =>
      rw [afterAll_cons] at hafter
      cases hvalue : first.value.eval store with
      | error cause =>
        rw [hvalue] at hafter
        cases hafter
        exact ⟨[], first, others, [], rfl, .nil, hvalue⟩
      | ok v =>
        rw [hvalue] at hafter
        obtain ⟨done, failing, behind, writes, rfl, hdone, hfault⟩ := induct hafter
        exact ⟨first :: done, failing, behind, _, rfl, .cons hvalue hdone, hfault⟩
  · rintro ⟨done, failing, others, writes, rfl, hdone, hfault⟩
    rw [afterAll_append, hdone.afterAll]
    change Store.afterAll (store.replay writes) _ = _
    rw [afterAll_cons, hfault]
    rfl

/-- A variable without a value is one that is read in an assignment. -/
theorem Program.mem_mentions_of_undefined {p : Program} {name : String} {line : Nat}
    (hfinal : p.final = .error (.undefinedVariable name line)) :
    ⟨name, line⟩ ∈ Statement.mentionsAll p.block.body := by
  obtain ⟨done, failing, others, writes, hassignments, -, hfault⟩ :=
    Store.afterAll_eq_error_iff.1 hfinal
  have hread := Expression.mem_mentions_of_undefined hfault
  rw [mentionsAll_eq, hassignments, List.flatMap_append, List.flatMap_cons]
  exact List.mem_append_right _ (List.mem_append_left _ (List.mem_cons_of_mem _ hread))

/-! ### Flat runs -/

namespace Run

/-- Evaluates an assignment and writes its value. -/
def assignment (a : Assignment) : Run Unit := do assign a.target.name (← evaluate a.value)

mutual

theorem statement_eq_assignments (s : Statement) :
    statement s = forM s.assignments assignment := by
  cases s with
  | compound inner =>
    rw [statement, Statement.assignments]
    exact statements_eq_assignments inner
  | assign target value line =>
    rw [statement, Statement.assignments, List.forM_cons, List.forM_nil]
    exact (bind_pure _).symm
  | empty =>
    rw [statement, Statement.assignments, List.forM_nil]

/-- Compound statements only group their assignments. -/
theorem statements_eq_assignments (ss : List Statement) :
    statements ss = forM (Statement.assignmentsAll ss) assignment := by
  cases ss with
  | nil =>
    rw [statements, Statement.assignmentsAll, List.forM_nil]
  | cons first others =>
    rw [statements, Statement.assignmentsAll, List.forM_append, statement_eq_assignments first,
      statements_eq_assignments others]

end

variable {memory : Memory} {a : Assignment}

theorem assignment_of_ok {v : Value} (hvalue : a.value.eval memory.store = .ok v) :
    assignment a memory = .ok () (memory.written [⟨a.target.name, v⟩]) := by
  have hevaluate : evaluate a.value memory = .ok v memory := by rw [evaluate, hvalue]
  rw [assignment, bind_of_ok hevaluate]
  change EStateM.Result.ok () (Memory.mk (memory.store.insert a.target.name v)
    (memory.log.push (Write.event ⟨a.target.name, v⟩))) = _
  simp [Memory.written, Store.replay]

theorem assignment_of_error {fault : RunFault} (hfault : a.value.eval memory.store = .error fault) :
    assignment a memory = .error fault memory := by
  have hevaluate : evaluate a.value memory = .error fault memory := by rw [evaluate, hfault]
  exact bind_of_error hevaluate

/-- How a run of assignments ends, and what it has written by then. -/
inductive Ends (memory : Memory) (assignments : List Assignment) :
    EStateM.Result RunFault Memory Unit → Prop where
  | finished {writes : List Write} : memory.store.Performs assignments writes →
      Ends memory assignments (.ok () (memory.written writes))
  | stopped {done others : List Assignment} {failing : Assignment} {writes : List Write}
      {fault : RunFault} : assignments = done ++ failing :: others →
        memory.store.Performs done writes →
          failing.value.eval (memory.store.replay writes) = .error fault →
            Ends memory assignments (.error fault (memory.written writes))

/-- A successful assignment in front only puts its write in front. -/
theorem Ends.cons {v : Value} {others : List Assignment}
    {result : EStateM.Result RunFault Memory Unit} (hvalue : a.value.eval memory.store = .ok v)
    (hends : Ends (memory.written [⟨a.target.name, v⟩]) others result) :
    Ends memory (a :: others) result := by
  cases hends with
  | finished hperforms =>
    rw [← Memory.written_cons]
    exact .finished (.cons hvalue hperforms)
  | stopped hsplit hperforms hfault =>
    rw [← Memory.written_cons]
    exact .stopped (congrArg (a :: ·) hsplit) (.cons hvalue hperforms) hfault

theorem ends_assignments (assignments : List Assignment) (memory : Memory) :
    Ends memory assignments (forM assignments assignment memory) := by
  induction assignments generalizing memory with
  | nil =>
    have hends : Ends memory [] (.ok () (memory.written [])) := .finished .nil
    rwa [Memory.written_nil] at hends
  | cons first others induct =>
    rw [List.forM_cons]
    cases hvalue : first.value.eval memory.store with
    | ok v =>
      rw [bind_of_ok (assignment_of_ok hvalue)]
      exact .cons hvalue (induct _)
    | error fault =>
      rw [bind_of_error (assignment_of_error hvalue)]
      have hends : Ends memory (first :: others) (.error fault (memory.written [])) :=
        .stopped (List.nil_append _).symm .nil hvalue
      rwa [Memory.written_nil] at hends

theorem assignments_of_performs {assignments : List Assignment} {writes : List Write}
    (hperforms : memory.store.Performs assignments writes) :
    forM assignments assignment memory = .ok () (memory.written writes) := by
  induction assignments generalizing memory writes with
  | nil =>
    cases hperforms
    rw [Memory.written_nil]
    rfl
  | cons first others induct =>
    cases hperforms with
    | @cons _ _ _ v writes hvalue hothers =>
      have hrun : forM others assignment (memory.written [⟨first.target.name, v⟩]) = _ :=
        induct hothers
      rw [List.forM_cons, bind_of_ok (assignment_of_ok hvalue), hrun, ← Memory.written_cons]

/-- There is only one way in which a run can end. -/
theorem Ends.run_eq {assignments : List Assignment} {result : EStateM.Result RunFault Memory Unit}
    (hends : Ends memory assignments result) : forM assignments assignment memory = result := by
  cases hends with
  | finished hperforms => exact assignments_of_performs hperforms
  | stopped hsplit hdone hfault =>
    rw [hsplit, List.forM_append, bind_of_ok (assignments_of_performs hdone), List.forM_cons,
      bind_of_error (assignment_of_error hfault)]

end Run

/-- A statement does what the list of its assignments does, up to the first that has no value. The
records of the writes are all that it adds to the log, and replaying them gives the store. -/
theorem statement_runs_its_assignments (s : Statement) (memory : Memory) :
    Run.statement s memory = forM s.assignments Run.assignment memory ∧
    ∃ (writes : List Write) (later : Memory),
      later.store = memory.store.replay writes ∧
      later.log.toList = memory.log.toList ++ writes.map Write.event ∧
      (writes.map fun write ↦ (write.event.severity.text, write.event.message)) =
        (writes.map fun write ↦ ("DEBUG", "Assign: " ++ write.name ++ " = " ++ write.value.text)) ∧
      ((Run.statement s memory = .ok () later ∧
          memory.store.Performs s.assignments writes ∧
          memory.store.afterAll s.assignments = .ok later.store) ∨
        ∃ done failing others fault, s.assignments = done ++ failing :: others ∧
          memory.store.Performs done writes ∧
          memory.store.afterAll done = .ok later.store ∧
          failing.value.eval later.store = .error fault ∧
          Run.statement s memory = .error fault later) := by
  have hflat := congrFun (Run.statement_eq_assignments s) memory
  have hends := Run.ends_assignments s.assignments memory
  rw [← hflat] at hends
  refine ⟨hflat, ?_⟩
  generalize Run.statement s memory = result at hends
  cases hends with
  | @finished writes hperforms =>
    refine ⟨writes, memory.written writes, rfl, ?_, List.map_congr_left fun write _ ↦
      write.message_event, .inl ⟨rfl, hperforms, hperforms.afterAll⟩⟩
    simp [Memory.written]
  | @stopped done others failing writes fault hsplit hperforms hfault =>
    refine ⟨writes, memory.written writes, rfl, ?_, List.map_congr_left fun write _ ↦
      write.message_event, .inr ⟨done, failing, others, fault, hsplit, hperforms,
        hperforms.afterAll, hfault, rfl⟩⟩
    simp [Memory.written]

/-- The division inside ends the run, so `z` and `w` are not written. -/
example :
    let number (n : Int64) : Expression := .constant (.integer n) 2
    let assign (name : String) (value : Expression) : Statement := .assign ⟨name, 2⟩ value 2
    Run.statement (.compound [assign "x" (number 1),
      .compound [.empty, assign "y" (.binary .floorDiv (number 1) (number 0) 2),
        assign "z" (number 2)], assign "w" (number 3)]) Memory.start =
      .error (.divisionByZero 2) (Memory.start.written [⟨"x", .integer 1⟩]) := by
  rfl

end MiniPascal
