import MiniPascal.Proofs.Execution.Exact
import MiniPascal.Proofs.Execution.Progress

/-!
# Variables that are read before they are assigned

An expression has a value if all of its parts have one, and otherwise it fails as the first of them
does that has none; that fault is about a variable only if this part is the variable
(`Expression.eval_cases`).

`undefined_iff_read_before_assigned`: a run lacks a variable where a name is the first of its
assignment that no assignment in front writes, and the run gets that far. So a program that reads
only what it has assigned (`ReadsAssigned`) lacks none, and every program that runs to its end is
such a program.
-/

set_option autoImplicit false
set_option relaxedAutoImplicit false

namespace MiniPascal

/-! ### Parts without a value -/

namespace Expression

variable {store : Store} {e : Expression} {name : String} {line : Nat}

def fails (store : Store) (e : Expression) : Bool := !(e.eval store).isOk

theorem fails_of_ok {v : Value} (hvalue : e.eval store = .ok v) : e.fails store = false := by
  rw [fails, hvalue]
  rfl

theorem fails_of_error {fault : RunFault} (hfault : e.eval store = .error fault) :
    e.fails store = true := by
  rw [fails, hfault]
  rfl

theorem fails_read_iff : (read ⟨name, line⟩).fails store = true ↔ store.get? name = none := by
  cases hheld : store.get? name with
  | some v =>
    have hvalue : (read ⟨name, line⟩).eval store = .ok v := by rw [eval, hheld]
    simp [fails_of_ok hvalue]
  | none =>
    have hfault : (read ⟨name, line⟩).eval store = .error (.undefinedVariable name line) := by
      rw [eval, hheld]
    simp [fails_of_error hfault]

/-- The first part that has no value, operands before their operator. -/
def firstFailing? (store : Store) (e : Expression) : Option Expression :=
  e.parts.find? (fails store)

theorem firstFailing?_unary (sign : Sign) (operand : Expression) (line : Nat) :
    (unary sign operand line).firstFailing? store =
      (operand.firstFailing? store).or (if (unary sign operand line).fails store then
        some (unary sign operand line) else none) := by
  rw [firstFailing?, parts, List.find?_append, List.find?_singleton, firstFailing?]

theorem firstFailing?_binary (operator : Operator) (left right : Expression) (line : Nat) :
    (binary operator left right line).firstFailing? store =
      ((left.firstFailing? store).or (right.firstFailing? store)).or
        (if (binary operator left right line).fails store then
          some (binary operator left right line) else none) := by
  rw [firstFailing?, parts, List.find?_append, List.find?_append, List.find?_singleton,
    firstFailing?, firstFailing?]

/-- The whole fails as its first failing part does, and for want of a variable only if this part is
the variable. -/
structure FailsAs (store : Store) (e part : Expression) (fault : RunFault) : Prop where
  first : e.firstFailing? store = some part
  inside : part.eval store = .error fault
  whole : e.eval store = .error fault
  read : ∀ name line, fault = .undefinedVariable name line → part = .read ⟨name, line⟩

/-- If only the whole can fail, it does so for another reason than a variable. -/
theorem eval_cases_of_operands
    (hfirst : e.firstFailing? store = if e.fails store then some e else none)
    (hdefined : ∀ name line, e.eval store ≠ .error (.undefinedVariable name line)) :
    (∃ v, e.eval store = .ok v ∧ e.firstFailing? store = none) ∨
      ∃ part fault, FailsAs store e part fault := by
  cases hvalue : e.eval store with
  | ok v =>
    rw [fails_of_ok hvalue] at hfirst
    exact .inl ⟨v, rfl, hfirst⟩
  | error fault =>
    rw [fails_of_error hvalue] at hfirst
    refine .inr ⟨e, fault, hfirst, hvalue, hvalue, ?_⟩
    rintro name line rfl
    exact absurd hvalue (hdefined name line)

/-- Evaluation yields a value, and then all parts have one, or fails as the first part that has
none. -/
theorem eval_cases (store : Store) (e : Expression) :
    (∃ v, e.eval store = .ok v ∧ e.firstFailing? store = none) ∨
      ∃ part fault, FailsAs store e part fault := by
  induction e with
  | constant value line => exact .inl ⟨value, rfl, rfl⟩
  | read used =>
    cases hheld : store.get? used.name with
    | some v =>
      have hvalue : (read used).eval store = .ok v := by rw [eval, hheld]
      refine .inl ⟨v, hvalue, ?_⟩
      simp [firstFailing?, parts, fails_of_ok hvalue]
    | none =>
      have hfault : (read used).eval store =
          .error (.undefinedVariable used.name used.line) := by rw [eval, hheld]
      refine .inr ⟨read used, _, ?_, hfault, hfault, ?_⟩
      · simp [firstFailing?, parts, fails_of_error hfault]
      · rintro name line ⟨⟩
        rfl
  | unary sign operand line induct =>
    rcases induct with ⟨v, hoperand, hnone⟩ | ⟨part, fault, hfirst, hpart, hwhole, hread⟩
    · refine eval_cases_of_operands ?_ fun name line ↦ ?_
      · rw [firstFailing?_unary, hnone, Option.none_or]
      · rw [eval, hoperand]
        exact sign.apply_ne_undefined
    · refine .inr ⟨part, fault, ?_, hpart, ?_, hread⟩
      · rw [firstFailing?_unary, hfirst, Option.some_or]
      · rw [eval, hwhole]
        rfl
  | binary operator left right line inductLeft inductRight =>
    rcases inductLeft with ⟨first, hleft, hnone⟩ | ⟨part, fault, hfirst, hpart, hwhole, hread⟩
    · rcases inductRight with ⟨second, hright, hnone'⟩ | ⟨part, fault, hfirst, hpart, hwhole, hread⟩
      · refine eval_cases_of_operands ?_ fun name line ↦ ?_
        · rw [firstFailing?_binary, hnone, hnone', Option.none_or, Option.none_or]
        · rw [eval, hleft, hright]
          exact operator.apply_ne_undefined
      · refine .inr ⟨part, fault, ?_, hpart, ?_, hread⟩
        · rw [firstFailing?_binary, hnone, hfirst, Option.none_or, Option.some_or]
        · rw [eval, hleft, hwhole]
          rfl
    · refine .inr ⟨part, fault, ?_, hpart, ?_, hread⟩
      · rw [firstFailing?_binary, hfirst, Option.some_or, Option.some_or]
      · rw [eval, hwhole]
        rfl

theorem eval_eq_undefined_iff :
    e.eval store = .error (.undefinedVariable name line) ↔
      e.firstFailing? store = some (.read ⟨name, line⟩) := by
  rcases eval_cases store e with ⟨v, hvalue, hnone⟩ | ⟨part, fault, hfirst, hpart, hwhole, hread⟩
  · rw [hvalue, hnone]
    exact iff_of_false nofun nofun
  · rw [hwhole, hfirst, Except.error.injEq, Option.some.injEq]
    refine ⟨hread name line, ?_⟩
    rintro rfl
    rw [eval] at hpart
    split at hpart
    · cases hpart
    · exact (Except.error.inj hpart).symm

/-- A variable is lacking where all parts in front of it have values. -/
theorem eval_eq_undefined_iff_split :
    e.eval store = .error (.undefinedVariable name line) ↔
      ∃ before after, e.parts = before ++ .read ⟨name, line⟩ :: after ∧
        (∀ part ∈ before, ∃ v, part.eval store = .ok v) ∧ store.get? name = none := by
  have hkept (part : Expression) :
      (!part.fails store) = true ↔ ∃ v, part.eval store = .ok v := by
    cases hvalue : part.eval store with
    | ok v => simp [fails_of_ok hvalue]
    | error fault => simp [fails_of_error hvalue]
  rw [eval_eq_undefined_iff, firstFailing?, List.find?_eq_some_iff_append, fails_read_iff]
  constructor
  · rintro ⟨hmissing, before, after, hparts, hbefore⟩
    exact ⟨before, after, hparts, fun part hmem ↦ (hkept part).1 (hbefore part hmem), hmissing⟩
  · rintro ⟨before, after, hparts, hbefore, hmissing⟩
    exact ⟨hmissing, before, after, hparts, fun part hmem ↦ (hkept part).2 (hbefore part hmem)⟩

theorem read_mem_parts_iff {used : Mention} : .read used ∈ e.parts ↔ used ∈ e.mentions := by
  induction e with
  | constant value line => simp [parts, mentions]
  | read other => simp [parts, mentions]
  | unary sign operand line induct => simp [parts, mentions, induct]
  | binary operator left right line inductLeft inductRight =>
    simp [parts, mentions, inductLeft, inductRight]

/-- Where a part has a value, so have the variables in it. -/
theorem get?_of_firstFailing?_eq_none (hnone : e.firstFailing? store = none) :
    ∀ used ∈ e.mentions, store.get? used.name ≠ none := by
  intro used hused hmissing
  have hkept := List.find?_eq_none.1 hnone _ (read_mem_parts_iff.2 hused)
  exact hkept (fails_read_iff.2 hmissing)

theorem firstFailing?_of_ok {v : Value} (hvalue : e.eval store = .ok v) :
    e.firstFailing? store = none := by
  rcases eval_cases store e with ⟨-, -, hnone⟩ | ⟨part, fault, hfails⟩
  · exact hnone
  · cases hvalue.symm.trans hfails.whole

end Expression

/-! ### Assignments that read what is assigned -/

/-- Each assignment reads only names that are assigned in front of it. -/
def ReadsAssigned (assignments : List Assignment) : Prop :=
  ∀ before current after, assignments = before ++ current :: after →
    ∀ used ∈ current.value.mentions, used.name ∈ assignedNames before

/-- The variables that have values are those that were assigned. -/
theorem Store.get?_ne_none_of_afterAll {later : Store} {assignments : List Assignment}
    (hafter : Store.afterAll Table.empty assignments = .ok later) {name : String} :
    later.get? name ≠ none ↔ name ∈ assignedNames assignments := by
  rw [ne_eq, Table.get?_eq_none_iff, not_not, Store.mem_names_afterAll hafter]
  simp [assignedNames]

theorem readsAssigned_of_afterAll {later : Store} {assignments : List Assignment}
    (hafter : Store.afterAll Table.empty assignments = .ok later) :
    ReadsAssigned assignments := by
  rintro before current after rfl used hused
  rw [Store.afterAll_append] at hafter
  obtain ⟨store, hbefore, hrest⟩ := exists_of_bind_ok hafter
  rw [Store.afterAll_cons] at hrest
  obtain ⟨v, hvalue, -⟩ := exists_of_bind_ok hrest
  have hnone := Expression.firstFailing?_of_ok hvalue
  exact (Store.get?_ne_none_of_afterAll hbefore).1
    (Expression.get?_of_firstFailing?_eq_none hnone used hused)

/-- A run lacks a variable at the first name of an assignment that is not assigned in front. -/
theorem Store.afterAll_eq_undefined_iff {assignments : List Assignment} {name : String}
    {line : Nat} :
    Store.afterAll Table.empty assignments = .error (.undefinedVariable name line) ↔
      ∃ done failing others writes before after,
        assignments = done ++ failing :: others ∧ Store.Performs Table.empty done writes ∧
        failing.value.parts = before ++ .read ⟨name, line⟩ :: after ∧
        (∀ part ∈ before, ∃ v, part.eval (Store.replay Table.empty writes) = .ok v) ∧
        name ∉ assignedNames done ∧
        ∀ used, .read used ∈ before → used.name ∈ assignedNames done := by
  rw [Store.afterAll_eq_error_iff]
  constructor
  · rintro ⟨done, failing, others, writes, hsplit, hdone, hfault⟩
    obtain ⟨before, after, hparts, hbefore, hmissing⟩ :=
      Expression.eval_eq_undefined_iff_split.1 hfault
    have hassigned (name : String) := @get?_ne_none_of_afterAll _ _ hdone.afterAll name
    refine ⟨done, failing, others, writes, before, after, hsplit, hdone, hparts, hbefore, ?_, ?_⟩
    · exact fun hmem ↦ (hassigned name).2 hmem hmissing
    · intro used hused
      obtain ⟨v, hvalue⟩ := hbefore _ hused
      refine (hassigned used.name).1 fun hnone ↦ ?_
      rw [Expression.eval, hnone] at hvalue
      cases hvalue
  · rintro ⟨done, failing, others, writes, before, after, hsplit, hdone, hparts, hbefore, hnot, -⟩
    refine ⟨done, failing, others, writes, hsplit, hdone,
      Expression.eval_eq_undefined_iff_split.2 ⟨before, after, hparts, hbefore, ?_⟩⟩
    by_contra hheld
    exact hnot ((get?_ne_none_of_afterAll hdone.afterAll).1 hheld)

/-- A program that reads only what it has assigned does not lack a variable, and a program that
runs to its end is one. A variable is lacking where all in front of it has a value, and it is the
first of its assignment that is not assigned in front. -/
theorem undefined_iff_read_before_assigned (p : Program) :
    (ReadsAssigned (Statement.assignmentsAll p.block.body) → ∀ name line,
      (Report.ofRun (Run.program p)).outcome ≠ .error (.run (.undefinedVariable name line))) ∧
    (∀ store, (Report.ofRun (Run.program p)).outcome = .ok store →
      ReadsAssigned (Statement.assignmentsAll p.block.body)) ∧
    ∀ name line,
      (Report.ofRun (Run.program p)).outcome = .error (.run (.undefinedVariable name line)) ↔
        ∃ done failing others writes before after,
          Statement.assignmentsAll p.block.body = done ++ failing :: others ∧
          Store.Performs Table.empty done writes ∧
          failing.value.parts = before ++ .read ⟨name, line⟩ :: after ∧
          (∀ part ∈ before, ∃ v, part.eval (Store.replay Table.empty writes) = .ok v) ∧
          name ∉ assignedNames done ∧
          ∀ used, .read used ∈ before → used.name ∈ assignedNames done := by
  have hundefined {name : String} {line : Nat} :=
    (@outcome_program_eq_error_iff p (.undefinedVariable name line)).trans
      Store.afterAll_eq_undefined_iff
  refine ⟨fun hassigned name line hfault ↦ ?_, fun store hstore ↦ ?_, fun name line ↦ hundefined⟩
  · obtain ⟨done, failing, others, writes, before, after, hsplit, -, hparts, -, hnot, -⟩ :=
      hundefined.1 hfault
    have hused : ⟨name, line⟩ ∈ failing.value.mentions :=
      Expression.read_mem_parts_iff.1 (by simp [hparts])
    exact hnot (hassigned done failing others hsplit _ hused)
  · exact readsAssigned_of_afterAll (outcome_program_eq_ok_iff.1 hstore)

/-- In the second program `x * y` still has a value, and the division by zero is not reached. -/
theorem undefined_iff_read_before_assigned_nested :
    let number (n : Int64) : Expression := .constant (.integer n) 3
    let read (name : String) : Expression := .read ⟨name, 3⟩
    let assign (name : String) (value : Expression) : Statement := .assign ⟨name, 3⟩ value 3
    let first : List Statement :=
      [assign "x" (number 1), .compound [.empty, assign "y" (.unary .minus (read "x") 3)]]
    let product : Expression := .binary .mul (read "x") (read "y") 3
    let quotient : Expression := .binary .floorDiv (read "z") (number 0) 4
    let program (body : List Statement) : Program := ⟨"p", 1, ⟨[], body⟩⟩
    let p := program (first ++ [assign "x" product])
    let q := program (first ++ [.compound [assign "x" (.binary .add product quotient 4)]])
    (Report.ofRun (Run.program p)).outcome = .ok ⟨[("x", .integer (-1)), ("y", .integer (-1))]⟩ ∧
      ReadsAssigned (Statement.assignmentsAll p.block.body) ∧
      (∀ name line, (Report.ofRun (Run.program p)).outcome ≠
        .error (.run (.undefinedVariable name line))) ∧
      (Report.ofRun (Run.program q)).outcome = .error (.run (.undefinedVariable "z" 3)) ∧
      ¬ ReadsAssigned (Statement.assignmentsAll q.block.body) := by
  intro number read assign first product quotient program p q
  have hp : (Report.ofRun (Run.program p)).outcome =
      .ok ⟨[("x", .integer (-1)), ("y", .integer (-1))]⟩ := by decide
  have hq : (Report.ofRun (Run.program q)).outcome =
      .error (.run (.undefinedVariable "z" 3)) := by decide
  have hassigned := (undefined_iff_read_before_assigned p).2.1 _ hp
  exact ⟨hp, hassigned, (undefined_iff_read_before_assigned p).1 hassigned, hq,
    fun hreads ↦ (undefined_iff_read_before_assigned q).1 hreads "z" 3 hq⟩

end MiniPascal
