import MiniPascal.Proofs.Execution.Assignments
import MiniPascal.Proofs.Scope.Checking
import MiniPascal.Proofs.Scope.Renaming
import Mathlib.Logic.Equiv.Basic

/-!
# Names matter only up to renaming

`names_matter_up_to_renaming`: if all names of a program are mapped by an injective map that keeps
the names of the scalar types, checking the program and running it give the same as before, with the
names in faults mapped, and with the values of the final store under the mapped names.

The store of the renamed program is in the order of the new names (`Table.renamed`). As a table in
order is determined by what is found in it, filing a value commutes with renaming
(`Table.renamed_insert`), whatever the map does to the order.
-/

set_option autoImplicit false
set_option relaxedAutoImplicit false

namespace MiniPascal

/-! ### Renamed tables -/

section Tables

variable {α : Type}

/-- The name of the first entry does not come behind that of the second. -/
def NotBehind (first second : String × α) : Prop := nameBytes first.1 ≤ nameBytes second.1

instance : DecidableRel (NotBehind (α := α)) :=
  fun first second ↦ inferInstanceAs (Decidable (nameBytes first.1 ≤ nameBytes second.1))

instance : Std.Total (NotBehind (α := α)) := ⟨fun _ _ ↦ List.le_total _ _⟩

instance : IsTrans (String × α) NotBehind := ⟨fun _ _ _ ↦ List.le_trans⟩

/-- The entries under mapped names, put in the order of these. -/
def Table.renamed (r : String → String) (table : Table α) : Table α :=
  ⟨(table.entries.map fun entry ↦ (r entry.1, entry.2)).insertionSort NotBehind⟩

namespace Table

variable {r : String → String} (hinjective : Function.Injective r) {table : Table α}

theorem mem_entries_renamed {name : String} {value : α} :
    (name, value) ∈ (table.renamed r).entries ↔
      ∃ old, (old, value) ∈ table.entries ∧ r old = name := by
  rw [renamed, List.mem_insertionSort, List.mem_map]
  constructor
  · rintro ⟨⟨old, v⟩, hmem, hsame⟩
    obtain ⟨rfl, rfl⟩ := Prod.mk.inj hsame
    exact ⟨old, hmem, rfl⟩
  · rintro ⟨old, hmem, rfl⟩
    exact ⟨(old, value), hmem, rfl⟩

theorem renamed_empty : (empty : Table α).renamed r = empty := rfl

include hinjective

theorem nodup_names_renamed (hascending : table.Ascending) : (table.renamed r).names.Nodup := by
  have hdistinct : table.names.Nodup := hascending.imp fun hless hsame ↦ by
    rw [hsame] at hless
    exact List.lt_irrefl _ hless
  have hperm : (table.renamed r).names.Perm (table.names.map r) := by
    have hnames : table.names.map r = (table.entries.map fun entry ↦ (r entry.1, entry.2)).map
        Prod.fst := by simp [names]
    rw [hnames]
    exact (List.perm_insertionSort ..).map Prod.fst
  exact hperm.nodup_iff.2 (hdistinct.map hinjective)

theorem ascending_renamed (hascending : table.Ascending) : (table.renamed r).Ascending := by
  have hsorted : (table.renamed r).entries.Pairwise NotBehind := List.pairwise_insertionSort ..
  have hdistinct := List.pairwise_map.1 (nodup_names_renamed hinjective hascending)
  rw [Ascending, names, List.pairwise_map]
  refine hsorted.imp₂ (fun first second hle hne ↦ ?_) hdistinct
  exact Std.lt_of_le_of_ne hle fun hbytes ↦ hne (nameBytes_injective hbytes)

theorem get?_renamed (hascending : table.Ascending) (name : String) :
    (table.renamed r).get? (r name) = table.get? name := by
  ext value
  rw [(ascending_renamed hinjective hascending).get?_eq_some_iff, hascending.get?_eq_some_iff,
    mem_entries_renamed]
  exact ⟨fun ⟨old, hmem, hsame⟩ ↦ hinjective hsame ▸ hmem, fun hmem ↦ ⟨name, hmem, rfl⟩⟩

/-- Under a name that is not a mapped one nothing is found. -/
theorem get?_renamed_of_new (hascending : table.Ascending) {name : String}
    (hnew : ∀ old, r old ≠ name) : (table.renamed r).get? name = none := by
  rw [Option.eq_none_iff_forall_ne_some]
  intro value hfound
  rw [(ascending_renamed hinjective hascending).get?_eq_some_iff, mem_entries_renamed] at hfound
  obtain ⟨old, -, hold⟩ := hfound
  exact hnew old hold

theorem renamed_insert (hascending : table.Ascending) (name : String) (value : α) :
    (table.insert name value).renamed r = (table.renamed r).insert (r name) value := by
  have hinserted := ascending_insert hascending name value
  have hrenamed := ascending_renamed hinjective hascending
  refine (ascending_renamed hinjective hinserted).ext (ascending_insert hrenamed _ _) fun key ↦ ?_
  by_cases hkey : ∃ old, r old = key
  · obtain ⟨old, rfl⟩ := hkey
    simp only [get?_insert, get?_renamed hinjective hinserted, get?_renamed hinjective hascending,
      hinjective.eq_iff]
  · have hnew : ∀ old, r old ≠ key := fun old hold ↦ hkey ⟨old, hold⟩
    rw [get?_insert, if_neg (hnew name).symm, get?_renamed_of_new hinjective hinserted hnew,
      get?_renamed_of_new hinjective hascending hnew]

end Table

end Tables

/-! ### Renamed runs -/

def Assignment.renamed (r : String → String) (assignment : Assignment) : Assignment :=
  ⟨assignment.target.renamed r, assignment.value.renamed r⟩

/-- The same fault, with the name of an undefined variable mapped. -/
def RunFault.renamed (r : String → String) : RunFault → RunFault
  | .undefinedVariable name line => .undefinedVariable (r name) line
  | fault => fault

/-- The same fault of the same phase, with the name in it mapped. Faults of parsing come before
there are names. -/
def Fault.renamed (r : String → String) : Fault → Fault
  | .parse fault => .parse fault
  | .scope fault => .scope (fault.renamed r)
  | .run fault => .run (fault.renamed r)

section Runs

variable {r : String → String}

mutual

theorem assignments_renamed (s : Statement) :
    (s.renamed r).assignments = s.assignments.map (Assignment.renamed r) := by
  cases s with
  | compound inner =>
    rw [Statement.renamed, Statement.assignments, Statement.assignments,
      assignmentsAll_renamed inner]
  | assign target value line => rfl
  | empty => rfl

theorem assignmentsAll_renamed (ss : List Statement) :
    Statement.assignmentsAll (Statement.renamedAll r ss) =
      (Statement.assignmentsAll ss).map (Assignment.renamed r) := by
  cases ss with
  | nil => rfl
  | cons first others =>
    rw [Statement.renamedAll, Statement.assignmentsAll, Statement.assignmentsAll, List.map_append,
      assignments_renamed first, assignmentsAll_renamed others]

end

/-- A fault that is not about an undefined variable has no name in it. -/
theorem mapError_renamed_of_ne {α : Type} {result : Except RunFault α}
    (hdefined : ∀ name line, result ≠ .error (.undefinedVariable name line)) :
    result.mapError (RunFault.renamed r) = result := by
  cases result with
  | ok v => rfl
  | error fault =>
    cases fault with
    | undefinedVariable name line => exact absurd rfl (hdefined name line)
    | divisionByZero | overflow | integerTooLarge => rfl

variable (hinjective : Function.Injective r)

include hinjective

theorem Expression.eval_renamed {store : Store} (hascending : store.Ascending) (e : Expression) :
    (e.renamed r).eval (store.renamed r) = (e.eval store).mapError (RunFault.renamed r) := by
  induction e with
  | constant value line => rfl
  | read mention =>
    rw [renamed, eval, eval, Mention.renamed, Table.get?_renamed hinjective hascending]
    cases store.get? mention.name <;> rfl
  | unary sign operand line induct =>
    rw [renamed, eval, eval, induct]
    cases operand.eval store with
    | error fault => rfl
    | ok v => exact (mapError_renamed_of_ne fun _ _ ↦ sign.apply_ne_undefined).symm
  | binary operator left right line inductLeft inductRight =>
    rw [renamed, eval, eval, inductLeft, inductRight]
    cases left.eval store with
    | error fault => rfl
    | ok first =>
      cases right.eval store with
      | error fault => rfl
      | ok second => exact (mapError_renamed_of_ne fun _ _ ↦ operator.apply_ne_undefined).symm

theorem Store.afterAll_renamed {store : Store} (hascending : store.Ascending)
    (assignments : List Assignment) :
    Store.afterAll (store.renamed r) (assignments.map (Assignment.renamed r)) =
      ((store.afterAll assignments).map (Table.renamed r)).mapError (RunFault.renamed r) := by
  induction assignments generalizing store with
  | nil => rfl
  | cons first others induct =>
    rw [List.map_cons, afterAll_cons, afterAll_cons, Assignment.renamed,
      Expression.eval_renamed hinjective hascending]
    cases first.value.eval store with
    | error fault => rfl
    | ok v =>
      change Store.afterAll (Table.insert (store.renamed r) (r first.target.name) v) _ = _
      rw [← Table.renamed_insert hinjective hascending]
      exact induct (Table.ascending_insert hascending _ _)

theorem Program.final_renamed (p : Program) :
    (p.renamed r).final =
      (p.final.map (Table.renamed r)).mapError (RunFault.renamed r) := by
  have hfinal := Store.afterAll_renamed hinjective Table.ascending_empty
    (Statement.assignmentsAll p.block.body)
  rw [← assignmentsAll_renamed, Table.renamed_empty] at hfinal
  exact hfinal

end Runs

/-- Checking and running a program with all its names mapped gives the same result, up to the
names. -/
theorem names_matter_up_to_renaming {r : String → String} (hinjective : Function.Injective r)
    (hinteger : r "INTEGER" = "INTEGER") (hreal : r "REAL" = "REAL") (p : Program) :
    (Report.ofWalk (Check.program (p.renamed r))).outcome =
        (Report.ofWalk (Check.program p)).outcome.mapError (Fault.renamed r) ∧
      (Report.ofRun (Run.program (p.renamed r))).outcome =
        ((Report.ofRun (Run.program p)).outcome.map (Table.renamed r)).mapError
          (Fault.renamed r) := by
  have htypes (type : Scalar) : r type.name = type.name := by
    cases type with
    | integer => exact hinteger
    | real => exact hreal
  constructor
  · rw [outcome_check_program, outcome_check_program, Scoping.program_renamed hinjective htypes]
    cases Scoping.program p <;> rfl
  · rw [outcome_program, outcome_program, Program.final_renamed hinjective]
    cases p.final <;> rfl

/-- Two names change places, and with them the entries of the store. -/
theorem names_matter_up_to_renaming_swap :
    let r := Equiv.swap "b" "x"
    let p : Program := ⟨"p", 1,
      [.var ⟨⟨"x", 1⟩, ⟨"INTEGER", 1⟩⟩,
        .procedure ⟨"b", 2, [⟨⟨"x", 2⟩, ⟨"REAL", 2⟩⟩]⟩ []
          [.assign ⟨"b", 2⟩ (.read ⟨"x", 2⟩) 2]],
      [.assign ⟨"x", 3⟩ (.constant (.integer 1) 3) 3,
        .assign ⟨"b", 4⟩ (.unary .minus (.read ⟨"x", 4⟩) 4) 4]⟩
    Function.Injective r ∧ r "INTEGER" = "INTEGER" ∧ r "REAL" = "REAL" ∧
      (Report.ofWalk (Check.program (p.renamed r))).outcome = .ok () ∧
      (Report.ofRun (Run.program p)).outcome = .ok ⟨[("b", .integer (-1)), ("x", .integer 1)]⟩ ∧
      (Report.ofRun (Run.program (p.renamed r))).outcome =
        .ok ⟨[("b", .integer 1), ("x", .integer (-1))]⟩ := by
  intro r p
  have hinteger : r "INTEGER" = "INTEGER" := by decide
  have hreal : r "REAL" = "REAL" := by decide
  obtain ⟨hcheck, hrun⟩ := names_matter_up_to_renaming r.injective hinteger hreal p
  have hstore : (Report.ofRun (Run.program p)).outcome =
      .ok ⟨[("b", .integer (-1)), ("x", .integer 1)]⟩ := by decide
  refine ⟨r.injective, hinteger, hreal, ?_, hstore, ?_⟩
  · rw [hcheck, show (Report.ofWalk (Check.program p)).outcome = .ok () by decide +kernel]
    rfl
  · rw [hrun, hstore]
    decide

end MiniPascal
