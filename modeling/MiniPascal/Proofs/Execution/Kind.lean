import MiniPascal.Proofs.Execution.Assignments
import MiniPascal.Proofs.Execution.Exact

/-!
# The tree decides between integers and reals

A value is an integer or a real. An operator promotes its operands if one of them is a real, or if
it is the division that yields reals (`Operator.Promotes`); then its result is a real, and otherwise
it is an integer. So the kind of a value follows from its expression and from the kinds of the
variables in it (`Expression.kind`), and a pass over the assignments of a program that evaluates
nothing finds the kinds of its final variables (`Program.kinds`).

`kind_is_decided_by_tree`: a value is a real exactly if something in its expression brings one in,
and the final store of a run has the kinds of the pass.
-/

set_option autoImplicit false
set_option relaxedAutoImplicit false

namespace MiniPascal

/-! ### Operators -/

def Value.kind : Value → Scalar
  | .integer _ => .integer
  | .real _ => .real

namespace Operator

variable {operator : Operator} {left right v : Value} {line : Nat}

/-- The operator works on reals, whatever its operands are. -/
def Promotes (operator : Operator) (left right : Value) : Prop :=
  operator = .realDiv ∨ left.isReal ∨ right.isReal

instance : Decidable (operator.Promotes left right) := inferInstanceAs (Decidable (_ ∨ _))

theorem apply_of_promotes (hpromotes : operator.Promotes left right) (line : Nat) :
    operator.apply left right line = operator.applyPromoted left right line := by
  cases left with
  | real r => rfl
  | integer a =>
    cases right with
    | real r => rfl
    | integer b =>
      obtain rfl : operator = .realDiv := by simpa [Promotes, Value.isReal] using hpromotes
      rfl

theorem exists_integers_of_not_promotes (hinteger : ¬ operator.Promotes left right) :
    operator ≠ .realDiv ∧ ∃ a b, left = .integer a ∧ right = .integer b := by
  simp only [Promotes, not_or] at hinteger
  obtain ⟨hreal, hleft, hright⟩ := hinteger
  cases left with
  | real r => exact absurd rfl hleft
  | integer a =>
    cases right with
    | real r => exact absurd rfl hright
    | integer b => exact ⟨hreal, a, b, rfl, rfl⟩

end Operator

theorem kind_of_integerResult {n : Int} {line : Nat} {v : Value}
    (hresult : integerResult n line = .ok v) : v.kind = .integer := by
  unfold integerResult at hresult
  split at hresult
  · cases hresult
    rfl
  · cases hresult

theorem Sign.kind_of_apply {sign : Sign} {operand v : Value} {line : Nat}
    (hresult : sign.apply operand line = .ok v) : v.kind = operand.kind := by
  cases sign with
  | plus =>
    cases hresult
    rfl
  | minus =>
    cases operand with
    | integer n => exact kind_of_integerResult hresult
    | real r =>
      cases hresult
      rfl

namespace Operator

variable {operator : Operator} {left right v : Value} {line : Nat}

/-- The kind of a result, given those of the operands. -/
def kind (operator : Operator) (left right : Scalar) : Scalar :=
  if operator = .realDiv ∨ left = .real ∨ right = .real then .real else .integer

theorem kind_eq_real_iff {first second : Scalar} : operator.kind first second = .real ↔
    operator = .realDiv ∨ first = .real ∨ second = .real := by
  rw [kind]
  split <;> simp_all

theorem promotes_iff : operator.Promotes left right ↔
    operator.kind left.kind right.kind = .real := by
  rw [kind_eq_real_iff, Promotes]
  cases left <;> cases right <;> simp [Value.isReal, Value.kind]

theorem kind_of_applyPromoted (hresult : operator.applyPromoted left right line = .ok v) :
    v.kind = .real := by
  unfold applyPromoted at hresult
  obtain ⟨first, -, hresult⟩ := exists_of_bind_ok hresult
  obtain ⟨second, -, hresult⟩ := exists_of_bind_ok hresult
  split at hresult
  · cases hresult
  · cases hresult
    rfl

theorem kind_of_apply (hresult : operator.apply left right line = .ok v) :
    v.kind = operator.kind left.kind right.kind := by
  by_cases hpromotes : operator.Promotes left right
  · rw [apply_of_promotes hpromotes] at hresult
    rw [kind_of_applyPromoted hresult, promotes_iff.1 hpromotes]
  · have hkind : operator.kind left.kind right.kind = .integer :=
      if_neg (mt (promotes_iff.trans kind_eq_real_iff).2 hpromotes)
    obtain ⟨hreal, a, b, rfl, rfl⟩ := exists_integers_of_not_promotes hpromotes
    rw [hkind]
    rcases apply_integers hreal a b line with ⟨-, hzero⟩ | ⟨-, n, -, hexact⟩
    · cases hzero.symm.trans hresult
    · exact kind_of_integerResult (hexact.symm.trans hresult)

end Operator

/-! ### Expressions -/

namespace Table

variable {α β : Type}

/-- The table with all its entries mapped. -/
def map (f : α → β) (table : Table α) : Table β :=
  ⟨table.entries.map fun entry ↦ (entry.1, f entry.2)⟩

theorem get?_map (f : α → β) (table : Table α) (name : String) :
    (table.map f).get? name = (table.get? name).map f := by
  obtain ⟨entries⟩ := table
  simp only [map, get?]
  induction entries with
  | nil => rfl
  | cons entry rest induct =>
    rw [List.map_cons, List.lookup_cons, List.lookup_cons]
    by_cases hname : name = entry.1
    · simp [hname]
    · simp [beq_false_of_ne hname, induct]

theorem map_insert (f : α → β) (table : Table α) (name : String) (v : α) :
    (table.insert name v).map f = (table.map f).insert name (f v) := by
  obtain ⟨entries⟩ := table
  simp only [map, insert, mk.injEq]
  induction entries with
  | nil => rfl
  | cons entry rest induct =>
    rw [insertEntry, List.map_cons, insertEntry]
    split
    · rfl
    split
    · rfl
    · rw [List.map_cons, induct]

end Table

/-- The kinds of the variables in a store. -/
def Store.kinds (store : Store) : Table Scalar := store.map Value.kind

namespace Expression

variable {kinds : Table Scalar}

/-- The kind of the value, given those of the variables. -/
def kind (kinds : Table Scalar) : Expression → Scalar
  | .constant value _ => value.kind
  | .read used => (kinds.get? used.name).getD .integer
  | .unary _ operand _ => operand.kind kinds
  | .binary operator left right _ => operator.kind (left.kind kinds) (right.kind kinds)

/-- A division that yields reals, a real constant, or a variable that holds a real. -/
def BringsReal (kinds : Table Scalar) : Expression → Prop
  | .constant value _ => value.kind = .real
  | .read used => kinds.get? used.name = some .real
  | .unary .. => False
  | .binary operator .. => operator = .realDiv

theorem kind_eq_real_iff {e : Expression} :
    e.kind kinds = .real ↔ ∃ part ∈ e.parts, part.BringsReal kinds := by
  induction e with
  | constant value line => simp [kind, parts, BringsReal]
  | read used =>
    cases hkind : kinds.get? used.name <;> simp [kind, parts, BringsReal, hkind]
  | unary sign operand line induct =>
    simp [kind, parts, BringsReal, List.mem_append, or_and_right, exists_or, induct]
  | binary operator left right line inductLeft inductRight =>
    rw [kind, Operator.kind_eq_real_iff, inductLeft, inductRight]
    simp only [parts, List.mem_append, List.mem_singleton, or_and_right, exists_or, exists_eq_left,
      BringsReal]
    rw [or_comm]

theorem kind_of_eval {store : Store} {e : Expression} {v : Value} (hvalue : e.eval store = .ok v) :
    v.kind = e.kind store.kinds := by
  induction e generalizing v with
  | constant value line =>
    cases hvalue
    rfl
  | read used =>
    rw [eval] at hvalue
    rw [kind, Store.kinds, Table.get?_map]
    cases hheld : store.get? used.name with
    | none =>
      rw [hheld] at hvalue
      cases hvalue
    | some held =>
      rw [hheld] at hvalue
      cases hvalue
      rfl
  | unary sign operand line induct =>
    rw [eval] at hvalue
    obtain ⟨w, hoperand, hvalue⟩ := exists_of_bind_ok hvalue
    rw [kind, ← induct hoperand]
    exact Sign.kind_of_apply hvalue
  | binary operator left right line inductLeft inductRight =>
    rw [eval] at hvalue
    obtain ⟨first, hleft, hvalue⟩ := exists_of_bind_ok hvalue
    obtain ⟨second, hright, hvalue⟩ := exists_of_bind_ok hvalue
    rw [kind, ← inductLeft hleft, ← inductRight hright]
    exact Operator.kind_of_apply hvalue

end Expression

/-! ### Runs -/

/-- The kinds behind an assignment, given those before it. -/
def Assignment.kindsAfter (kinds : Table Scalar) (assignment : Assignment) : Table Scalar :=
  kinds.insert assignment.target.name (assignment.value.kind kinds)

/-- The kinds of the variables that the body of a program assigns, without a value of any. -/
def Program.kinds (p : Program) : Table Scalar :=
  (Statement.assignmentsAll p.block.body).foldl Assignment.kindsAfter Table.empty

theorem Store.kinds_afterAll {store later : Store} {assignments : List Assignment}
    (hafter : store.afterAll assignments = .ok later) :
    later.kinds = assignments.foldl Assignment.kindsAfter store.kinds := by
  induction assignments generalizing store with
  | nil =>
    cases hafter
    rfl
  | cons first others induct =>
    rw [afterAll_cons] at hafter
    obtain ⟨v, hvalue, hothers⟩ := exists_of_bind_ok hafter
    have hfirst : Store.kinds (store.insert first.target.name v) =
        first.kindsAfter store.kinds := by
      rw [kinds, Table.map_insert, Expression.kind_of_eval hvalue, Assignment.kindsAfter, kinds]
    rw [induct hothers, hfirst, List.foldl_cons]

/-- Values are reals where their expressions bring reals in and integers elsewhere, and the
variables behind a run have the kinds that the pass over its assignments finds. -/
theorem kind_is_decided_by_tree :
    (∀ (e : Expression) (store : Store) (v : Value), e.eval store = .ok v →
      ((∃ r, v = .real r) ↔ ∃ part ∈ e.parts, part.BringsReal store.kinds) ∧
      ((∃ n, v = .integer n) ↔ ¬ ∃ part ∈ e.parts, part.BringsReal store.kinds)) ∧
    ∀ (p : Program) (store : Store), (Report.ofRun (Run.program p)).outcome = .ok store →
      store.kinds = p.kinds := by
  constructor
  · intro e store v hvalue
    have hkind : v.kind = .real ↔ ∃ part ∈ e.parts, part.BringsReal store.kinds := by
      rw [Expression.kind_of_eval hvalue, Expression.kind_eq_real_iff]
    cases v with
    | integer n =>
      have hnone : ¬ ∃ part ∈ e.parts, part.BringsReal store.kinds := mt hkind.2 nofun
      exact ⟨iff_of_false nofun hnone, iff_of_true ⟨n, rfl⟩ hnone⟩
    | real r =>
      have hsome := hkind.1 rfl
      exact ⟨iff_of_true ⟨r, rfl⟩ hsome, iff_of_false nofun (not_not_intro hsome)⟩
  · intro p store hstore
    rw [outcome_program] at hstore
    cases hfinal : p.final with
    | error fault =>
      rw [hfinal] at hstore
      cases hstore
    | ok later =>
      rw [hfinal] at hstore
      cases hstore
      exact Store.kinds_afterAll hfinal

/-- `z` holds a real, so `y // z` is one, which `x // 2` is not. -/
theorem kind_is_decided_by_tree_promoted :
    let number (n : Int64) : Expression := .constant (.integer n) 1
    let x : Expression := .read ⟨"x", 1⟩
    let quotient : Expression := .binary .floorDiv (.read ⟨"y", 1⟩) (.read ⟨"z", 1⟩) 1
    let assign (name : String) (value : Expression) : Statement := .assign ⟨name, 1⟩ value 1
    let p : Program := ⟨"p", 1, [], [assign "x" (number 7),
      .compound [assign "y" (.binary .floorDiv x (number 2) 1),
        assign "z" (.unary .minus (.binary .realDiv x (number 2) 1) 1)],
      assign "x" quotient]⟩
    let store : Store := ⟨[("x", .real (-1.0)), ("y", .integer 3), ("z", .real (-3.5))]⟩
    (Report.ofRun (Run.program p)).outcome = .ok store ∧ store.kinds = p.kinds ∧
      p.kinds = ⟨[("x", .real), ("y", .integer), ("z", .real)]⟩ ∧
      quotient.eval store = .ok (.real (-1.0)) ∧
      ∃ part ∈ quotient.parts, part.BringsReal store.kinds := by
  intro number x quotient assign p store
  have hstore : (Report.ofRun (Run.program p)).outcome = .ok store := by decide +kernel
  have hvalue : quotient.eval store = .ok (.real (-1.0)) := by decide +kernel
  exact ⟨hstore, kind_is_decided_by_tree.2 p store hstore, by decide +kernel, hvalue,
    (kind_is_decided_by_tree.1 quotient store _ hvalue).1.1 ⟨_, rfl⟩⟩

end MiniPascal
