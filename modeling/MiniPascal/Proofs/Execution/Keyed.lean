import MiniPascal.Proofs.Execution.Assignments

/-!
# Running with a store for declarations

The store of a run knows variables by their bare names. A `KeyedStore` knows them by name and level,
that is, by their declarations, and `Keyed.statements` runs a body on one: each name is resolved
where it is read or written, and a name that cannot be resolved is a fault.

`Keyed.statements_eq`: where all names of a body resolve to their own name at level 1, the bare
names are enough. Both runs have the same outcome, and the same values under corresponding keys.
-/

set_option autoImplicit false
set_option relaxedAutoImplicit false

namespace MiniPascal

/-- A declared name with the level of its declaration. -/
abbrev Key := String × Nat

abbrev KeyedStore := Key → Option Value

namespace KeyedStore

def empty : KeyedStore := fun _ ↦ none

def insert (store : KeyedStore) (key : Key) (value : Value) : KeyedStore :=
  fun other ↦ if other = key then some value else store other

end KeyedStore

namespace Keyed

variable (key? : String → Option Key)

/-- The key of a name in a statement. -/
def key (mention : Mention) : Except Fault Key :=
  match key? mention.name with
  | some key => .ok key
  | none => .error (.scope (.unresolved mention.name mention.line))

def eval (store : KeyedStore) : Expression → Except Fault Value
  | .constant value _ => .ok value
  | .read mention => do
    match store (← key key? mention) with
    | some value => .ok value
    | none => .error (.run (.undefinedVariable mention.name mention.line))
  | .unary sign operand line => do
    let value ← eval store operand
    (sign.apply value line).mapError .run
  | .binary operator left right line => do
    let first ← eval store left
    let second ← eval store right
    (operator.apply first second line).mapError .run

mutual

def statement (store : KeyedStore) : Statement → Except Fault KeyedStore
  | .compound inner => statements store inner
  | .assign target value _ => do
    let value ← eval key? store value
    return store.insert (← key key? target) value
  | .empty => .ok store

def statements (store : KeyedStore) : List Statement → Except Fault KeyedStore
  | [] => .ok store
  | first :: others => do statements (← statement store first) others

end

end Keyed

/-- A store of bare names as the store of the declarations at level 1. -/
def Store.keyed (store : Store) : KeyedStore :=
  fun (name, level) ↦ if level = 1 then store.get? name else none

theorem Store.keyed_empty : Store.keyed Table.empty = KeyedStore.empty := by
  funext key
  exact ite_self none

theorem Store.keyed_insert (store : Store) (name : String) (value : Value) :
    Store.keyed (store.insert name value) = store.keyed.insert (name, 1) value := by
  funext ⟨other, level⟩
  simp only [keyed, KeyedStore.insert, Table.get?_insert, Prod.mk.injEq]
  split <;> split <;> simp_all

namespace Keyed

variable {key? : String → Option Key} {store : Store}

theorem key_eq {mention : Mention} (hkey : key? mention.name = some (mention.name, 1)) :
    key key? mention = .ok (mention.name, 1) := by
  rw [key, hkey]

theorem eval_eq {e : Expression}
    (hkeys : ∀ used ∈ e.mentions, key? used.name = some (used.name, 1)) :
    eval key? store.keyed e = (e.eval store).mapError .run := by
  induction e with
  | constant value line => rfl
  | read mention =>
    rw [eval, key_eq (hkeys mention (List.mem_singleton_self _)), Expression.eval]
    change (match store.get? mention.name with | some value => _ | none => _) = _
    cases store.get? mention.name <;> rfl
  | unary sign operand line induct =>
    rw [eval, induct hkeys, Expression.eval]
    cases operand.eval store <;> rfl
  | binary operator left right line inductLeft inductRight =>
    obtain ⟨hleft, hright⟩ := List.forall_mem_append.1 hkeys
    rw [eval, inductLeft hleft, inductRight hright, Expression.eval]
    cases left.eval store with
    | error fault => rfl
    | ok first => cases right.eval store <;> rfl

mutual

theorem statement_eq (s : Statement) (store : Store)
    (hkeys : ∀ used ∈ s.mentions, key? used.name = some (used.name, 1)) :
    statement key? store.keyed s =
      ((store.afterAll s.assignments).map Store.keyed).mapError .run := by
  cases s with
  | compound inner =>
    rw [statement, Statement.assignments]
    exact statements_eq inner store hkeys
  | assign target value line =>
    obtain ⟨htarget, hvalue⟩ := List.forall_mem_cons.1 hkeys
    rw [statement, eval_eq hvalue, key_eq htarget, Statement.assignments, Store.afterAll_cons]
    cases value.eval store with
    | error fault => rfl
    | ok v => exact congrArg Except.ok (store.keyed_insert target.name v).symm
  | empty => rfl

/-- The keyed run of a body has the outcome of the bare one. -/
theorem statements_eq (ss : List Statement) (store : Store)
    (hkeys : ∀ used ∈ Statement.mentionsAll ss, key? used.name = some (used.name, 1)) :
    statements key? store.keyed ss =
      ((store.afterAll (Statement.assignmentsAll ss)).map Store.keyed).mapError .run := by
  cases ss with
  | nil => rfl
  | cons first others =>
    obtain ⟨hfirst, hothers⟩ := List.forall_mem_append.1 hkeys
    rw [statements, statement_eq first store hfirst, Statement.assignmentsAll,
      Store.afterAll_append]
    cases store.afterAll first.assignments with
    | error fault => rfl
    | ok later => exact statements_eq others later hothers

end

end Keyed

end MiniPascal
