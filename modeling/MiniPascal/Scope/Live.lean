import MiniPascal.Scope.Symbol
import MiniPascal.Table

/-!
The scopes that are open, and how names are found in them.

Open scopes stand in a list, and a scope is named by its index. Each scope but the outermost is
enclosed in another one; `Scopes.chain` follows these links outward, and `Scopes.resolve` takes the
first symbol on the way. `Scopes.scope?_opened`, `Scopes.scope?_closed` and `Scopes.scope?_defined`
say what each change leaves at each index, and `Scopes.chain_congr` that a chain is not changed by
what happens behind its first scope.
-/

set_option autoImplicit false
set_option relaxedAutoImplicit false

namespace MiniPascal

/-- The index of an open scope. -/
abbrev ScopeId := Nat

structure Scope where
  name : String
  /-- How many scopes enclose this one. -/
  level : Nat
  enclosing : Option ScopeId
  symbols : Table Symbol
  deriving DecidableEq, Repr

namespace Scope

def get? (scope : Scope) (name : String) : Option Symbol := scope.symbols.get? name

/-- Files a symbol under its name, in place of an earlier one. -/
def insert (scope : Scope) (symbol : Symbol) : Scope :=
  { scope with symbols := scope.symbols.insert symbol.name symbol }

theorem get?_insert (scope : Scope) (symbol : Symbol) (name : String) :
    (scope.insert symbol).get? name = if name = symbol.name then some symbol else scope.get? name :=
  Table.get?_insert scope.symbols symbol.name symbol name

end Scope

/-- A symbol with the level of the scope that holds it. -/
structure Resolved where
  symbol : Symbol
  level : Nat
  deriving DecidableEq, Repr

/-- The open scopes, in the order of their indices. -/
structure Scopes where
  live : List Scope
  deriving DecidableEq, Repr

namespace Scopes

/-- The index of the scope that holds the scalar types. -/
def builtinsId : ScopeId := 0

/-- The scalar types alone. -/
def builtins : Scopes :=
  ⟨[((⟨"builtins", 0, none, Table.empty⟩ : Scope).insert (.scalar .integer)).insert
    (.scalar .real)]⟩

def scope? (scopes : Scopes) (id : ScopeId) : Option Scope := scopes.live[id]?

/-- The scope itself, the scope that encloses it, and so on outward. Links lead to smaller indices;
one that does not ends the chain. -/
def chain (scopes : Scopes) (id : ScopeId) : List Scope :=
  match scopes.scope? id with
  | none => []
  | some scope =>
    match scope.enclosing with
    | none => [scope]
    | some outer => if _hinward : outer < id then scope :: scopes.chain outer else [scope]
termination_by id

/-- The innermost symbol of a name, seen from a scope. -/
def resolve (scopes : Scopes) (id : ScopeId) (name : String) : Option Resolved :=
  (scopes.chain id).findSome? fun scope ↦ (scope.get? name).map (⟨·, scope.level⟩)

/-- The scopes in which `resolve` looks: up to the first that holds the name. -/
def searched (scopes : Scopes) (id : ScopeId) (name : String) : List Scope :=
  let chain := scopes.chain id
  chain.take (chain.findIdx (fun scope ↦ (scope.get? name).isSome) + 1)

/-- Adds a scope behind all others; its index is their number. -/
def opened (scopes : Scopes) (scope : Scope) : Scopes := ⟨scopes.live ++ [scope]⟩

/-- Closes a scope and every scope with a greater index. -/
def closed (scopes : Scopes) (id : ScopeId) : Scopes := ⟨scopes.live.take id⟩

/-- Files a symbol in one scope. -/
def defined (scopes : Scopes) (id : ScopeId) (symbol : Symbol) : Scopes :=
  ⟨scopes.live.modify id (·.insert symbol)⟩

theorem scope?_opened (scopes : Scopes) (scope : Scope) (id : ScopeId) :
    (scopes.opened scope).scope? id =
      if id = scopes.live.length then some scope else scopes.scope? id := by
  simp only [scope?, opened]
  rcases Nat.lt_trichotomy id scopes.live.length with hinside | hlast | hbeyond
  · rw [List.getElem?_append_left hinside, if_neg (Nat.ne_of_lt hinside)]
  · simp [hlast]
  · rw [if_neg (Nat.ne_of_gt hbeyond), List.getElem?_eq_none (by simp; omega),
      List.getElem?_eq_none (Nat.le_of_lt hbeyond)]

theorem scope?_closed (scopes : Scopes) (closing id : ScopeId) :
    (scopes.closed closing).scope? id = if id < closing then scopes.scope? id else none := by
  simp [scope?, closed, List.getElem?_take]

theorem scope?_defined (scopes : Scopes) (target : ScopeId) (symbol : Symbol) (id : ScopeId) :
    (scopes.defined target symbol).scope? id =
      if target = id then (scopes.scope? id).map (·.insert symbol) else scopes.scope? id := by
  simp only [scope?, defined, List.getElem?_modify]
  split <;> simp

theorem scope?_opened_of_lt {scopes : Scopes} {scope : Scope} {id : ScopeId}
    (hinside : id < scopes.live.length) : (scopes.opened scope).scope? id = scopes.scope? id := by
  rw [scope?_opened, if_neg (Nat.ne_of_lt hinside)]

section

variable {scopes later : Scopes} {id outer : ScopeId} {here : Scope}

theorem chain_of_closed (hclosed : scopes.scope? id = none) : scopes.chain id = [] := by
  rw [chain, hclosed]

theorem chain_of_outermost (hfound : scopes.scope? id = some here)
    (houtermost : here.enclosing = none) : scopes.chain id = [here] := by
  rw [chain]
  simp only [hfound, houtermost]

theorem chain_of_inside (hfound : scopes.scope? id = some here)
    (hinside : here.enclosing = some outer) :
    scopes.chain id = here :: if outer < id then scopes.chain outer else [] := by
  rw [chain]
  simp only [hfound, hinside]
  by_cases hinward : outer < id
  · simp only [hinward, dif_pos, if_pos]
  · simp only [hinward, dif_neg, if_neg, not_false_iff]

/-- A chain depends on the scopes up to the index where it begins only. -/
theorem chain_congr (hall : ∀ other ≤ id, later.scope? other = scopes.scope? other) :
    later.chain id = scopes.chain id := by
  induction id using Nat.strongRecOn with
  | ind id induct =>
    have hsame := hall id (Nat.le_refl id)
    cases hfound : scopes.scope? id with
    | none => rw [chain_of_closed hfound, chain_of_closed (hsame.trans hfound)]
    | some here =>
      have hlater := hsame.trans hfound
      cases hlink : here.enclosing with
      | none => rw [chain_of_outermost hfound hlink, chain_of_outermost hlater hlink]
      | some outer =>
        rw [chain_of_inside hfound hlink, chain_of_inside hlater hlink]
        by_cases hinward : outer < id
        · rw [induct outer hinward fun other hfront ↦
            hall other (Nat.le_trans hfront (Nat.le_of_lt hinward))]
        · rw [if_neg hinward, if_neg hinward]

end

end Scopes

end MiniPascal
