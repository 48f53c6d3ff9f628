import MiniPascal.Proofs.Scope.Agreement

/-!
# The operations of a walk

A walk acts on the open scopes through six operations, each on one scope that it names by its index.
On an open scope an operation always succeeds, and for each there is one lemma with its answer, the
scopes that it leaves and what it records (`Walk.push_of_scope` and the like). On a scope that is
not open it fails and changes nothing (`Operation.perform_of_closed`).
-/

set_option autoImplicit false
set_option relaxedAutoImplicit false

namespace MiniPascal

namespace Walk

variable {id : ScopeId} {here : Scope} {walker : Walker}

theorem scope_of_scope (hhere : walker.scopes.scope? id = some here) :
    scope id walker = .ok here walker := by
  rw [scope_eq, hhere]

theorem push_of_scope (hhere : walker.scopes.scope? id = some here) (name : String) :
    push name id walker = .ok walker.scopes.live.length
      ⟨walker.scopes.opened ⟨name, here.level + 1, some id, Table.empty⟩,
        walker.log.push (.entered name (here.level + 1))⟩ :=
  bind_of_ok (scope_of_scope hhere)

theorem pop_of_scope (hhere : walker.scopes.scope? id = some here) :
    pop id walker = .ok here.enclosing
      ⟨walker.scopes.closed id, walker.log.push (.left here.name here.level)⟩ :=
  bind_of_ok (scope_of_scope hhere)

theorem define_of_scope (hhere : walker.scopes.scope? id = some here) (symbol : Symbol) :
    define id symbol walker = .ok ()
      ⟨walker.scopes.defined id symbol, walker.log.push (.defined symbol here.name)⟩ :=
  bind_of_ok (scope_of_scope hhere)

theorem lookupOnly_of_scope (hhere : walker.scopes.scope? id = some here) (name : String) :
    lookupOnly id name walker = .ok (here.get? name)
      ⟨walker.scopes, walker.log.push (.soughtOnly name here.name)⟩ :=
  bind_of_ok (scope_of_scope hhere)

theorem forM_record (event : Scope → Event) (visited : List Scope) (walker : Walker) :
    visited.forM (fun scope ↦ record (event scope)) walker =
      .ok () ⟨walker.scopes, walker.log ++ (visited.map event).toArray⟩ := by
  induction visited generalizing walker with
  | nil => simp [pure, EStateM.pure]
  | cons first others induct =>
    have hfirst : record (event first) walker =
        .ok () ⟨walker.scopes, walker.log.push (event first)⟩ := rfl
    refine (bind_of_ok hfirst).trans ((induct _).trans ?_)
    simp

theorem resolve_of_scope (hhere : walker.scopes.scope? id = some here) (name : String) :
    resolve id name walker = .ok (walker.scopes.resolve id name)
      ⟨walker.scopes, walker.log ++
        ((walker.scopes.searched id name).map fun scope ↦ Event.sought name scope.name).toArray⟩ :=
  (bind_of_ok (scope_of_scope hhere)).trans
    (bind_of_ok (forM_record (fun scope ↦ .sought name scope.name) _ walker))

end Walk

/-! ### Operations as data -/

/-- One operation of a walk. -/
inductive Operation where
  | scope (id : ScopeId)
  | push (name : String) (enclosing : ScopeId)
  | pop (id : ScopeId)
  | define (id : ScopeId) (symbol : Symbol)
  | lookupOnly (id : ScopeId) (name : String)
  | resolve (id : ScopeId) (name : String)

namespace Operation

/-- The scope on which the operation acts. -/
def target : Operation → ScopeId
  | scope id => id
  | push _ enclosing => enclosing
  | pop id => id
  | define id _ => id
  | lookupOnly id _ => id
  | resolve id _ => id

def Answer : Operation → Type
  | scope _ => Scope
  | push _ _ => ScopeId
  | pop _ => Option ScopeId
  | define _ _ => Unit
  | lookupOnly _ _ => Option Symbol
  | resolve _ _ => Option Resolved

def perform : (operation : Operation) → Walk operation.Answer
  | scope id => Walk.scope id
  | push name enclosing => Walk.push name enclosing
  | pop id => Walk.pop id
  | define id symbol => Walk.define id symbol
  | lookupOnly id name => Walk.lookupOnly id name
  | resolve id name => Walk.resolve id name

theorem perform_of_closed {operation : Operation} {walker : Walker}
    (hclosed : walker.scopes.scope? operation.target = none) :
    operation.perform walker = .error (.closed operation.target) walker := by
  have hscope : Walk.scope operation.target walker = .error (.closed operation.target) walker := by
    rw [Walk.scope_eq, hclosed]
  cases operation with
  | scope id => exact hscope
  | push | pop | define | lookupOnly | resolve => exact bind_of_error hscope

/-- An operation that succeeds acts on an open scope. -/
theorem exists_scope_of_ok {operation : Operation} {answer : operation.Answer}
    {before later : Walker} (hok : operation.perform before = .ok answer later) :
    ∃ here, before.scopes.scope? operation.target = some here := by
  rw [← Option.ne_none_iff_exists']
  intro hclosed
  rw [perform_of_closed hclosed] at hok
  cases hok

/-- What an operation on an open scope leaves. -/
theorem perform_of_scope {operation : Operation} {walker : Walker} {here : Scope}
    (hhere : walker.scopes.scope? operation.target = some here) :
    ∃ answer later, operation.perform walker = .ok answer later := by
  cases operation with
  | scope id => exact ⟨_, _, Walk.scope_of_scope hhere⟩
  | push name id => exact ⟨_, _, Walk.push_of_scope hhere name⟩
  | pop id => exact ⟨_, _, Walk.pop_of_scope hhere⟩
  | define id symbol => exact ⟨_, _, Walk.define_of_scope hhere symbol⟩
  | lookupOnly id name => exact ⟨_, _, Walk.lookupOnly_of_scope hhere name⟩
  | resolve id name => exact ⟨_, _, Walk.resolve_of_scope hhere name⟩

end Operation

end MiniPascal
