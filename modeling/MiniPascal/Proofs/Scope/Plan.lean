import MiniPascal.Proofs.Scope.Operation
import MiniPascal.Proofs.Script

/-!
# Walks operation by operation

A walk is known by what it makes of the open scopes in all. A `Plan` is a walk as data, a script
whose requests are the operations on the scopes. Performing a plan is a walk (`Plan.perform`), and
`Plan.Meets` says to which operations it comes on the way, and in which state each of them finds
the scopes.

`Plan.Throughout` is proved of a plan part by part (`Throughout.bind`). It says what holds at every
operation on the way (`Throughout.of_meets`), and where the plan succeeds or fails
(`Throughout.of_ok`, `Throughout.of_error`). That each operation is on an open scope is part of it,
so no operation fails, and a plan fails only where it refuses.
-/

set_option autoImplicit false
set_option relaxedAutoImplicit false

namespace MiniPascal

abbrev Plan : Type → Type := Script Operation Operation.Answer ScopeFault

namespace Plan

variable {α β : Type}

def refuse (fault : ScopeFault) : Plan α := .done (.error fault)

def perform (plan : Plan α) : Walk α := Script.perform Operation.perform plan

/-- On the way of the plan the operation is performed in this state. -/
def Meets (plan : Plan α) (walker : Walker) (operation : Operation) (moment : Walker) : Prop :=
  ∃ next, Script.Reaches Operation.perform plan walker (.step operation next) moment

@[simp] theorem perform_pure (value : α) : (pure value : Plan α).perform = pure value := rfl

@[simp] theorem perform_bind (first : Plan α) (second : α → Plan β) :
    (first >>= second).perform = first.perform >>= fun value ↦ (second value).perform :=
  Script.perform_bind first second

/-- An operation by itself. -/
def single (operation : Operation) : Plan operation.Answer := Script.single operation

theorem perform_single (operation : Operation) :
    (single operation).perform = operation.perform :=
  Script.perform_single operation

/-! ### What holds throughout a plan -/

/-- What is due where a plan ends: a value is as it should be, and no fault is about a closed
scope. -/
def Due (post : α → Walker → Prop) : Except ScopeFault α → Walker → Prop
  | .ok value, walker => post value walker
  | .error fault, _ => ∀ id, fault ≠ .closed id

/-- At each operation, and where the plan ends, something always holds, and each operation is on an
open scope. A value that the plan yields is besides as it should be. -/
def Throughout (always : Walker → Prop) (post : α → Walker → Prop) (plan : Plan α)
    (walker : Walker) : Prop :=
  Script.Throughout Operation.perform always (fun operation ↦ Walk.Live operation.target)
    (Due post) plan walker

namespace Throughout

variable {always : Walker → Prop} {post : α → Walker → Prop} {post' : β → Walker → Prop}
  {plan : Plan α} {walker later : Walker}

theorem of_meets {operation : Operation} {moment : Walker}
    (hplan : plan.Throughout always post walker) (hmeets : plan.Meets walker operation moment) :
    always moment ∧ Walk.Live operation.target moment := by
  obtain ⟨next, hreaches⟩ := hmeets
  obtain ⟨hnow, hlive, -⟩ := Script.Throughout.of_reaches hplan hreaches
  exact ⟨hnow, hlive⟩

theorem of_ok {value : α} (hplan : plan.Throughout always post walker)
    (hok : plan.perform walker = .ok value later) : always later ∧ post value later :=
  Script.Throughout.of_ok hplan hok

theorem of_error {fault : ScopeFault} (hplan : plan.Throughout always post walker)
    (herror : plan.perform walker = .error fault later) :
    always later ∧ ∀ id, fault ≠ .closed id := by
  rcases Script.Throughout.of_error hplan herror with hend | ⟨operation, moment, hlive, hfails⟩
  · exact hend
  · -- An operation on an open scope succeeds.
    have hhere : moment.scopes.scope? operation.target = some _ := List.getElem?_eq_getElem hlive
    obtain ⟨answer, between, hok⟩ := Operation.perform_of_scope hhere
    cases hok.symm.trans hfails

theorem mono {wider : α → Walker → Prop} (hplan : plan.Throughout always post walker)
    (hwider : ∀ value later, post value later → wider value later) :
    plan.Throughout always wider walker := by
  refine Script.Throughout.mono hplan (fun _ ↦ id) fun outcome later hdue ↦ ?_
  cases outcome with
  | ok value => exact hwider value later hdue
  | error fault => exact hdue

theorem refuse {fault : ScopeFault} (halways : always walker) (hopen : ∀ id, fault ≠ .closed id) :
    (Plan.refuse fault : Plan α).Throughout always post walker :=
  ⟨halways, hopen⟩

theorem pure {value : α} (halways : always walker) (hpost : post value walker) :
    (Pure.pure value : Plan α).Throughout always post walker :=
  ⟨halways, hpost⟩

theorem bind {second : α → Plan β} (hfirst : plan.Throughout always post walker)
    (hsecond : ∀ value later, post value later →
      (second value).Throughout always post' later) :
    (plan >>= second).Throughout always post' walker :=
  Script.Throughout.bind hfirst (fun _ ↦ id) (fun value later _ ↦ hsecond value later)
    fun _ _ hopen ↦ hopen

/-- What follows may only change the value. -/
theorem map {change : α → β} (hplan : plan.Throughout always post walker)
    (hchange : ∀ value later, post value later → post' (change value) later) :
    (plan >>= fun value ↦ Pure.pure (change value)).Throughout always post' walker :=
  Script.Throughout.bind hplan (fun _ ↦ id)
    (fun value later halways hpost ↦ pure halways (hchange value later hpost))
    fun _ _ hopen ↦ hopen

theorem single {operation : Operation} {answer : operation.Answer}
    {post : operation.Answer → Walker → Prop} {here : Scope} (halways : always walker)
    (hhere : walker.scopes.scope? operation.target = some here)
    (hok : operation.perform walker = .ok answer later) (hlater : always later)
    (hpost : post answer later) : (Plan.single operation).Throughout always post walker :=
  Script.Throughout.single halways (List.getElem?_eq_some_iff.1 hhere).1 hok hlater hpost

end Throughout

/-! ### Plans of the shared operations -/

def scope (id : ScopeId) : Plan Scope := single (.scope id)

def push (name : String) (enclosing : ScopeId) : Plan ScopeId := single (.push name enclosing)

def pop (id : ScopeId) : Plan (Option ScopeId) := single (.pop id)

def define (id : ScopeId) (symbol : Symbol) : Plan Unit := single (.define id symbol)

def lookupOnly (id : ScopeId) (name : String) : Plan (Option Symbol) :=
  single (.lookupOnly id name)

def resolve (id : ScopeId) (name : String) : Plan (Option Resolved) := single (.resolve id name)

def declare (id : ScopeId) (symbol : Symbol) (line : Nat) : Plan Unit := do
  match ← lookupOnly id symbol.name with
  | some _ => refuse (.duplicate symbol.name line)
  | none => define id symbol

def resolveType (id : ScopeId) (typeName : Mention) : Plan Scalar := do
  match ← resolve id typeName.name with
  | some ⟨.scalar type, _⟩ => return type
  | _ => refuse (.unresolved typeName.name typeName.line)

def resolveMention (id : ScopeId) (mention : Mention) : Plan Resolved := do
  match ← resolve id mention.name with
  | some resolved => return resolved
  | none => refuse (.unresolved mention.name mention.line)

def declareVariable (id : ScopeId) (declared : VariableDeclaration) : Plan TypedName := do
  let type ← resolveType id declared.typeName
  declare id (.var ⟨declared.mention.name, type⟩) declared.mention.line
  return ⟨declared.mention.name, type⟩

def declareVariables (id : ScopeId) : List VariableDeclaration → Plan (List TypedName)
  | [] => return []
  | first :: others => do
    let typed ← declareVariable id first
    return typed :: (← declareVariables id others)

def openProcedure (id : ScopeId) (heading : Heading) : Plan (ScopeId × List TypedName) := do
  declare id (.procedure heading.name []) heading.line
  let inner ← push heading.name id
  let parameters ← declareVariables inner heading.parameters
  define id (.procedure heading.name parameters)
  return (inner, parameters)

@[simp] theorem perform_scope (id : ScopeId) : (scope id).perform = Walk.scope id :=
  perform_single (.scope id)

@[simp] theorem perform_push (name : String) (enclosing : ScopeId) :
    (push name enclosing).perform = Walk.push name enclosing :=
  perform_single (.push name enclosing)

@[simp] theorem perform_pop (id : ScopeId) : (pop id).perform = Walk.pop id :=
  perform_single (.pop id)

@[simp] theorem perform_define (id : ScopeId) (symbol : Symbol) :
    (define id symbol).perform = Walk.define id symbol :=
  perform_single (.define id symbol)

@[simp] theorem perform_lookupOnly (id : ScopeId) (name : String) :
    (lookupOnly id name).perform = Walk.lookupOnly id name :=
  perform_single (.lookupOnly id name)

@[simp] theorem perform_resolve (id : ScopeId) (name : String) :
    (resolve id name).perform = Walk.resolve id name :=
  perform_single (.resolve id name)

@[simp] theorem perform_declare (id : ScopeId) (symbol : Symbol) (line : Nat) :
    (declare id symbol line).perform = Walk.declare id symbol line := by
  rw [declare, perform_bind, perform_lookupOnly, Walk.declare]
  refine congrArg _ (funext fun found ↦ ?_)
  cases found with
  | none => exact perform_define id symbol
  | some other => rfl

@[simp] theorem perform_resolveType (id : ScopeId) (typeName : Mention) :
    (resolveType id typeName).perform = Walk.resolveType id typeName := by
  rw [resolveType, perform_bind, perform_resolve, Walk.resolveType]
  refine congrArg _ (funext fun found ↦ ?_)
  rcases found with _ | ⟨symbol, level⟩
  · rfl
  · cases symbol <;> rfl

@[simp] theorem perform_resolveMention (id : ScopeId) (mention : Mention) :
    (resolveMention id mention).perform = Walk.resolveMention id mention := by
  rw [resolveMention, perform_bind, perform_resolve, Walk.resolveMention]
  refine congrArg _ (funext fun found ↦ ?_)
  cases found <;> rfl

@[simp] theorem perform_declareVariable (id : ScopeId) (declared : VariableDeclaration) :
    (declareVariable id declared).perform = Walk.declareVariable id declared := by
  simp only [declareVariable, perform_bind, perform_resolveType, perform_declare, perform_pure,
    Walk.declareVariable]

@[simp] theorem perform_declareVariables (id : ScopeId) (declared : List VariableDeclaration) :
    (declareVariables id declared).perform = declared.mapM (Walk.declareVariable id) := by
  induction declared with
  | nil => rfl
  | cons first others induct =>
    simp only [declareVariables, perform_bind, perform_declareVariable, perform_pure, induct,
      List.mapM_cons]

@[simp] theorem perform_openProcedure (id : ScopeId) (heading : Heading) :
    (openProcedure id heading).perform = Walk.openProcedure id heading := by
  simp only [openProcedure, perform_bind, perform_declare, perform_push, perform_declareVariables,
    perform_define, perform_pure, Walk.openProcedure]

end Plan

end MiniPascal
