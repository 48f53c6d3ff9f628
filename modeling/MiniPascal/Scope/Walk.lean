import MiniPascal.Event
import MiniPascal.Fault
import MiniPascal.Program
import MiniPascal.Scope.Live

/-!
Scope operations with a record of each step, from which the passes over a program are built.

An operation on a scope that is not open fails with `ScopeFault.closed` and has no effect. An
operation that fails otherwise keeps what it did before.
-/

set_option autoImplicit false
set_option relaxedAutoImplicit false

namespace MiniPascal

/-- The open scopes and the steps that led to them, the latest last. -/
structure Walker where
  scopes : Scopes
  log : Array Event
  deriving DecidableEq, Repr

/-- A walker that has opened the scope of the scalar types. -/
def Walker.start : Walker :=
  ⟨Scopes.builtins,
    #[.entered "builtins" 0, .defined (.scalar .integer) "builtins",
      .defined (.scalar .real) "builtins"]⟩

abbrev Walk (α : Type) := EStateM ScopeFault Walker α

namespace Walk

def record (event : Event) : Walk Unit :=
  modify fun walker ↦ { walker with log := walker.log.push event }

def scope (id : ScopeId) : Walk Scope := do
  match (← get).scopes.scope? id with
  | some scope => return scope
  | none => throw (.closed id)

/-- Opens a scope inside another. -/
def push (name : String) (enclosing : ScopeId) : Walk ScopeId := do
  let outer ← scope enclosing
  let id := (← get).scopes.live.length
  record (.entered name (outer.level + 1))
  modify fun walker ↦
    { walker with
      scopes := walker.scopes.opened ⟨name, outer.level + 1, some enclosing, Table.empty⟩ }
  return id

/-- Closes a scope with all that stands behind it, and returns the scope that enclosed it. -/
def pop (id : ScopeId) : Walk (Option ScopeId) := do
  let inner ← scope id
  record (.left inner.name inner.level)
  modify fun walker ↦ { walker with scopes := walker.scopes.closed id }
  return inner.enclosing

/-- Files a symbol, whether or not its name is taken. -/
def define (id : ScopeId) (symbol : Symbol) : Walk Unit := do
  record (.defined symbol (← scope id).name)
  modify fun walker ↦ { walker with scopes := walker.scopes.defined id symbol }

/-- The symbol of a name in one scope alone. -/
def lookupOnly (id : ScopeId) (name : String) : Walk (Option Symbol) := do
  let here ← scope id
  record (.soughtOnly name here.name)
  return here.get? name

/-- The innermost symbol of a name, seen from a scope. -/
def resolve (id : ScopeId) (name : String) : Walk (Option Resolved) := do
  let _ ← scope id
  let scopes := (← get).scopes
  (scopes.searched id name).forM fun visited ↦ record (.sought name visited.name)
  return scopes.resolve id name

/-- Files a symbol whose name is not taken in the scope. -/
def declare (id : ScopeId) (symbol : Symbol) (line : Nat) : Walk Unit := do
  match ← lookupOnly id symbol.name with
  | some _ => throw (.duplicate symbol.name line)
  | none => define id symbol

/-- The scalar type that a name stands for. -/
def resolveType (id : ScopeId) (typeName : Mention) : Walk Scalar := do
  match ← resolve id typeName.name with
  | some ⟨.scalar type, _⟩ => return type
  | _ => throw (.unresolved typeName.name typeName.line)

/-- What a name in a statement stands for. -/
def resolveMention (id : ScopeId) (mention : Mention) : Walk Resolved := do
  match ← resolve id mention.name with
  | some resolved => return resolved
  | none => throw (.unresolved mention.name mention.line)

/-- Declares a variable or parameter of the type that its declaration names. -/
def declareVariable (id : ScopeId) (declared : VariableDeclaration) : Walk TypedName := do
  let typed := ⟨declared.mention.name, ← resolveType id declared.typeName⟩
  declare id (.var typed) declared.mention.line
  return typed

/-- Declares a procedure and opens its scope with its parameters. The name is filed first, so that
the parameters and the body can see it, and once more when the parameters are known. -/
def openProcedure (id : ScopeId) (heading : Heading) : Walk (ScopeId × List TypedName) := do
  declare id (.procedure heading.name []) heading.line
  let inner ← push heading.name id
  let parameters ← heading.parameters.mapM (declareVariable inner)
  define id (.procedure heading.name parameters)
  return (inner, parameters)

end Walk

end MiniPascal
