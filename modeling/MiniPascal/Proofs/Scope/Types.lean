import MiniPascal.Proofs.Action
import MiniPascal.Scope.Walk
import Mathlib.Data.List.Forall2

/-!
# Type names in open scopes

No scope holds anything else than the scalar type under the name of a scalar type: the builtins hold
just these, and the symbols that are filed later have other names. A walk keeps this
(`TypesKept`), so a declaration gets the type that it names.
-/

set_option autoImplicit false
set_option relaxedAutoImplicit false

namespace MiniPascal

/-- The name of a type stands for that type in every open scope that holds it. -/
def TypesKept (scopes : Scopes) : Prop :=
  ∀ scope ∈ scopes.live, ∀ (type : Scalar) (symbol : Symbol),
    scope.get? type.name = some symbol → symbol = .scalar type

/-- A name that is not the name of a type. -/
def Untyped (name : String) : Prop := ∀ type : Scalar, name ≠ type.name

namespace TypesKept

variable {scopes : Scopes}

theorem builtins : TypesKept Scopes.builtins := by
  intro scope hmem type symbol hget
  obtain rfl := List.mem_singleton.1 hmem
  rw [Scope.get?_insert, Scope.get?_insert] at hget
  cases type with
  | integer =>
    rw [if_neg (by decide), if_pos (by decide)] at hget
    exact (Option.some.inj hget).symm
  | real =>
    rw [if_pos (by decide)] at hget
    exact (Option.some.inj hget).symm

theorem opened (hkept : TypesKept scopes) (name : String) (level : Nat)
    (enclosing : Option ScopeId) :
    TypesKept (scopes.opened ⟨name, level, enclosing, Table.empty⟩) := by
  intro scope hmem type symbol hget
  rcases List.mem_append.1 hmem with hmem | hmem
  · exact hkept scope hmem type symbol hget
  · obtain rfl := List.mem_singleton.1 hmem
    cases hget

theorem closed (hkept : TypesKept scopes) (id : ScopeId) : TypesKept (scopes.closed id) :=
  fun scope hmem ↦ hkept scope (List.mem_of_mem_take hmem)

theorem defined (hkept : TypesKept scopes) (id : ScopeId) {symbol : Symbol}
    (hname : Untyped symbol.name) : TypesKept (scopes.defined id symbol) := by
  intro scope hmem type found hget
  obtain ⟨i, hi, rfl⟩ := List.mem_iff_getElem.1 hmem
  simp only [Scopes.defined, List.length_modify] at hi
  simp only [Scopes.defined, List.getElem_modify] at hget
  have hlive : scopes.live[i] ∈ scopes.live := List.getElem_mem hi
  split at hget
  · rw [Scope.get?_insert, if_neg (hname type).symm] at hget
    exact hkept _ hlive type found hget
  · exact hkept _ hlive type found hget

end TypesKept

namespace Scopes

theorem mem_live_of_chain {scopes : Scopes} {id : ScopeId} {scope : Scope}
    (hmem : scope ∈ scopes.chain id) : scope ∈ scopes.live := by
  fun_induction chain scopes id with
  | case1 => cases hmem
  | case2 id here hhere hnone =>
    obtain rfl := List.mem_singleton.1 hmem
    exact List.mem_of_getElem? hhere
  | case3 id here hhere outer hsome hinward induct =>
    rcases List.mem_cons.1 hmem with rfl | hmem
    · exact List.mem_of_getElem? hhere
    · exact induct hmem
  | case4 id here hhere =>
    obtain rfl := List.mem_singleton.1 hmem
    exact List.mem_of_getElem? hhere

/-- Where the name of a type is found, it stands for the type. -/
theorem eq_scalar_of_resolve {scopes : Scopes} (hkept : TypesKept scopes) {id : ScopeId}
    {type : Scalar} {found : Resolved} (hfound : scopes.resolve id type.name = some found) :
    found.symbol = .scalar type := by
  obtain ⟨scope, hmem, hget⟩ := List.exists_of_findSome?_eq_some hfound
  obtain ⟨symbol, hsymbol, rfl⟩ := Option.map_eq_some_iff.1 hget
  exact hkept scope (mem_live_of_chain hmem) type symbol hsymbol

end Scopes

/-! ### What walks yield -/

/-- Each value is good for the item that it comes from. -/
theorem Yields.mapM {ε σ γ β : Type} {kept : σ → Prop} {relates : γ → β → Prop} {items : List γ}
    {action : γ → EStateM ε σ β}
    (haction : ∀ item ∈ items, Yields kept (relates item) (action item)) :
    Yields kept (List.Forall₂ relates items) (items.mapM action) := by
  induction items with
  | nil => exact pure .nil
  | cons item items induct =>
    rw [List.mapM_cons]
    refine (haction item (List.mem_cons_self ..)).bind fun v hv ↦ ?_
    refine (induct fun item hmem ↦ haction item (List.mem_cons_of_mem _ hmem)).bind fun vs hvs ↦ ?_
    exact pure (.cons hv hvs)

namespace Walk

section Keeping

variable {kept : Scopes → Prop} {symbol : Symbol}

/-- To file this symbol keeps a property of the open scopes. -/
def Fits (kept : Scopes → Prop) (symbol : Symbol) : Prop :=
  ∀ scopes target, kept scopes → kept (scopes.defined target symbol)

theorem keeps_record (event : Event) :
    Yields (fun walker ↦ kept walker.scopes) (fun _ ↦ True) (record event) :=
  Yields.modify fun _ ↦ id

theorem keeps_scope (target : ScopeId) :
    Yields (fun walker ↦ kept walker.scopes) (fun _ ↦ True) (scope target) := by
  refine Yields.get fun walker _ ↦ ?_
  split
  · exact Yields.pure trivial
  · exact Yields.throw

theorem keeps_define (target : ScopeId) (hfits : Fits kept symbol) :
    Yields (fun walker ↦ kept walker.scopes) (fun _ ↦ True) (define target symbol) := by
  refine (keeps_scope target).bind fun here _ ↦ (keeps_record _).bind fun _ _ ↦ ?_
  exact Yields.modify fun walker hkept ↦ hfits walker.scopes target hkept

theorem keeps_declare (target : ScopeId) (hfits : Fits kept symbol) (line : Nat) :
    Yields (fun walker ↦ kept walker.scopes) (fun _ ↦ True) (declare target symbol line) := by
  have hlookup : Yields (fun walker ↦ kept walker.scopes) (fun _ ↦ True)
      (lookupOnly target symbol.name) :=
    (keeps_scope target).bind fun here _ ↦ (keeps_record _).bind fun _ _ ↦ Yields.pure trivial
  refine hlookup.bind fun found _ ↦ ?_
  cases found with
  | some other => exact Yields.throw
  | none => exact keeps_define target hfits

theorem keeps_resolve {good : Option Resolved → Prop} (target : ScopeId) (name : String)
    (hgood : ∀ scopes, kept scopes → good (scopes.resolve target name)) :
    Yields (fun walker ↦ kept walker.scopes) good (resolve target name) := by
  refine (keeps_scope target).bind fun _ _ ↦ Yields.get fun walker hkept ↦ ?_
  refine (Yields.forM fun visited ↦ keeps_record _).bind fun _ _ ↦ Yields.pure ?_
  exact hgood walker.scopes hkept

theorem keeps_resolveType {good : Scalar → Prop} (target : ScopeId) (typeName : Mention)
    (hgood : ∀ scopes type level, kept scopes →
      scopes.resolve target typeName.name = some ⟨.scalar type, level⟩ → good type) :
    Yields (fun walker ↦ kept walker.scopes) good (resolveType target typeName) := by
  have hresolve : Yields (fun walker ↦ kept walker.scopes)
      (fun found ↦ ∀ type level, found = some ⟨.scalar type, level⟩ → good type)
      (resolve target typeName.name) :=
    keeps_resolve target _ fun scopes hkept type level ↦ hgood scopes type level hkept
  refine hresolve.bind fun found hfound ↦ ?_
  split
  · next type level => exact Yields.pure (hfound type level rfl)
  · exact Yields.throw

theorem keeps_declareVariable {good : Scalar → Prop} {target : ScopeId}
    {declared : VariableDeclaration}
    (htype : Yields (fun walker ↦ kept walker.scopes) good (resolveType target declared.typeName))
    (hfits : ∀ type, Fits kept (.var ⟨declared.mention.name, type⟩)) :
    Yields (fun walker ↦ kept walker.scopes)
      (fun typed ↦ typed.name = declared.mention.name ∧ good typed.type)
      (declareVariable target declared) := by
  refine htype.bind fun type hgood ↦ ?_
  exact (keeps_declare target (hfits type) _).bind fun _ _ ↦ Yields.pure ⟨rfl, hgood⟩

end Keeping

/-! ### Walks that keep the types -/

/-- The scopes of a walker keep the types. -/
def Kept (walker : Walker) : Prop := TypesKept walker.scopes

theorem fits_of_untyped {symbol : Symbol} (hname : Untyped symbol.name) : Fits TypesKept symbol :=
  fun _ target hkept ↦ hkept.defined target hname

theorem yields_scope (target : ScopeId) : Yields Kept (fun _ ↦ True) (scope target) :=
  keeps_scope target

theorem yields_push (name : String) (enclosing : ScopeId) :
    Yields Kept (fun _ ↦ True) (push name enclosing) := by
  refine (yields_scope enclosing).bind fun outer _ ↦ Yields.get fun walker _ ↦ ?_
  refine Yields.bind (keeps_record _) fun _ _ ↦ ?_
  refine (Yields.modify fun walker hkept ↦ ?_).bind fun _ _ ↦ Yields.pure trivial
  exact TypesKept.opened hkept _ _ _

theorem yields_pop (target : ScopeId) : Yields Kept (fun _ ↦ True) (pop target) := by
  refine (yields_scope target).bind fun inner _ ↦ Yields.bind (keeps_record _) fun _ _ ↦ ?_
  refine (Yields.modify fun walker hkept ↦ ?_).bind fun _ _ ↦ Yields.pure trivial
  exact TypesKept.closed hkept target

/-- A type that is named is the type of that name. -/
theorem yields_resolveType (target : ScopeId) (typeName : Mention) :
    Yields Kept (fun type ↦ ∀ named : Scalar, typeName.name = named.name → type = named)
      (resolveType target typeName) := by
  refine keeps_resolveType target typeName fun scopes type level hkept hfound named hnamed ↦ ?_
  rw [hnamed] at hfound
  exact Symbol.scalar.inj (Scopes.eq_scalar_of_resolve hkept hfound)

theorem yields_resolveMention (target : ScopeId) (mention : Mention) :
    Yields Kept (fun _ ↦ True) (resolveMention target mention) := by
  have hresolve : Yields Kept (fun _ ↦ True) (resolve target mention.name) :=
    keeps_resolve target mention.name fun _ _ ↦ trivial
  refine hresolve.bind fun found _ ↦ ?_
  split
  · exact Yields.pure trivial
  · exact Yields.throw

/-- A declaration and what is filed for it. -/
def Files (declared : VariableDeclaration) (typed : TypedName) : Prop :=
  typed.name = declared.mention.name ∧
    ∀ named : Scalar, declared.typeName.name = named.name → typed.type = named

theorem yields_declareVariable (target : ScopeId) {declared : VariableDeclaration}
    (hname : Untyped declared.mention.name) :
    Yields Kept (Files declared) (declareVariable target declared) :=
  keeps_declareVariable (yields_resolveType target declared.typeName)
    fun _ ↦ fits_of_untyped hname

theorem yields_openProcedure (target : ScopeId) {heading : Heading} (hname : Untyped heading.name)
    (hparameters : ∀ declared ∈ heading.parameters, Untyped declared.mention.name) :
    Yields Kept (fun opened ↦ List.Forall₂ Files heading.parameters opened.2)
      (openProcedure target heading) := by
  have hfits (parameters : List TypedName) : Fits TypesKept (.procedure heading.name parameters) :=
    fits_of_untyped hname
  refine Yields.bind (keeps_declare target (hfits []) _) fun _ _ ↦ ?_
  refine (yields_push heading.name target).bind fun inner _ ↦ ?_
  refine (Yields.mapM fun declared hmem ↦
    yields_declareVariable inner (hparameters declared hmem)).bind fun parameters hfiled ↦ ?_
  exact Yields.bind (keeps_define target (hfits parameters)) fun _ _ ↦ Yields.pure hfiled

end Walk

end MiniPascal
