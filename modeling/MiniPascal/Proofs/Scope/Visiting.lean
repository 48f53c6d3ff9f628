import MiniPascal.Proofs.Execution.Ordered
import MiniPascal.Proofs.Scope.Nesting
import MiniPascal.Proofs.Scope.Planned

/-!
# Visiting a block

A pass that goes through a block files one symbol for each of its declarations in the scope of the
block, under names that were free there, and leaves the scopes around it as they were. On the way it
enters and leaves a scope for each procedure, in the order of the text (`Declaration.brackets`).

`Visits` says this of a plan, for the declarations that it goes through. It is stated for the parts
of which both passes are made: what only looks at the scopes visits no declarations, one part after
another visits the declarations of both (`Visits.bind`), and a procedure is visited with all that is
declared inside it (`visits_within`).
-/

set_option autoImplicit false
set_option relaxedAutoImplicit false

namespace MiniPascal

/-! ### Symbols of declarations -/

/-- The symbol that is filed for a declaration. -/
inductive Declaration.Files : Declaration → Symbol → Prop
  | var {declared : VariableDeclaration} {typed : TypedName} :
      Walk.Declares declared typed → Files (.var declared) (.var typed)
  | procedure {heading : Heading} {inner : List Declaration} {body : List Statement}
      {parameters : List TypedName} :
      List.Forall₂ Walk.Declares heading.parameters parameters →
        Files (.procedure heading inner body) (.procedure heading.name parameters)

/-- The scope has gained these symbols, one after another, under names that it did not hold. -/
inductive Scope.Gains : Scope → List Symbol → Scope → Prop
  | nil {scope : Scope} : Gains scope [] scope
  | cons {scope later : Scope} {symbol : Symbol} {others : List Symbol} :
      scope.get? symbol.name = none → Gains (scope.insert symbol) others later →
        Gains scope (symbol :: others) later

namespace Scope.Gains

variable {scope between later : Scope} {symbols others : List Symbol}

theorem append (hsymbols : scope.Gains symbols between) (hothers : between.Gains others later) :
    scope.Gains (symbols ++ others) later := by
  induction hsymbols with
  | nil => exact hothers
  | cons hfree hrest induct => exact .cons hfree (induct hothers)

theorem name_eq (hgains : scope.Gains symbols later) : later.name = scope.name := by
  induction hgains with
  | nil => rfl
  | cons hfree hrest induct => exact induct

end Scope.Gains

/-! ### Scopes that are entered and left -/

mutual

/-- The scopes of a declaration, of which the first has this level. -/
def Declaration.brackets (depth : Nat) : Declaration → List Event
  | .var _ => []
  | .procedure heading inner _ =>
    .entered heading.name depth :: Declaration.bracketsAll (depth + 1) inner ++
      [.left heading.name depth]

def Declaration.bracketsAll (depth : Nat) : List Declaration → List Event
  | [] => []
  | first :: others => first.brackets depth ++ Declaration.bracketsAll depth others

end

/-- The scopes of a program: its own and one for each procedure. -/
def Program.brackets (p : Program) : List Event :=
  .entered "global" 1 :: Declaration.bracketsAll 2 p.block.declarations ++ [.left "global" 1]

theorem Declaration.bracketsAll_append (depth : Nat) (ds others : List Declaration) :
    bracketsAll depth (ds ++ others) = bracketsAll depth ds ++ bracketsAll depth others := by
  induction ds with
  | nil => rfl
  | cons first ds induct =>
    rw [List.cons_append, bracketsAll, bracketsAll, induct, List.append_assoc]

/-- Pairs of entering and leaving the same scope, whose level is the number of pairs around it. -/
inductive Bracketed : Nat → List Event → Prop
  | nil {depth : Nat} : Bracketed depth []
  | pair {depth : Nat} {scope : String} {inside others : List Event} :
      Bracketed (depth + 1) inside → Bracketed depth others →
        Bracketed depth (.entered scope depth :: inside ++ .left scope depth :: others)

theorem Bracketed.append {depth : Nat} {events others : List Event}
    (hevents : Bracketed depth events) (hothers : Bracketed depth others) :
    Bracketed depth (events ++ others) := by
  induction hevents with
  | nil => exact hothers
  | @pair depth scope inside behind hinside hbehind inductInside inductBehind =>
    rw [List.append_assoc, List.cons_append]
    exact .pair hinside (inductBehind hothers)

theorem Declaration.bracketed_of_forall {ds : List Declaration} {depth : Nat}
    (hall : ∀ d ∈ ds, Bracketed depth (d.brackets depth)) :
    Bracketed depth (bracketsAll depth ds) := by
  induction ds with
  | nil => exact .nil
  | cons first others induct =>
    obtain ⟨hfirst, hothers⟩ := List.forall_mem_cons.1 hall
    exact hfirst.append (induct hothers)

theorem Declaration.bracketed (d : Declaration) (depth : Nat) :
    Bracketed depth (d.brackets depth) := by
  induction d using Declaration.nested_induction generalizing depth with
  | var declared => exact .nil
  | procedure heading inner body induct =>
    exact .pair (bracketed_of_forall fun d hmem ↦ induct d hmem (depth + 1)) .nil

theorem Program.bracketed (p : Program) : Bracketed 1 p.brackets :=
  .pair (Declaration.bracketed_of_forall fun d _ ↦ d.bracketed 2) .nil

/-! ### Declaring -/

namespace Plan

open Walker

section

variable {total passed : List Event} {around : List Scope} {own : Scope} {walker : Walker}
  (hinside : Inside total passed around own walker) (haround : around ≠ [])

include hinside

theorem throughout_resolveType (typeName : Mention) :
    (resolveType around.length typeName).Throughout (Orderly total)
      (fun type later ↦ type.name = typeName.name ∧ Inside total passed around own later)
      walker := by
  refine (throughout_resolve hinside typeName.name).bind fun found later hlater ↦ ?_
  obtain ⟨hname, hinside⟩ := hlater
  have hunresolved (id : ScopeId) :
      ScopeFault.unresolved typeName.name typeName.line ≠ .closed id := by
    rintro ⟨⟩
  rcases found with _ | ⟨symbol, level⟩
  · exact .refuse hinside.orderly hunresolved
  · cases symbol with
    | scalar type => exact .pure hinside.orderly ⟨hname _ rfl, hinside⟩
    | var | procedure => exact .refuse hinside.orderly hunresolved

theorem throughout_resolveMention (used : Mention) :
    (resolveMention around.length used).Throughout (Orderly total)
      (fun _ later ↦ Inside total passed around own later) walker := by
  refine (throughout_resolve hinside used.name).bind fun found later hlater ↦ ?_
  obtain ⟨-, hinside⟩ := hlater
  cases found with
  | some resolved => exact .pure hinside.orderly hinside
  | none => exact .refuse hinside.orderly (by rintro id ⟨⟩)

include haround

theorem throughout_declare (symbol : Symbol) (line : Nat) :
    (declare around.length symbol line).Throughout (Orderly total)
      (fun _ later ↦ own.get? symbol.name = none ∧
        Inside total passed around (own.insert symbol) later) walker := by
  refine (throughout_lookupOnly hinside symbol.name).bind fun found later hlater ↦ ?_
  obtain ⟨rfl, hinside⟩ := hlater
  cases hfound : own.get? symbol.name with
  | some other => exact .refuse hinside.orderly (by rintro id ⟨⟩)
  | none => exact (throughout_define hinside haround symbol).mono fun _ _ hlater ↦ ⟨rfl, hlater⟩

theorem throughout_declareVariable (declared : VariableDeclaration) :
    (declareVariable around.length declared).Throughout (Orderly total)
      (fun typed later ↦ Walk.Declares declared typed ∧ own.get? typed.name = none ∧
        Inside total passed around (own.insert (.var typed)) later) walker := by
  refine (throughout_resolveType hinside declared.typeName).bind fun type later hlater ↦ ?_
  obtain ⟨htype, hinside⟩ := hlater
  refine (throughout_declare hinside haround _ declared.mention.line).bind
    fun _ later hlater ↦ ?_
  obtain ⟨hfree, hinside⟩ := hlater
  exact .pure hinside.orderly ⟨⟨rfl, htype⟩, hfree, hinside⟩

theorem throughout_declareVariables (declared : List VariableDeclaration) :
    (declareVariables around.length declared).Throughout (Orderly total)
      (fun typed later ↦ List.Forall₂ Walk.Declares declared typed ∧
        ∃ own', own.Gains (typed.map .var) own' ∧ Inside total passed around own' later)
      walker := by
  induction declared generalizing own walker with
  | nil => exact .pure hinside.orderly ⟨.nil, own, .nil, hinside⟩
  | cons first others induct =>
    refine (throughout_declareVariable hinside haround first).bind fun typed later hlater ↦ ?_
    obtain ⟨hfirst, hfree, hinside⟩ := hlater
    refine (induct hinside).bind fun further later hlater ↦ ?_
    obtain ⟨hothers, own', hgains, hinside⟩ := hlater
    exact .pure hinside.orderly ⟨.cons hfirst hothers, own', .cons hfree hgains, hinside⟩

/-- The scope of a procedure is inside that of its declaration and holds its parameters. -/
theorem throughout_openProcedure (heading : Heading)
    (hcoming : passed ++ [.entered heading.name (around.length + 1)] <+: total) :
    (openProcedure around.length heading).Throughout (Orderly total)
      (fun opened later ↦ opened.1 = around.length + 1 ∧
        List.Forall₂ Walk.Declares heading.parameters opened.2 ∧ own.get? heading.name = none ∧
        ∃ inner, inner.name = heading.name ∧
          Inside total (passed ++ [.entered heading.name (around.length + 1)])
            (around ++ [own.insert (.procedure heading.name opened.2)]) inner later)
      walker := by
  refine (throughout_declare hinside haround _ heading.line).bind fun _ later hlater ↦ ?_
  obtain ⟨hfree, hinside⟩ := hlater
  refine (throughout_push hinside heading.name hcoming).bind fun id later hlater ↦ ?_
  obtain ⟨rfl, hinside⟩ := hlater
  have hparameters := throughout_declareVariables hinside (by simp) heading.parameters
  rw [List.length_append, List.length_singleton] at hparameters
  refine hparameters.bind fun parameters later hlater ↦ ?_
  obtain ⟨hdeclares, inner, hgains, hinside⟩ := hlater
  refine (throughout_define_outer hinside haround _).bind fun _ later hlater ↦ ?_
  -- The symbol without parameters is replaced by the one with them.
  have hagain : (own.insert (.procedure heading.name [])).insert
      (.procedure heading.name parameters) = own.insert (.procedure heading.name parameters) :=
    congrArg (Scope.mk own.name own.level own.enclosing) (Table.insert_insert ..)
  rw [hagain] at hlater
  exact .pure hlater.orderly ⟨rfl, hdeclares, hfree, inner, hgains.name_eq, hlater⟩

end

/-! ### Visiting -/

/-- The plan goes through these declarations in the innermost scope. -/
def Visits {α : Type} (ds : List Declaration) (plan : ScopeId → Plan α) : Prop :=
  ∀ ⦃total passed : List Event⦄ ⦃around : List Scope⦄ ⦃own : Scope⦄ ⦃walker : Walker⦄,
    Inside total passed around own walker → around ≠ [] →
      passed ++ Declaration.bracketsAll (around.length + 1) ds <+: total →
        (plan around.length).Throughout (Orderly total)
          (fun _ later ↦ ∃ symbols own', List.Forall₂ Declaration.Files ds symbols ∧
            own.Gains symbols own' ∧
            Inside total (passed ++ Declaration.bracketsAll (around.length + 1) ds) around own'
              later) walker

variable {α β : Type} {ds others : List Declaration} {first : ScopeId → Plan α}
  {second : α → ScopeId → Plan β}

/-- What leaves the innermost scope as it is visits no declarations. -/
theorem Visits.of_looks
    (hlooks : ∀ {total passed : List Event} {around : List Scope} {own : Scope} {walker : Walker},
      Inside total passed around own walker → (first around.length).Throughout (Orderly total)
        (fun _ later ↦ Inside total passed around own later) walker) : Visits [] first := by
  intro total passed around own walker hinside _ _
  refine (hlooks hinside).mono fun _ later hlater ↦ ⟨[], own, .nil, .nil, ?_⟩
  rwa [Declaration.bracketsAll, List.append_nil]

theorem Visits.bind (hfirst : Visits ds first) (hsecond : ∀ v, Visits others (second v)) :
    Visits (ds ++ others) fun id ↦ first id >>= fun v ↦ second v id := by
  intro total passed around own walker hinside haround hcoming
  rw [Declaration.bracketsAll_append, ← List.append_assoc] at hcoming ⊢
  have hbegin := (List.prefix_append _ _).trans hcoming
  refine (hfirst hinside haround hbegin).bind fun v later hlater ↦ ?_
  obtain ⟨symbols, own', hfiles, hgains, hinside'⟩ := hlater
  refine (hsecond v hinside' haround hcoming).mono fun _ last hlast ↦ ?_
  obtain ⟨symbols', own'', hfiles', hgains', hinside''⟩ := hlast
  exact ⟨symbols ++ symbols', own'', List.rel_append hfiles hfiles', hgains.append hgains',
    hinside''⟩

/-- What only looks may follow. -/
theorem Visits.andThen (hfirst : Visits ds first) (hsecond : ∀ v, Visits [] (second v)) :
    Visits ds fun id ↦ first id >>= fun v ↦ second v id :=
  List.append_nil ds ▸ hfirst.bind hsecond

theorem visits_pure (v : α) : Visits [] fun _ ↦ (pure v : Plan α) :=
  Visits.of_looks fun hinside ↦ .pure hinside.orderly hinside

theorem visits_scope : Visits [] scope :=
  Visits.of_looks fun hinside ↦ throughout_scope hinside

theorem visits_resolveMention (used : Mention) : Visits [] (resolveMention · used) :=
  Visits.of_looks fun hinside ↦ throughout_resolveMention hinside used

theorem visits_declareVariable (declared : VariableDeclaration) :
    Visits [.var declared] (declareVariable · declared) := by
  intro total passed around own walker hinside haround _
  refine (throughout_declareVariable hinside haround declared).mono fun typed later hlater ↦ ?_
  obtain ⟨hdeclares, hfree, hinside'⟩ := hlater
  refine ⟨[.var typed], _, .cons (.var hdeclares) .nil, .cons hfree .nil, ?_⟩
  simpa [Declaration.bracketsAll, Declaration.brackets] using hinside'

/-- A procedure is one declaration, and what is declared inside it is gone behind it. -/
theorem visits_within (heading : Heading) {inner : List Declaration} (body : List Statement)
    (hblock : Visits inner first) :
    Visits [.procedure heading inner body] (within · heading first) := by
  intro total passed around own walker hinside haround hcoming
  have hbrackets : passed ++ Declaration.bracketsAll (around.length + 1)
      [.procedure heading inner body] =
        passed ++ [.entered heading.name (around.length + 1)] ++
          Declaration.bracketsAll (around.length + 1 + 1) inner ++
            [.left heading.name (around.length + 1)] := by
    simp [Declaration.bracketsAll, Declaration.brackets]
  rw [hbrackets] at hcoming ⊢
  have hinner := (List.prefix_append _ _).trans hcoming
  have henter := (List.prefix_append _ _).trans hinner
  refine (throughout_openProcedure hinside haround heading henter).bind
    fun ⟨id, parameters⟩ later hlater ↦ ?_
  obtain ⟨rfl, hdeclares, hfree, scope, hname, hinside'⟩ := hlater
  have hlength : (around ++ [own.insert (.procedure heading.name parameters)]).length =
      around.length + 1 := List.length_append
  have hvisit := hblock hinside' (by simp)
  rw [hlength] at hvisit
  refine (hvisit hinner).bind fun v later hlater ↦ ?_
  obtain ⟨symbols, scope', -, hgains, hinside''⟩ := hlater
  have hpop := throughout_pop hinside''
  rw [hgains.name_eq, hname] at hpop
  refine (hpop hcoming).bind fun _ last hlast ↦ ?_
  exact .pure hlast.orderly ⟨_, _, .cons (.procedure hdeclares) .nil, .cons hfree .nil, hlast⟩

end Plan

end MiniPascal
