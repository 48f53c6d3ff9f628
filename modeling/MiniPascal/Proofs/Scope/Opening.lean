import MiniPascal.Proofs.Scope.Effect
import MiniPascal.Proofs.Scope.Visiting

/-!
# Opening the scope of a procedure

The symbol of a procedure is filed twice: without parameters before its scope is opened, and with
them when all are declared. In between, each parameter is declared in the new scope, and its type is
sought from there, past the parameters in front of it (`Scopes.Types`). A parameter whose type name
stands for no type, or whose name is taken by a parameter in front of it, ends the opening
(`Scopes.Refuses`); the scope then stays open with the parameters so far, and the symbol stays
without parameters.

`Scopes.Procedure` says what either end leaves: one more scope, one more symbol, and nothing else.
`openProcedure_succeeds_or_stops` says when opening comes to which end.
-/

set_option autoImplicit false
set_option relaxedAutoImplicit false

namespace MiniPascal

/-! ### Scopes that have gained symbols -/

namespace Scope.Gains

variable {scope later : Scope} {symbols : List Symbol}

theorem level_eq (hgains : scope.Gains symbols later) : later.level = scope.level := by
  induction hgains with
  | nil => rfl
  | cons hfree hrest induct => exact induct

theorem enclosing_eq (hgains : scope.Gains symbols later) :
    later.enclosing = scope.enclosing := by
  induction hgains with
  | nil => rfl
  | cons hfree hrest induct => exact induct

theorem get?_eq_some_iff (hgains : scope.Gains symbols later) {name : String} {symbol : Symbol} :
    later.get? name = some symbol ↔
      scope.get? name = some symbol ∨ symbol ∈ symbols ∧ symbol.name = name := by
  induction hgains with
  | nil => simp
  | @cons scope later first others hfree hrest induct =>
    rw [induct, Scope.get?_insert, List.mem_cons]
    by_cases hname : name = first.name
    · subst hname
      rw [if_pos rfl, hfree]
      constructor
      · rintro (hfirst | ⟨hmem, hsame⟩)
        · obtain rfl := Option.some.inj hfirst
          exact .inr ⟨.inl rfl, rfl⟩
        · exact .inr ⟨.inr hmem, hsame⟩
      · rintro (hnone | ⟨rfl | hmem, hsame⟩)
        · cases hnone
        · exact .inl rfl
        · exact .inr ⟨hmem, hsame⟩
    · rw [if_neg hname]
      refine or_congr_right (and_congr_left fun hsame ↦ ?_)
      exact ⟨.inr, fun hmem ↦ hmem.resolve_left fun hfirst ↦ hname (hfirst ▸ hsame.symm)⟩

theorem nodup (hgains : scope.Gains symbols later) :
    (symbols.map Symbol.name).Nodup ∧ ∀ symbol ∈ symbols, scope.get? symbol.name = none := by
  induction hgains with
  | nil => exact ⟨.nil, List.forall_mem_nil _⟩
  | @cons scope later first others hfree hrest induct =>
    obtain ⟨hnodup, hothers⟩ := induct
    have hapart : ∀ symbol ∈ others, symbol.name ≠ first.name ∧ scope.get? symbol.name = none := by
      intro symbol hmem
      have hnone := hothers symbol hmem
      rw [Scope.get?_insert] at hnone
      split at hnone
      · cases hnone
      · next hname => exact ⟨hname, hnone⟩
    refine ⟨List.nodup_cons.2 ⟨fun hmem ↦ ?_, hnodup⟩, List.forall_mem_cons.2 ⟨hfree, ?_⟩⟩
    · obtain ⟨symbol, hsymbol, hname⟩ := List.mem_map.1 hmem
      exact (hapart symbol hsymbol).1 hname
    · exact fun symbol hmem ↦ (hapart symbol hmem).2

end Scope.Gains

namespace Scopes

variable {scopes later : Scopes} {id inner other : ScopeId} {here own : Scope}

/-! ### Parameters in a scope -/

/-- Files parameters in a scope, one after another. -/
def filled (inner : ScopeId) (scopes : Scopes) (typed : List TypedName) : Scopes :=
  typed.foldl (fun filling parameter ↦ filling.defined inner (.var parameter)) scopes

/-- Each type name stands for a type, seen from the scope with the parameters in front of it. -/
inductive Types (inner : ScopeId) : Scopes → List VariableDeclaration → List TypedName → Prop
  | nil {scopes : Scopes} : Types inner scopes [] []
  | cons {scopes : Scopes} {first : VariableDeclaration} {type : Scalar} {level : Nat}
      {others : List VariableDeclaration} {typed : List TypedName} :
      scopes.resolve inner first.typeName.name = some ⟨.scalar type, level⟩ →
        Types inner (scopes.defined inner (.var ⟨first.mention.name, type⟩)) others typed →
          Types inner scopes (first :: others) (⟨first.mention.name, type⟩ :: typed)

/-- The parameter cannot be declared in the scope as it stands. -/
inductive Refuses (inner : ScopeId) (scopes : Scopes) (taken : String → Prop)
    (parameter : VariableDeclaration) : ScopeFault → Prop
  | unresolved :
      (∀ type level, scopes.resolve inner parameter.typeName.name ≠ some ⟨.scalar type, level⟩) →
        Refuses inner scopes taken parameter
          (.unresolved parameter.typeName.name parameter.typeName.line)
  | duplicate {type : Scalar} {level : Nat} :
      scopes.resolve inner parameter.typeName.name = some ⟨.scalar type, level⟩ →
        taken parameter.mention.name →
          Refuses inner scopes taken parameter
            (.duplicate parameter.mention.name parameter.mention.line)

theorem Refuses.mono {taken taken' : String → Prop} {parameter : VariableDeclaration}
    {fault : ScopeFault} (hrefuses : Refuses inner scopes taken parameter fault)
    (htaken : ∀ name, taken name → taken' name) : Refuses inner scopes taken' parameter fault := by
  cases hrefuses with
  | unresolved hnone => exact .unresolved hnone
  | duplicate hsome hname => exact .duplicate hsome (htaken _ hname)

theorem length_filled (typed : List TypedName) :
    (filled inner scopes typed).live.length = scopes.live.length := by
  induction typed generalizing scopes with
  | nil => rfl
  | cons first others induct => exact induct.trans (List.length_modify ..)

theorem scope?_filled_other (hother : other ≠ inner) (typed : List TypedName) :
    (filled inner scopes typed).scope? other = scopes.scope? other := by
  induction typed generalizing scopes with
  | nil => rfl
  | cons first others induct => exact induct.trans (scope?_defined_other hother _)

theorem scope?_filled_self (hown : scopes.scope? inner = some own) {own' : Scope}
    {typed : List TypedName} (hgains : own.Gains (typed.map .var) own') :
    (filled inner scopes typed).scope? inner = some own' := by
  induction typed generalizing scopes own with
  | nil =>
    cases hgains
    exact hown
  | cons first others induct =>
    cases hgains with
    | cons hfree hothers => exact induct (scope?_defined_self hown _) hothers

namespace Types

variable {declared before behind : List VariableDeclaration} {typed : List TypedName}
  {parameter : VariableDeclaration}

theorem names_eq (htypes : Types inner scopes declared typed) :
    typed.map TypedName.name = declared.map (·.mention.name) := by
  induction htypes with
  | nil => rfl
  | cons hfirst hothers induct => rw [List.map_cons, List.map_cons, induct]

/-- The types of parameters do not depend on those behind them. -/
theorem of_append (htypes : Types inner scopes (before ++ parameter :: behind) typed) :
    ∃ passed type level, Types inner scopes before passed ∧
      (filled inner scopes passed).resolve inner parameter.typeName.name =
        some ⟨.scalar type, level⟩ := by
  induction before generalizing scopes typed with
  | nil =>
    cases htypes with
    | cons hfirst hothers => exact ⟨[], _, _, .nil, hfirst⟩
  | cons first before induct =>
    cases htypes with
    | cons hfirst hothers =>
      obtain ⟨passed, type, level, hpassed, hnext⟩ := induct hothers
      exact ⟨_ :: passed, type, level, .cons hfirst hpassed, hnext⟩

theorem unique {typed' : List TypedName} (htypes : Types inner scopes declared typed)
    (htypes' : Types inner scopes declared typed') : typed' = typed := by
  induction htypes generalizing typed' with
  | nil =>
    cases htypes'
    rfl
  | cons hfirst hothers induct =>
    cases htypes' with
    | cons hfirst' hothers' =>
      obtain ⟨⟨rfl⟩, -⟩ := Resolved.mk.inj (Option.some.inj (hfirst.symm.trans hfirst'))
      rw [induct hothers']

end Types

/-- A parameter is refused only if its type is unknown or its name stands in front of it. -/
theorem Refuses.not_and {before behind : List VariableDeclaration} {passed typed : List TypedName}
    {parameter : VariableDeclaration} {fault : ScopeFault}
    (hpassed : Types inner scopes before passed)
    (hrefuses : Refuses inner (filled inner scopes passed) (· ∈ passed.map TypedName.name) parameter
      fault) :
    ¬ (((before ++ parameter :: behind).map (·.mention.name)).Nodup ∧
      Types inner scopes (before ++ parameter :: behind) typed) := by
  rintro ⟨hnodup, htypes⟩
  cases hrefuses with
  | unresolved hnone =>
    obtain ⟨passed', type, level, hpassed', hsome⟩ := htypes.of_append
    obtain rfl := hpassed.unique hpassed'
    exact hnone type level hsome
  | duplicate hsome htaken =>
    rw [hpassed.names_eq] at htaken
    rw [List.map_append, List.map_cons, List.nodup_append] at hnodup
    exact hnodup.2.2 _ htaken _ List.mem_cons_self rfl

end Scopes

/-! ### Declaring parameters -/

namespace Walk

open Scopes

variable {inner : ScopeId} {own : Scope} {walker : Walker}

theorem resolveType_of_scope (hown : walker.scopes.scope? inner = some own) (typeName : Mention) :
    (∃ type level later, resolveType inner typeName walker = .ok type later ∧
      walker.scopes.resolve inner typeName.name = some ⟨.scalar type, level⟩ ∧
      later.scopes = walker.scopes) ∨
    ∃ later, resolveType inner typeName walker =
        .error (.unresolved typeName.name typeName.line) later ∧
      (∀ type level, walker.scopes.resolve inner typeName.name ≠ some ⟨.scalar type, level⟩) ∧
      later.scopes = walker.scopes := by
  have hsought := resolve_of_scope hown typeName.name
  rw [resolveType]
  cases hfound : walker.scopes.resolve inner typeName.name with
  | none =>
    rw [hfound] at hsought
    refine .inr ⟨_, bind_of_ok hsought, fun type level heq ↦ ?_, rfl⟩
    cases heq
  | some found =>
    obtain ⟨symbol, level⟩ := found
    rw [hfound] at hsought
    cases symbol with
    | scalar type => exact .inl ⟨type, level, _, bind_of_ok hsought, rfl, rfl⟩
    | var | procedure =>
      refine .inr ⟨_, bind_of_ok hsought, fun type level heq ↦ ?_, rfl⟩
      cases heq

/-- The type is sought before the name is declared, and a fault leaves the scopes as they are. -/
theorem declareVariable_of_scope (hown : walker.scopes.scope? inner = some own)
    (declared : VariableDeclaration) :
    (∃ type level later,
      declareVariable inner declared walker = .ok ⟨declared.mention.name, type⟩ later ∧
      walker.scopes.resolve inner declared.typeName.name = some ⟨.scalar type, level⟩ ∧
      own.get? declared.mention.name = none ∧
      later.scopes = walker.scopes.defined inner (.var ⟨declared.mention.name, type⟩)) ∨
    ∃ fault later, declareVariable inner declared walker = .error fault later ∧
      Refuses inner walker.scopes (own.get? · ≠ none) declared fault ∧
      later.scopes = walker.scopes := by
  rw [declareVariable]
  rcases resolveType_of_scope hown declared.typeName with
    ⟨type, level, between, hok, hsome, hsame⟩ | ⟨later, herror, hnone, hsame⟩
  · rw [bind_of_ok hok]
    rw [← hsame] at hown
    cases hholds : own.get? declared.mention.name with
    | none =>
      have hdeclare := @declare_of_lacks inner own between (.var ⟨declared.mention.name, type⟩)
        hown hholds declared.mention.line
      refine .inl ⟨type, level, _, bind_of_ok hdeclare, hsome, rfl, ?_⟩
      rw [hsame]
    | some symbol =>
      have hdeclare := @declare_of_holds inner own between (.var ⟨declared.mention.name, type⟩)
        symbol hown hholds declared.mention.line
      refine .inr ⟨_, _, bind_of_error hdeclare, .duplicate hsome ?_, hsame⟩
      rw [hholds]
      exact Option.some_ne_none symbol
  · exact .inr ⟨_, later, bind_of_error herror, .unresolved hnone, hsame⟩

theorem declareVariables_of_scope (hown : walker.scopes.scope? inner = some own)
    (declared : List VariableDeclaration) :
    (∃ typed own' later, declared.mapM (declareVariable inner) walker = .ok typed later ∧
      Types inner walker.scopes declared typed ∧ own.Gains (typed.map .var) own' ∧
      later.scopes = filled inner walker.scopes typed) ∨
    ∃ before parameter behind passed own' fault later,
      declared.mapM (declareVariable inner) walker = .error fault later ∧
      declared = before ++ parameter :: behind ∧
      Types inner walker.scopes before passed ∧ own.Gains (passed.map .var) own' ∧
      Refuses inner later.scopes (own'.get? · ≠ none) parameter fault ∧
      later.scopes = filled inner walker.scopes passed := by
  induction declared generalizing walker own with
  | nil => exact .inl ⟨[], own, walker, rfl, .nil, .nil, rfl⟩
  | cons first others induct =>
    rw [List.mapM_cons]
    rcases declareVariable_of_scope hown first with
      ⟨type, level, between, hok, hsome, hfree, hfiled⟩ | ⟨fault, later, herror, hrefuses, hsame⟩
    · have hbetween : between.scopes.scope? inner =
          some (own.insert (.var ⟨first.mention.name, type⟩)) := by
        rw [hfiled, scope?_defined_self hown]
      rw [bind_of_ok hok]
      rcases induct hbetween with ⟨typed, own', later, hothers, htypes, hgains, hlater⟩ |
        ⟨before, parameter, behind, passed, own', fault, later, herror, rfl, htypes, hgains,
          hrefuses, hlater⟩
      all_goals rw [hfiled] at htypes hlater
      · exact .inl ⟨_ :: typed, own', later, bind_of_ok hothers, .cons hsome htypes,
          .cons hfree hgains, hlater⟩
      · exact .inr ⟨first :: before, parameter, behind, _ :: passed, own', fault, later,
          bind_of_error herror, rfl, .cons hsome htypes, .cons hfree hgains, hrefuses, hlater⟩
    · rw [← hsame] at hrefuses
      exact .inr ⟨[], first, others, [], own, fault, later, bind_of_error herror, rfl, .nil, .nil,
        hrefuses, hsame⟩

end Walk

/-! ### The procedure and its scope -/

namespace Scopes

variable {scopes later : Scopes} {id : ScopeId} {here : Scope} {name : String}

/-- The scopes in which the parameters of a procedure are declared: its symbol is filed, still
without parameters, and its scope is open. -/
def entered (scopes : Scopes) (id : ScopeId) (here : Scope) (name : String) : Scopes :=
  (scopes.defined id (.procedure name [])).opened ⟨name, here.level + 1, some id, Table.empty⟩

/-- One scope more, which holds these parameters and nothing else, one symbol more, which lists
those, and all else as before. -/
structure Procedure (scopes : Scopes) (id : ScopeId) (here : Scope) (name : String)
    (listed held : List TypedName) (later : Scopes) : Prop where
  length_eq : later.live.length = scopes.live.length + 1
  inner : ∃ own, later.scope? scopes.live.length = some own ∧ own.name = name ∧
    own.level = here.level + 1 ∧ own.enclosing = some id ∧
    ∀ other symbol, own.get? other = some symbol ↔
      ∃ parameter ∈ held, symbol = .var parameter ∧ parameter.name = other
  outer : later.scope? id = some (here.insert (.procedure name listed))
  others : ∀ other < scopes.live.length, other ≠ id → later.scope? other = scopes.scope? other

theorem length_entered : (scopes.entered id here name).live.length = scopes.live.length + 1 := by
  simp [entered, opened, defined]

theorem scope?_entered_self :
    (scopes.entered id here name).scope? scopes.live.length =
      some ⟨name, here.level + 1, some id, Table.empty⟩ := by
  have hlength : (scopes.defined id (.procedure name [])).live.length = scopes.live.length :=
    List.length_modify ..
  rw [entered, ← hlength, scope?_opened_self]

theorem scope?_entered_of_lt {other : ScopeId} (hless : other < scopes.live.length) :
    (scopes.entered id here name).scope? other =
      (scopes.defined id (.procedure name [])).scope? other :=
  scope?_opened_of_lt (lt_of_lt_of_eq hless (List.length_modify ..).symm)

theorem procedure_filled (hhere : scopes.scope? id = some here) {held : List TypedName}
    {own : Scope}
    (hgains : Scope.Gains ⟨name, here.level + 1, some id, Table.empty⟩ (held.map .var) own) :
    scopes.Procedure id here name [] held
      (filled scopes.live.length (scopes.entered id here name) held) where
  length_eq := (length_filled held).trans length_entered
  inner := by
    refine ⟨own, scope?_filled_self scope?_entered_self hgains, hgains.name_eq, hgains.level_eq,
      hgains.enclosing_eq, fun other symbol ↦ hgains.get?_eq_some_iff.trans ?_⟩
    constructor
    · rintro (hempty | ⟨hmem, hname⟩)
      · cases hempty
      · obtain ⟨parameter, hparameter, rfl⟩ := List.mem_map.1 hmem
        exact ⟨parameter, hparameter, rfl, hname⟩
    · rintro ⟨parameter, hmem, rfl, hname⟩
      exact .inr ⟨List.mem_map_of_mem hmem, hname⟩
  outer := by
    have hless := lt_of_scope? hhere
    rw [scope?_filled_other (Nat.ne_of_lt hless), scope?_entered_of_lt hless,
      scope?_defined_self hhere]
  others other hless hother := by
    rw [scope?_filled_other (Nat.ne_of_lt hless), scope?_entered_of_lt hless,
      scope?_defined_other hother]

/-- Filing the symbol once more, with parameters, changes nothing but the symbol. -/
theorem Procedure.listed {held : List TypedName} (hless : id < scopes.live.length)
    (hprocedure : scopes.Procedure id here name [] held later) (listed : List TypedName) :
    scopes.Procedure id here name listed held (later.defined id (.procedure name listed)) where
  length_eq := (List.length_modify ..).trans hprocedure.length_eq
  inner := by
    rw [scope?_defined_other (Nat.ne_of_gt hless)]
    exact hprocedure.inner
  outer := by
    rw [scope?_defined_self hprocedure.outer]
    exact congrArg (fun symbols ↦ some (Scope.mk here.name here.level here.enclosing symbols))
      (Table.insert_insert ..)
  others other hother hne := by
    rw [scope?_defined_other hne]
    exact hprocedure.others other hother hne

end Scopes

namespace Walk

open Scopes

variable {id : ScopeId} {here : Scope} {walker : Walker} {heading : Heading}

theorem openProcedure_of_holds {symbol : Symbol} (hhere : walker.scopes.scope? id = some here)
    (hholds : here.get? heading.name = some symbol) :
    openProcedure id heading walker = .error (.duplicate heading.name heading.line)
      ⟨walker.scopes, walker.log.push (.soughtOnly heading.name here.name)⟩ :=
  bind_of_error
    (@declare_of_holds id here walker (.procedure heading.name []) symbol hhere hholds heading.line)

/-- Where the name is free, the parameters are declared in a scope of their own. -/
theorem openProcedure_of_lacks (hhere : walker.scopes.scope? id = some here)
    (hlacks : here.get? heading.name = none) :
    ∃ between : Walker, between.scopes = walker.scopes.entered id here heading.name ∧
      openProcedure id heading walker =
        (heading.parameters.mapM (declareVariable walker.scopes.live.length) >>= fun parameters ↦
          define id (.procedure heading.name parameters) >>= fun _ ↦
            pure (walker.scopes.live.length, parameters)) between := by
  have hdeclare := @declare_of_lacks id here walker (.procedure heading.name []) hhere hlacks
    heading.line
  have hpush (log : Array Event) := @push_of_scope id _
    ⟨walker.scopes.defined id (.procedure heading.name []), log⟩ (scope?_defined_self hhere _)
    heading.name
  have hlength : (walker.scopes.defined id (.procedure heading.name [])).live.length =
      walker.scopes.live.length := List.length_modify ..
  simp only [hlength] at hpush
  exact ⟨⟨walker.scopes.entered id here heading.name, _⟩, rfl,
    (bind_of_ok hdeclare).trans (bind_of_ok (hpush _))⟩

theorem openProcedure_cases (hhere : walker.scopes.scope? id = some here)
    (hlacks : here.get? heading.name = none) :
    (∃ typed later,
      openProcedure id heading walker = .ok (walker.scopes.live.length, typed) later ∧
      (typed.map TypedName.name).Nodup ∧
      Types walker.scopes.live.length (walker.scopes.entered id here heading.name)
        heading.parameters typed ∧
      walker.scopes.Procedure id here heading.name typed typed later.scopes) ∨
    ∃ before parameter behind passed fault later,
      openProcedure id heading walker = .error fault later ∧
      heading.parameters = before ++ parameter :: behind ∧
      (before.map (·.mention.name)).Nodup ∧
      Types walker.scopes.live.length (walker.scopes.entered id here heading.name) before passed ∧
      Refuses walker.scopes.live.length
        (filled walker.scopes.live.length (walker.scopes.entered id here heading.name) passed)
        (· ∈ passed.map TypedName.name) parameter fault ∧
      walker.scopes.Procedure id here heading.name [] passed later.scopes := by
  obtain ⟨between, hbetween, hopen⟩ := openProcedure_of_lacks hhere hlacks
  have hless := lt_of_scope? hhere
  have hempty : between.scopes.scope? walker.scopes.live.length =
      some ⟨heading.name, here.level + 1, some id, Table.empty⟩ := by
    rw [hbetween, scope?_entered_self]
  have hnames (typed : List TypedName) :
      (typed.map Symbol.var).map Symbol.name = typed.map TypedName.name := by
    rw [List.map_map]
    rfl
  rw [hopen]
  rcases declareVariables_of_scope hempty heading.parameters with
    ⟨typed, own, later, hok, htypes, hgains, hlater⟩ |
    ⟨before, parameter, behind, passed, own, fault, later, herror, hparameters, htypes, hgains,
      hrefuses, hlater⟩
  all_goals
    rw [hbetween] at htypes hlater
    have hprocedure := procedure_filled hhere hgains
    rw [← hlater] at hprocedure
  · refine .inl ⟨typed, _, (bind_of_ok hok).trans
      (bind_of_ok (define_of_scope hprocedure.outer _)), ?_, htypes, hprocedure.listed hless typed⟩
    exact hnames typed ▸ hgains.nodup.1
  · rw [hlater] at hrefuses
    refine .inr ⟨before, parameter, behind, passed, fault, later, bind_of_error herror,
      hparameters, ?_, htypes, hrefuses.mono fun name htaken ↦ ?_, hprocedure⟩
    · rw [← htypes.names_eq, ← hnames]
      exact hgains.nodup.1
    · obtain ⟨symbol, hsymbol⟩ := Option.ne_none_iff_exists'.1 htaken
      rcases hgains.get?_eq_some_iff.1 hsymbol with hnone | ⟨hmem, rfl⟩
      · cases hnone
      · exact hnames passed ▸ List.mem_map_of_mem hmem

end Walk

open Scopes in
/-- Opening a procedure succeeds exactly if its name is free, its parameters have different names
and each of their types is found past the parameters in front. A procedure whose name is taken is
refused without an effect; at the first parameter that cannot be declared, what was done so far
stays. -/
theorem openProcedure_succeeds_or_stops {walker : Walker} {id : ScopeId} {here : Scope}
    (hhere : walker.scopes.scope? id = some here) (heading : Heading) :
    let inner := walker.scopes.live.length
    let entered := walker.scopes.entered id here heading.name
    ((∃ opened later, Walk.openProcedure id heading walker = .ok opened later) ↔
      here.get? heading.name = none ∧ (heading.parameters.map (·.mention.name)).Nodup ∧
        ∃ typed, Types inner entered heading.parameters typed) ∧
    (∀ opened later, Walk.openProcedure id heading walker = .ok opened later →
      opened.1 = inner ∧ Types inner entered heading.parameters opened.2 ∧
        walker.scopes.Procedure id here heading.name opened.2 opened.2 later.scopes) ∧
    (here.get? heading.name ≠ none →
      ∃ later, Walk.openProcedure id heading walker =
          .error (.duplicate heading.name heading.line) later ∧
        later.scopes = walker.scopes) ∧
    ∀ fault later, here.get? heading.name = none →
      Walk.openProcedure id heading walker = .error fault later →
        ∃ before parameter behind passed, heading.parameters = before ++ parameter :: behind ∧
          (before.map (·.mention.name)).Nodup ∧ Types inner entered before passed ∧
          Refuses inner (filled inner entered passed) (· ∈ passed.map TypedName.name) parameter
            fault ∧
          walker.scopes.Procedure id here heading.name [] passed later.scopes := by
  intro inner entered
  cases hholds : here.get? heading.name with
  | some symbol =>
    have hrefused := Walk.openProcedure_of_holds hhere hholds
    refine ⟨⟨?_, nofun⟩, ?_, fun _ ↦ ⟨_, hrefused, rfl⟩, nofun⟩
    · rintro ⟨opened, later, hok⟩
      cases hrefused.symm.trans hok
    · intro opened later hok
      cases hrefused.symm.trans hok
  | none =>
    rcases Walk.openProcedure_cases hhere hholds with
      ⟨typed, later, hopen, hnodup, htypes, hprocedure⟩ |
      ⟨before, parameter, behind, passed, fault, later, hopen, hparameters, hnodup, htypes,
        hrefuses, hprocedure⟩
    · refine ⟨⟨fun _ ↦ ⟨rfl, ?_, typed, htypes⟩, fun _ ↦ ⟨_, later, hopen⟩⟩, ?_, nofun, ?_⟩
      · exact htypes.names_eq ▸ hnodup
      · intro opened later' hok
        cases hopen.symm.trans hok
        exact ⟨rfl, htypes, hprocedure⟩
      · intro fault later' _ herror
        cases hopen.symm.trans herror
    · refine ⟨⟨?_, ?_⟩, ?_, nofun, ?_⟩
      · rintro ⟨opened, later', hok⟩
        cases hopen.symm.trans hok
      · -- What would let the parameter pass is what it was refused for.
        rintro ⟨-, hdistinct, typed, hall⟩
        rw [hparameters] at hdistinct hall
        exact absurd ⟨hdistinct, hall⟩ (hrefuses.not_and htypes)
      · intro opened later' hok
        cases hopen.symm.trans hok
      · intro fault' later' _ herror
        cases hopen.symm.trans herror
        exact ⟨before, parameter, behind, passed, hparameters, hnodup, htypes, hrefuses,
          hprocedure⟩

open Scopes in
/-- In a scope that is not the last, a procedure is opened, and one is refused whose first parameter
bears the name of the second one's type. -/
theorem openProcedure_succeeds_or_stops_shadowed :
    ∃ walker : Walker, walker.Reachable ∧
      walker.scopes.scope? 1 = some ⟨"A", 1, some 0, Table.empty⟩ ∧
      (∃ opened later, Walk.openProcedure 1
        ⟨"P", 1, [⟨⟨"X", 1⟩, ⟨"REAL", 1⟩⟩, ⟨⟨"Y", 2⟩, ⟨"INTEGER", 2⟩⟩]⟩ walker =
          .ok opened later) ∧
      ¬ ∃ opened later, Walk.openProcedure 1
        ⟨"P", 1, [⟨⟨"INTEGER", 1⟩, ⟨"REAL", 1⟩⟩, ⟨⟨"Y", 2⟩, ⟨"INTEGER", 2⟩⟩]⟩ walker =
          .ok opened later := by
  have hreachable : Walker.Reachable _ :=
    .use (.push "B" 1) (.use (.push "A" 0) .start (by decide)) (by decide)
  refine ⟨_, hreachable, by decide, ?_, fun hopened ↦ ?_⟩
  · refine (@openProcedure_succeeds_or_stops _ 1 ⟨"A", 1, some 0, Table.empty⟩
      (by decide) _).1.2 ⟨rfl, by decide, [⟨"X", .real⟩, ⟨"Y", .integer⟩], ?_⟩
    exact @Types.cons _ _ _ _ 0 _ _ (by decide +kernel)
      (@Types.cons _ _ _ _ 0 _ _ (by decide +kernel) .nil)
  · obtain ⟨-, -, typed, htypes⟩ := (@openProcedure_succeeds_or_stops _ 1
      ⟨"A", 1, some 0, Table.empty⟩ (by decide) _).1.1 hopened
    cases htypes with
    | cons hfirst hothers =>
      cases hothers with
      | cons hsecond hnone =>
        cases hsecond.symm.trans (resolve_of_holds (scope?_defined_self scope?_entered_self _)
          ((Scope.get?_insert ..).trans (if_pos rfl)))

end MiniPascal
