import MiniPascal.Proofs.Scope.Types
import MiniPascal.Report

/-!
# Checking and annotating are one walk

Both passes go through a program on their own. `discarded_program` says that they take the same
steps: without the text that it writes, annotating is checking, as actions on the open scopes and on
the log, whether they succeed or fail. Annotating reads the levels of scopes besides; it reads them
where the scopes are open or the next step fails anyway, so this adds no step and no fault.
`annotating_agrees_with_checking` says what follows for the reports of both passes, on every tree
and on every text.
-/

set_option autoImplicit false
set_option relaxedAutoImplicit false

namespace MiniPascal

namespace Walk

variable {α β : Type}

/-- The action without its value. -/
def discarded (action : Walk α) : Walk Unit := action >>= fun _ ↦ pure ()

theorem discarded_bind (first : Walk α) (second : α → Walk β) :
    (first >>= second).discarded = first >>= fun v ↦ (second v).discarded := by
  simp [discarded]

theorem discarded_pure (v : α) : (pure v : Walk α).discarded = pure () := by
  simp [discarded]

/-- Where the value of an action is not used, the action counts without it. -/
theorem bind_discarded (first : Walk α) (next : Walk β) :
    (first.discarded >>= fun _ ↦ next) = first >>= fun _ ↦ next := by
  simp [discarded]

/-! ### Reading a scope -/

/-- The scope is open. -/
def Live (id : ScopeId) (walker : Walker) : Prop := id < walker.scopes.live.length

theorem scope_eq (id : ScopeId) (walker : Walker) :
    scope id walker =
      match walker.scopes.scope? id with
      | some here => .ok here walker
      | none => .error (.closed id) walker := by
  change (match walker.scopes.scope? id with
    | some here => pure here
    | none => throw (.closed id) : Walk Scope) walker = _
  cases walker.scopes.scope? id <;> rfl

theorem scope_of_live {id : ScopeId} {walker : Walker} (hlive : Live id walker) :
    ∃ here, scope id walker = .ok here walker := by
  have hfound : walker.scopes.scope? id = some _ := List.getElem?_eq_getElem hlive
  exact ⟨_, by rw [scope_eq, hfound]⟩

theorem scope_of_not_live {id : ScopeId} {walker : Walker} (hlive : ¬ Live id walker) :
    scope id walker = .error (.closed id) walker := by
  have hfound : walker.scopes.scope? id = none := List.getElem?_eq_none (Nat.le_of_not_lt hlive)
  rw [scope_eq, hfound]

theorem live_of_scope_ok {id : ScopeId} {before after : Walker} {here : Scope}
    (hok : scope id before = .ok here after) : Live id before ∧ after = before := by
  by_cases hlive : Live id before
  · obtain ⟨found, hfound⟩ := scope_of_live hlive
    rw [hfound] at hok
    exact ⟨hlive, (EStateM.Result.ok.inj hok).2.symm⟩
  · rw [scope_of_not_live hlive] at hok
    cases hok

/-- Reading a scope first changes nothing if what follows needs the scope to be open. -/
theorem scope_bind_of_needs {id : ScopeId} {next : Scope → Walk β} {action : Walk β}
    (hneeds : ∀ walker, ¬ Live id walker → action walker = .error (.closed id) walker)
    (hnext : ∀ here, next here = action) : (scope id >>= next) = action := by
  funext walker
  by_cases hlive : Live id walker
  · obtain ⟨here, hok⟩ := scope_of_live hlive
    rw [bind_of_ok hok, hnext]
  · rw [bind_of_error (scope_of_not_live hlive), hneeds walker hlive]

/-- Reading a scope that an action leaves open changes nothing. -/
theorem bind_scope_of_leaves {first : Walk α} (id : α → ScopeId) {next : α → Scope → Walk β}
    {other : α → Walk β}
    (hleaves : ∀ before v after, first before = .ok v after → Live (id v) after)
    (hnext : ∀ v here, next v here = other v) :
    (first >>= fun v ↦ scope (id v) >>= next v) = first >>= other := by
  funext walker
  refine bind_congr_of_ok fun v after hfirst ↦ ?_
  obtain ⟨here, hok⟩ := scope_of_live (hleaves walker v after hfirst)
  rw [bind_of_ok hok, hnext]

/-! ### The number of open scopes -/

/-- There are this many open scopes. -/
def Sized (size : Nat) (scopes : Scopes) : Prop := scopes.live.length = size

theorem fits_sized (size : Nat) (symbol : Symbol) : Fits (Sized size) symbol :=
  fun _ _ hsize ↦ (List.length_modify ..).trans hsize

/-! ### Scopes that operations need or leave open -/

theorem live_of_define_ok {id : ScopeId} {symbol : Symbol} {before after : Walker}
    (hok : define id symbol before = .ok () after) : Live id after := by
  obtain ⟨here, between, hscope, hrest⟩ := ok_of_bind_ok hok
  obtain ⟨hlive, rfl⟩ := live_of_scope_ok hscope
  have hfits := fits_sized between.scopes.live.length symbol
  exact Nat.lt_of_lt_of_eq hlive (keeps_define id hfits between () after rfl hok).1.symm

theorem live_of_declare_ok {id : ScopeId} {symbol : Symbol} {line : Nat} {before after : Walker}
    (hok : declare id symbol line before = .ok () after) : Live id after := by
  obtain ⟨found, between, -, hrest⟩ := ok_of_bind_ok hok
  cases found with
  | some other => cases hrest
  | none => exact live_of_define_ok hrest

theorem live_of_declareVariable_ok {id : ScopeId} {declared : VariableDeclaration}
    {before after : Walker} {typed : TypedName}
    (hok : declareVariable id declared before = .ok typed after) : Live id after := by
  obtain ⟨type, between, -, hrest⟩ := ok_of_bind_ok hok
  obtain ⟨⟨⟩, last, hdeclare, hpure⟩ := ok_of_bind_ok hrest
  obtain ⟨-, rfl⟩ := EStateM.Result.ok.inj hpure
  exact live_of_declare_ok hdeclare

theorem push_ok {name : String} {enclosing id : ScopeId} {before after : Walker}
    (hok : push name enclosing before = .ok id after) : Sized (id + 1) after.scopes := by
  obtain ⟨outer, between, hscope, hrest⟩ := ok_of_bind_ok hok
  obtain ⟨-, rfl⟩ := live_of_scope_ok hscope
  obtain ⟨rfl, rfl⟩ := EStateM.Result.ok.inj hrest
  exact List.length_append

theorem live_of_openProcedure_ok {id : ScopeId} {heading : Heading} {before after : Walker}
    {opened : ScopeId × List TypedName}
    (hok : openProcedure id heading before = .ok opened after) : Live opened.1 after := by
  obtain ⟨⟨⟩, declared, -, hrest⟩ := ok_of_bind_ok hok
  obtain ⟨inner, pushed, hpush, hrest⟩ := ok_of_bind_ok hrest
  have hkept : Yields (fun walker ↦ Sized (inner + 1) walker.scopes) (fun opened ↦ opened.1 = inner)
      (do
        let parameters ← heading.parameters.mapM (declareVariable inner)
        define id (.procedure heading.name parameters)
        return (inner, parameters)) := by
    refine (Yields.mapM fun declared _ ↦ keeps_declareVariable
      (keeps_resolveType inner _ fun _ _ _ _ _ ↦ trivial) fun _ ↦ fits_sized _ _).bind
      fun parameters _ ↦ ?_
    exact (keeps_define id (fits_sized _ _)).bind fun _ _ ↦ Yields.pure rfl
  obtain ⟨hsize, hid⟩ := hkept pushed opened after (push_ok hpush) hrest
  rw [hid, Live, hsize]
  exact Nat.lt_succ_self inner

theorem openProcedure_of_not_live {id : ScopeId} {heading : Heading} {walker : Walker}
    (hlive : ¬ Live id walker) : openProcedure id heading walker = .error (.closed id) walker :=
  bind_of_error (bind_of_error (bind_of_error (scope_of_not_live hlive)))

end Walk

/-! ### The passes -/

open Walk

theorem discarded_mention (scope : ScopeId) (used : Mention) :
    (Annotate.mention scope used).discarded = (resolveMention scope used).discarded := by
  rw [Annotate.mention, discarded_bind]
  rfl

theorem discarded_expression (scope : ScopeId) (e : Expression) :
    (Annotate.expression scope e).discarded = Check.expression scope e := by
  induction e with
  | constant value line => exact discarded_pure _
  | read used => exact discarded_mention scope used
  | unary sign operand line induct =>
    rw [Annotate.expression, discarded_bind, Check.expression, ← induct]
    rfl
  | binary operator left right line inductLeft inductRight =>
    rw [Annotate.expression, discarded_bind, Check.expression, ← inductLeft, ← inductRight,
      bind_discarded]
    simp only [discarded_bind, discarded_pure]
    rfl

mutual

theorem discarded_statement (scope : ScopeId) (s : Statement) :
    (Annotate.statement scope s).discarded = Check.statement scope s := by
  cases s with
  | compound inner =>
    rw [Annotate.statement, discarded_bind, Check.statement, ← discarded_statements scope inner]
    rfl
  | assign target value line =>
    rw [Annotate.statement, discarded_bind, Check.statement, ← discarded_expression scope value]
    simp only [discarded_bind, discarded_pure]
    rw [← bind_discarded, discarded_mention, bind_discarded]
    rfl
  | empty =>
    rw [Annotate.statement, Check.statement]
    exact discarded_pure _

theorem discarded_statements (scope : ScopeId) (ss : List Statement) :
    (Annotate.statements scope ss).discarded = Check.statements scope ss := by
  cases ss with
  | nil =>
    rw [Annotate.statements, Check.statements]
    exact discarded_pure _
  | cons first others =>
    rw [Annotate.statements, discarded_bind, Check.statements, ← discarded_statement scope first,
      ← discarded_statements scope others, bind_discarded]
    simp only [discarded_bind, discarded_pure]
    rfl

end

mutual

theorem discarded_declaration (scope : ScopeId) (d : Declaration) :
    (Annotate.declaration scope d).discarded = Check.declaration scope d := by
  cases d with
  | var declared =>
    rw [Annotate.declaration, discarded_bind, Check.declaration]
    simp only [discarded_bind, discarded_pure]
    refine bind_scope_of_leaves (fun _ ↦ scope) ?_ fun typed here ↦ rfl
    intro before typed after hok
    exact live_of_declareVariable_ok hok
  | procedure heading inner body =>
    have hinner (id : ScopeId) := discarded_declarations id inner
    rw [Annotate.declaration, discarded_bind, Check.declaration]
    simp only [← hinner, ← discarded_statements, bind_discarded, discarded_bind, discarded_pure]
    refine scope_bind_of_needs ?_ fun here ↦ ?_
    · intro walker hlive
      exact bind_of_error (openProcedure_of_not_live hlive)
    · refine bind_scope_of_leaves Prod.fst ?_ fun opened here ↦ rfl
      intro before opened after hok
      exact live_of_openProcedure_ok hok

theorem discarded_declarations (scope : ScopeId) (ds : List Declaration) :
    (Annotate.declarations scope ds).discarded = Check.declarations scope ds := by
  cases ds with
  | nil =>
    rw [Annotate.declarations, Check.declarations]
    exact discarded_pure _
  | cons first others =>
    rw [Annotate.declarations, discarded_bind, Check.declarations, ← discarded_declaration,
      ← discarded_declarations, bind_discarded]
    simp only [discarded_bind, discarded_pure]
    rfl

end

theorem discarded_block (scope : ScopeId) (content : Block) :
    (Annotate.block scope content).discarded = Check.block scope content := by
  rw [Annotate.block, discarded_bind, Check.block, ← discarded_declarations,
    ← discarded_statements, bind_discarded]
  simp only [discarded_bind, discarded_pure]
  rfl

/-- Annotating a program takes the steps that checking it takes. -/
theorem discarded_program (p : Program) : (Annotate.program p).discarded = Check.program p := by
  rw [Annotate.program, discarded_bind, Check.program]
  simp only [← discarded_block, discarded_bind, discarded_pure, bind_discarded]

/-! ### Reports -/

namespace Report

variable {α β γ : Type}

/-- Reports with the same steps and the same fault, if there is one. -/
structure Agrees (first : Report α) (second : Report β) : Prop where
  log : first.log = second.log
  fault : ∀ fault, first.outcome = .error fault ↔ second.outcome = .error fault

namespace Agrees

theorem discarded (walk : Walk α) : (ofWalk walk).Agrees (ofWalk walk.discarded) := by
  unfold ofWalk
  cases hwalk : walk Walker.start with
  | ok v after =>
    have hdiscarded : walk.discarded Walker.start = .ok () after := bind_of_ok hwalk
    rw [hdiscarded]
    exact ⟨rfl, fun fault ↦ ⟨nofun, nofun⟩⟩
  | error fault after =>
    have hdiscarded : walk.discarded Walker.start = .error fault after := bind_of_error hwalk
    rw [hdiscarded]
    exact ⟨rfl, fun fault ↦ by simp⟩

/-- What agrees once a report has succeeded agrees behind it. -/
theorem andThen (first : Report α) {next : α → Report β} {other : α → Report γ}
    (hnext : ∀ v, (next v).Agrees (other v)) :
    (first.andThen next).Agrees (first.andThen other) := by
  unfold Report.andThen
  cases first.outcome with
  | ok v => exact ⟨congrArg (first.log ++ ·) (hnext v).log, (hnext v).fault⟩
  | error fault => exact ⟨rfl, fun other ↦ by simp⟩

/-- A value in the place of another. -/
theorem replaced {first : Report α} {second : Report β} (hagrees : first.Agrees second) (v : γ) :
    first.Agrees (second.andThen fun _ ↦ ⟨[], .ok v⟩) := by
  obtain ⟨log, outcome⟩ := second
  cases outcome with
  | ok w =>
    refine ⟨hagrees.log.trans (List.append_nil log).symm, fun fault ↦ ?_⟩
    exact (hagrees.fault fault).trans ⟨nofun, nofun⟩
  | error fault =>
    refine ⟨hagrees.log, fun other ↦ ?_⟩
    exact (hagrees.fault other).trans (by simp [Report.andThen])

end Agrees

end Report

theorem annotate_agrees_check_walk (p : Program) :
    (Report.ofWalk (Annotate.program p)).Agrees (Report.ofWalk (Check.program p)) := by
  rw [← discarded_program]
  exact .discarded _

/-- Annotating and checking fail alike and record the same steps, of every program tree and of every
text. -/
theorem annotating_agrees_with_checking :
    (∀ p : Program,
      (Report.ofWalk (Annotate.program p)).Agrees (Report.ofWalk (Check.program p))) ∧
    ∀ (limit : Nat) (text : String), (annotate limit text).Agrees (check limit text) := by
  refine ⟨annotate_agrees_check_walk, fun limit text ↦ ?_⟩
  refine Report.Agrees.andThen _ fun p ↦ ?_
  exact (annotate_agrees_check_walk p).replaced p

end MiniPascal
