import MiniPascal.Proofs.Grammar.Vocabulary
import MiniPascal.Proofs.Scope.Planned

/-!
# What a pass asks of the scopes

What a plan does may depend on the answers to its operations, and on nothing else. A `Contract` says
which operations may be asked, which answers may come, and which faults may end the plan; `Under`
says that a plan keeps to it, whatever answers come that may. It is proved part by part
(`Under.bind`), without a look at the scopes. If the scopes answer as the contract says, then every
operation on the way is one that may be asked (`Under.of_meets`), and only the faults of the
contract come about (`Under.of_error`).

Both passes keep to the contract `naming` of the names that a program declares, gives for types and
uses: a scope other than the outermost gets symbols under names that are not those of types, and the
only names that are ever sought are the given and the used ones.
-/

set_option autoImplicit false
set_option relaxedAutoImplicit false

namespace MiniPascal

/-- Which operations may be asked, which answers may come, and which faults may end a plan. -/
structure Contract where
  asks : Operation → Prop
  answers : (operation : Operation) → operation.Answer → Prop
  faults : ScopeFault → Prop

namespace Plan

variable {α β : Type} {contract : Contract} {good : α → Prop} {good' : β → Prop}

/-- The plan keeps to the contract if the answers do, and what it yields is good. -/
def Under (contract : Contract) (good : α → Prop) : Plan α → Prop
  | .done (.ok value) => good value
  | .done (.error fault) => contract.faults fault
  | .step operation next => contract.asks operation ∧
      ∀ answer, contract.answers operation answer → Under contract good (next answer)

namespace Under

variable {plan : Plan α} {walker moment later : Walker}

theorem pure {value : α} (hgood : good value) :
    (Pure.pure value : Plan α).Under contract good := hgood

theorem single {operation : Operation} {good : operation.Answer → Prop}
    (hasks : contract.asks operation)
    (hgood : ∀ answer, contract.answers operation answer → good answer) :
    (Plan.single operation).Under contract good :=
  ⟨hasks, hgood⟩

theorem bind {second : α → Plan β} (hfirst : plan.Under contract good)
    (hsecond : ∀ value, good value → (second value).Under contract good') :
    (plan >>= second).Under contract good' := by
  change Under contract good' (Script.bind plan second)
  induction plan with
  | done outcome =>
    cases outcome with
    | ok value => exact hsecond value hfirst
    | error fault => exact hfirst
  | step operation next induct =>
    exact ⟨hfirst.1, fun answer hanswer ↦ induct answer (hfirst.2 answer hanswer)⟩

/-! ### What is asked and what comes about -/

section

variable {kept : Walker → Prop}
  (hkeeps : ∀ {operation : Operation} {answer : operation.Answer} {before after : Walker},
    contract.asks operation → kept before → operation.perform before = .ok answer after →
      contract.answers operation answer ∧ kept after)

include hkeeps

/-- While the scopes answer as they may, only what may be asked is asked. -/
theorem throughout (hplan : plan.Under contract good) (hkept : kept walker) :
    Script.Throughout Operation.perform kept (fun operation _ ↦ contract.asks operation)
      (fun outcome _ ↦ ∀ fault, outcome = .error fault → contract.faults fault) plan walker := by
  induction plan generalizing walker with
  | done outcome =>
    refine ⟨hkept, fun fault hfault ↦ ?_⟩
    subst hfault
    exact hplan
  | step operation next induct =>
    refine ⟨hkept, hplan.1, fun answer later hok ↦ ?_⟩
    obtain ⟨hanswer, hlater⟩ := hkeeps hplan.1 hkept hok
    exact induct answer (hplan.2 answer hanswer) hlater

theorem of_meets {operation : Operation} (hplan : plan.Under contract good) (hkept : kept walker)
    (hmeets : plan.Meets walker operation moment) : contract.asks operation ∧ kept moment := by
  obtain ⟨next, hreaches⟩ := hmeets
  obtain ⟨hmoment, hasks, -⟩ := (hplan.throughout hkeeps hkept).of_reaches hreaches
  exact ⟨hasks, hmoment⟩

theorem of_error {fault : ScopeFault} (hplan : plan.Under contract good) (hkept : kept walker)
    (herror : plan.perform walker = .error fault later) :
    contract.faults fault ∨ ∃ id, fault = .closed id := by
  refine ((hplan.throughout hkeeps hkept).of_error herror).imp (fun hend ↦ hend.2 fault rfl) ?_
  rintro ⟨operation, moment, -, hfails⟩
  cases hscope : moment.scopes.scope? operation.target with
  | none =>
    cases (Operation.perform_of_closed hscope).symm.trans hfails
    exact ⟨operation.target, rfl⟩
  | some here =>
    obtain ⟨answer, between, hok⟩ := Operation.perform_of_scope hscope
    cases hok.symm.trans hfails

end

end Under

end Plan

/-! ### Names -/

/-- Names of types are given only for types, where they stand for those types, and all names that
are declared or used are others. A fault about an unknown name is about a used one. -/
def naming (types used : List Mention) : Contract where
  asks
    | .define id symbol => id ≠ Scopes.builtinsId ∧ Untyped symbol.name
    | .resolve _ name => (∃ typeName ∈ types, typeName.name = name) ∨ ∃ u ∈ used, u.name = name
    | _ => True
  answers
    | .push _ _, id => id ≠ Scopes.builtinsId
    | .resolve _ name, found =>
      ∀ type : Scalar, name = type.name → found = some ⟨.scalar type, 0⟩
    | _, _ => True
  faults
    | .unresolved name line => ⟨name, line⟩ ∈ used
    | _ => True

/-- The declaration, without those inside it, adds nothing to these names, and declares none that is
given for types. -/
structure Declaration.Named (types used : List Mention) (d : Declaration) : Prop where
  name : Untyped d.binding.name
  given : ∀ typeName ∈ d.typeNames, typeName ∈ types ∧ ∃ type : Scalar, typeName.name = type.name
  body : d.mentions ⊆ used

namespace Plan

variable {α : Type} {types used : List Mention}

theorem under_scope (id : ScopeId) : (scope id).Under (naming types used) (fun _ ↦ True) :=
  .single trivial fun _ _ ↦ trivial

theorem under_push (name : String) (enclosing : ScopeId) :
    (push name enclosing).Under (naming types used) (· ≠ Scopes.builtinsId) :=
  .single trivial fun _ ↦ id

theorem under_pop (id : ScopeId) : (pop id).Under (naming types used) (fun _ ↦ True) :=
  .single trivial fun _ _ ↦ trivial

theorem under_define {id : ScopeId} (hid : id ≠ Scopes.builtinsId) (symbol : Symbol)
    (hname : Untyped symbol.name) :
    (define id symbol).Under (naming types used) (fun _ ↦ True) :=
  .single ⟨hid, hname⟩ fun _ _ ↦ trivial

theorem under_declare {id : ScopeId} (hid : id ≠ Scopes.builtinsId) (symbol : Symbol)
    (hname : Untyped symbol.name) (line : Nat) :
    (declare id symbol line).Under (naming types used) (fun _ ↦ True) := by
  refine ⟨trivial, fun found _ ↦ ?_⟩
  cases found with
  | some other => trivial
  | none => exact under_define hid symbol hname

theorem under_resolveMention (id : ScopeId) {mention : Mention} (hused : mention ∈ used) :
    (resolveMention id mention).Under (naming types used) (fun _ ↦ True) := by
  refine ⟨.inr ⟨mention, hused, rfl⟩, fun found _ ↦ ?_⟩
  cases found with
  | some resolved => trivial
  | none => exact hused

/-- The answer is the type, so there is no fault. -/
theorem under_resolveType (id : ScopeId) {typeName : Mention} (hgiven : typeName ∈ types)
    {type : Scalar} (htype : typeName.name = type.name) :
    (resolveType id typeName).Under (naming types used) (fun _ ↦ True) := by
  refine ⟨.inl ⟨typeName, hgiven, rfl⟩, fun found hfound ↦ ?_⟩
  obtain rfl := hfound type htype
  trivial

theorem under_declareVariable {id : ScopeId} (hid : id ≠ Scopes.builtinsId)
    {declared : VariableDeclaration} (hnamed : (Declaration.var declared).Named types used) :
    (declareVariable id declared).Under (naming types used) (fun _ ↦ True) := by
  obtain ⟨hgiven, type, htype⟩ := hnamed.given declared.typeName List.mem_cons_self
  refine (under_resolveType id hgiven htype).bind fun type _ ↦ ?_
  exact (under_declare hid (.var ⟨declared.mention.name, type⟩) hnamed.name
    declared.mention.line).bind fun _ _ ↦ .pure trivial

theorem under_declareVariables {id : ScopeId} (hid : id ≠ Scopes.builtinsId)
    {declared : List VariableDeclaration}
    (hnamed : ∀ d ∈ declared.map Declaration.var, d.Named types used) :
    (declareVariables id declared).Under (naming types used) (fun _ ↦ True) := by
  induction declared with
  | nil => exact .pure trivial
  | cons first others induct =>
    obtain ⟨hfirst, hothers⟩ := List.forall_mem_cons.1 hnamed
    refine (under_declareVariable hid hfirst).bind fun typed _ ↦ ?_
    exact (induct hothers).bind fun _ _ ↦ .pure trivial

theorem under_openProcedure {id : ScopeId} (hid : id ≠ Scopes.builtinsId) {heading : Heading}
    (hname : Untyped heading.name)
    (hnamed : ∀ d ∈ heading.parameters.map Declaration.var, d.Named types used) :
    (openProcedure id heading).Under (naming types used) (·.1 ≠ Scopes.builtinsId) := by
  refine (under_declare hid (.procedure _ _) hname heading.line).bind fun _ _ ↦ ?_
  refine (under_push heading.name id).bind fun inner hinner ↦ ?_
  refine (under_declareVariables hinner hnamed).bind fun parameters _ ↦ ?_
  exact (under_define hid (.procedure _ _) hname).bind fun _ _ ↦ .pure hinner

/-- A procedure is visited with all that is declared inside it. -/
theorem under_within {id : ScopeId} (hid : id ≠ Scopes.builtinsId) {heading : Heading}
    {inner : List Declaration} {body : List Statement} {block : ScopeId → Plan α}
    (hnamed : ∀ d ∈ (Declaration.procedure heading inner body).nested, d.Named types used)
    (hblock : ∀ id, id ≠ Scopes.builtinsId →
      (∀ d ∈ Declaration.nestedAll inner, d.Named types used) →
        Statement.mentionsAll body ⊆ used → (block id).Under (naming types used) (fun _ ↦ True)) :
    (within id heading block).Under (naming types used) (fun _ ↦ True) := by
  rw [Declaration.nested, List.forall_mem_cons, List.forall_mem_append] at hnamed
  obtain ⟨hself, hparameters, hinner⟩ := hnamed
  refine (under_openProcedure hid hself.name hparameters).bind fun opened hopened ↦ ?_
  refine (hblock opened.1 hopened hinner hself.body).bind fun value _ ↦ ?_
  exact (under_pop opened.1).bind fun _ _ ↦ .pure trivial

theorem under_enclosed {name : String} {enclosing : ScopeId} {block : ScopeId → Plan α}
    (hblock : ∀ id, id ≠ Scopes.builtinsId →
      (block id).Under (naming types used) (fun _ ↦ True)) :
    (enclosed name enclosing block).Under (naming types used) (fun _ ↦ True) := by
  refine (under_push name enclosing).bind fun id hid ↦ ?_
  refine (hblock id hid).bind fun value _ ↦ ?_
  exact (under_pop id).bind fun _ _ ↦ .pure trivial

end Plan

/-! ### Checking -/

open Plan

variable {types used : List Mention}

namespace Check.Planned

theorem under_expression (id : ScopeId) {e : Expression} (hused : e.mentions ⊆ used) :
    (expression id e).Under (naming types used) (fun _ ↦ True) := by
  induction e with
  | constant value line => exact .pure trivial
  | read mention =>
    exact (under_resolveMention id (hused List.mem_cons_self)).bind fun _ _ ↦ .pure trivial
  | unary sign operand line induct => exact induct hused
  | binary operator left right line inductLeft inductRight =>
    obtain ⟨hleft, hright⟩ := List.append_subset.1 hused
    exact (inductLeft hleft).bind fun _ _ ↦ inductRight hright

mutual

theorem under_statement (id : ScopeId) {s : Statement} (hused : s.mentions ⊆ used) :
    (statement id s).Under (naming types used) (fun _ ↦ True) := by
  cases s with
  | compound inner =>
    rw [Statement.mentions] at hused
    rw [statement]
    exact under_statements id hused
  | assign target value line =>
    rw [Statement.mentions] at hused
    rw [statement]
    obtain ⟨htarget, hvalue⟩ := List.cons_subset.1 hused
    exact (under_resolveMention id htarget).bind fun _ _ ↦ under_expression id hvalue
  | empty =>
    rw [statement]
    exact .pure trivial

theorem under_statements (id : ScopeId) {ss : List Statement}
    (hused : Statement.mentionsAll ss ⊆ used) :
    (statements id ss).Under (naming types used) (fun _ ↦ True) := by
  cases ss with
  | nil =>
    rw [statements]
    exact .pure trivial
  | cons first others =>
    rw [Statement.mentionsAll] at hused
    rw [statements]
    obtain ⟨hfirst, hothers⟩ := List.append_subset.1 hused
    exact (under_statement id hfirst).bind fun _ _ ↦ under_statements id hothers

end

mutual

theorem under_declaration {id : ScopeId} (hid : id ≠ Scopes.builtinsId) {d : Declaration}
    (hnamed : ∀ other ∈ d.nested, other.Named types used) :
    (declaration id d).Under (naming types used) (fun _ ↦ True) := by
  cases d with
  | var declared =>
    rw [Declaration.nested, List.forall_mem_singleton] at hnamed
    rw [declaration]
    exact (under_declareVariable hid hnamed).bind fun _ _ ↦ .pure trivial
  | procedure heading inner body =>
    rw [declaration]
    refine (under_within hid hnamed fun id hid hinner hbody ↦ ?_).bind
      fun _ _ ↦ .pure trivial
    exact (under_declarations hid hinner).bind fun _ _ ↦ under_statements id hbody

theorem under_declarations {id : ScopeId} (hid : id ≠ Scopes.builtinsId) {ds : List Declaration}
    (hnamed : ∀ other ∈ Declaration.nestedAll ds, other.Named types used) :
    (declarations id ds).Under (naming types used) (fun _ ↦ True) := by
  cases ds with
  | nil =>
    rw [declarations]
    exact .pure trivial
  | cons first others =>
    rw [Declaration.nestedAll, List.forall_mem_append] at hnamed
    rw [declarations]
    exact (under_declaration hid hnamed.1).bind fun _ _ ↦ under_declarations hid hnamed.2

end

theorem under_program {p : Program} (hnamed : ∀ d ∈ p.declarations, d.Named types used)
    (hbody : Statement.mentionsAll p.block.body ⊆ used) :
    (program p).Under (naming types used) (fun _ ↦ True) :=
  under_enclosed fun id hid ↦
    (under_declarations hid hnamed).bind fun _ _ ↦ under_statements id hbody

end Check.Planned

/-! ### Annotating -/

namespace Annotate.Planned

theorem under_mention (id : ScopeId) {u : Mention} (hused : u ∈ used) :
    (mention id u).Under (naming types used) (fun _ ↦ True) :=
  (under_resolveMention id hused).bind fun _ _ ↦ .pure trivial

theorem under_expression (id : ScopeId) {e : Expression} (hused : e.mentions ⊆ used) :
    (expression id e).Under (naming types used) (fun _ ↦ True) := by
  induction e with
  | constant value line => exact .pure trivial
  | read u => exact under_mention id (hused List.mem_cons_self)
  | unary sign operand line induct => exact (induct hused).bind fun _ _ ↦ .pure trivial
  | binary operator left right line inductLeft inductRight =>
    obtain ⟨hleft, hright⟩ := List.append_subset.1 hused
    exact (inductLeft hleft).bind fun _ _ ↦ (inductRight hright).bind fun _ _ ↦ .pure trivial

mutual

theorem under_statement (id : ScopeId) {s : Statement} (hused : s.mentions ⊆ used) :
    (statement id s).Under (naming types used) (fun _ ↦ True) := by
  cases s with
  | compound inner =>
    rw [Statement.mentions] at hused
    rw [statement]
    exact (under_statements id hused).bind fun _ _ ↦ .pure trivial
  | assign target value line =>
    rw [Statement.mentions] at hused
    rw [statement]
    obtain ⟨htarget, hvalue⟩ := List.cons_subset.1 hused
    exact (under_mention id htarget).bind fun _ _ ↦
      (under_expression id hvalue).bind fun _ _ ↦ .pure trivial
  | empty =>
    rw [statement]
    exact .pure trivial

theorem under_statements (id : ScopeId) {ss : List Statement}
    (hused : Statement.mentionsAll ss ⊆ used) :
    (statements id ss).Under (naming types used) (fun _ ↦ True) := by
  cases ss with
  | nil =>
    rw [statements]
    exact .pure trivial
  | cons first others =>
    rw [Statement.mentionsAll] at hused
    rw [statements]
    obtain ⟨hfirst, hothers⟩ := List.append_subset.1 hused
    exact (under_statement id hfirst).bind fun _ _ ↦
      (under_statements id hothers).bind fun _ _ ↦ .pure trivial

end

mutual

theorem under_declaration {id : ScopeId} (hid : id ≠ Scopes.builtinsId) {d : Declaration}
    (hnamed : ∀ other ∈ d.nested, other.Named types used) :
    (declaration id d).Under (naming types used) (fun _ ↦ True) := by
  cases d with
  | var declared =>
    rw [Declaration.nested, List.forall_mem_singleton] at hnamed
    rw [declaration]
    exact (under_declareVariable hid hnamed).bind fun _ _ ↦
      (under_scope id).bind fun _ _ ↦ .pure trivial
  | procedure heading inner body =>
    rw [declaration]
    refine (under_scope id).bind fun _ _ ↦ ?_
    refine (under_within hid hnamed fun id hid hinner hbody ↦ ?_).bind
      fun _ _ ↦ .pure trivial
    refine (under_scope id).bind fun _ _ ↦ (under_declarations hid hinner).bind fun _ _ ↦ ?_
    exact (under_statements id hbody).bind fun _ _ ↦ .pure trivial

theorem under_declarations {id : ScopeId} (hid : id ≠ Scopes.builtinsId) {ds : List Declaration}
    (hnamed : ∀ other ∈ Declaration.nestedAll ds, other.Named types used) :
    (declarations id ds).Under (naming types used) (fun _ ↦ True) := by
  cases ds with
  | nil =>
    rw [declarations]
    exact .pure trivial
  | cons first others =>
    rw [Declaration.nestedAll, List.forall_mem_append] at hnamed
    rw [declarations]
    exact (under_declaration hid hnamed.1).bind fun _ _ ↦
      (under_declarations hid hnamed.2).bind fun _ _ ↦ .pure trivial

end

theorem under_program {p : Program} (hnamed : ∀ d ∈ p.declarations, d.Named types used)
    (hbody : Statement.mentionsAll p.block.body ⊆ used) :
    (program p).Under (naming types used) (fun _ ↦ True) := by
  refine (under_enclosed fun id hid ↦ ?_).bind fun _ _ ↦ .pure trivial
  exact (under_declarations hid hnamed).bind fun _ _ ↦
    (under_statements id hbody).bind fun _ _ ↦ .pure trivial

end Annotate.Planned

end MiniPascal
