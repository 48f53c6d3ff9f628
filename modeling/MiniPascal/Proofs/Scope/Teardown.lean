import MiniPascal.Proofs.Scope.Visiting

/-!
# Scopes during the passes

Checking and annotating visit the declarations of every block that they go through (`visits_block`),
so at every moment of either pass the open scopes stand one inside the other, and every operation is
on an open scope. Where a pass succeeds, only the scalar types are left, and the log has entered and
left one scope for the program and one for each procedure, in the order of the text. Where it fails,
the log is a beginning of that: `walks_nest_scopes`.
-/

set_option autoImplicit false
set_option relaxedAutoImplicit false

namespace MiniPascal

open Plan

/-! ### Checking -/

namespace Check.Planned

theorem visits_expression (e : Expression) : Visits [] (expression · e) := by
  induction e with
  | constant value line => exact visits_pure ()
  | read mention => exact (visits_resolveMention mention).bind fun _ ↦ visits_pure ()
  | unary sign operand line induct => exact induct
  | binary operator left right line inductLeft inductRight =>
    exact inductLeft.bind fun _ ↦ inductRight

mutual

theorem visits_statement (s : Statement) : Visits [] (statement · s) := by
  cases s with
  | compound inner => simpa only [statement] using visits_statements inner
  | assign target value line =>
    simp only [statement]
    exact (visits_resolveMention target).bind fun _ ↦ visits_expression value
  | empty => simpa only [statement] using visits_pure ()

theorem visits_statements (ss : List Statement) : Visits [] (statements · ss) := by
  cases ss with
  | nil => simpa only [statements] using visits_pure ()
  | cons first others =>
    simp only [statements]
    exact (visits_statement first).bind fun _ ↦ visits_statements others

end

mutual

theorem visits_declaration (d : Declaration) : Visits [d] (declaration · d) := by
  cases d with
  | var declared =>
    simp only [declaration]
    exact (visits_declareVariable declared).andThen fun _ ↦ visits_pure ()
  | procedure heading inner body =>
    simp only [declaration]
    refine (visits_within heading body ?_).andThen fun _ ↦ visits_pure ()
    exact (visits_declarations inner).andThen fun _ ↦ visits_statements body

theorem visits_declarations (ds : List Declaration) : Visits ds (declarations · ds) := by
  cases ds with
  | nil => simpa only [declarations] using visits_pure ()
  | cons first others =>
    simp only [declarations]
    exact (visits_declaration first).bind fun _ ↦ visits_declarations others

end

theorem visits_block (content : Block) : Visits content.declarations (block · content) :=
  (visits_declarations content.declarations).andThen fun _ ↦ visits_statements content.body

end Check.Planned

/-! ### Annotating -/

namespace Annotate.Planned

theorem visits_mention (used : Mention) : Visits [] (mention · used) :=
  (visits_resolveMention used).bind fun _ ↦ visits_pure _

theorem visits_expression (e : Expression) : Visits [] (expression · e) := by
  induction e with
  | constant value line => exact visits_pure _
  | read used => exact visits_mention used
  | unary sign operand line induct => exact induct.bind fun _ ↦ visits_pure _
  | binary operator left right line inductLeft inductRight =>
    exact inductLeft.bind fun _ ↦ inductRight.bind fun _ ↦ visits_pure _

mutual

theorem visits_statement (s : Statement) : Visits [] (statement · s) := by
  cases s with
  | compound inner =>
    simp only [statement]
    exact (visits_statements inner).bind fun _ ↦ visits_pure _
  | assign target value line =>
    simp only [statement]
    exact (visits_mention target).bind fun _ ↦ (visits_expression value).bind fun _ ↦ visits_pure _
  | empty => simpa only [statement] using visits_pure _

theorem visits_statements (ss : List Statement) : Visits [] (statements · ss) := by
  cases ss with
  | nil => simpa only [statements] using visits_pure _
  | cons first others =>
    simp only [statements]
    exact (visits_statement first).bind fun _ ↦ (visits_statements others).bind fun _ ↦
      visits_pure _

end

mutual

theorem visits_declaration (d : Declaration) : Visits [d] (declaration · d) := by
  cases d with
  | var declared =>
    simp only [declaration]
    exact (visits_declareVariable declared).andThen fun _ ↦ visits_scope.bind fun _ ↦ visits_pure _
  | procedure heading inner body =>
    simp only [declaration]
    refine visits_scope.bind fun _ ↦ (visits_within heading body ?_).andThen fun _ ↦ visits_pure _
    exact visits_scope.bind fun _ ↦ (visits_declarations inner).andThen fun _ ↦
      (visits_statements body).bind fun _ ↦ visits_pure _

theorem visits_declarations (ds : List Declaration) : Visits ds (declarations · ds) := by
  cases ds with
  | nil => simpa only [declarations] using visits_pure _
  | cons first others =>
    simp only [declarations]
    exact (visits_declaration first).bind fun _ ↦ (visits_declarations others).andThen fun _ ↦
      visits_pure _

end

theorem visits_block (content : Block) : Visits content.declarations (block · content) :=
  (visits_declarations content.declarations).andThen fun _ ↦
    (visits_statements content.body).bind fun _ ↦ visits_pure _

end Annotate.Planned

/-! ### Blocks -/

/-- One scope has gained a symbol for each declaration, and all else is the same. -/
def Scopes.Gain (scopes : Scopes) (id : ScopeId) (ds : List Declaration) (later : Scopes) : Prop :=
  ∃ around own own' symbols, scopes.live = around ++ [own] ∧ around.length = id ∧
    later.live = around ++ [own'] ∧ List.Forall₂ Declaration.Files ds symbols ∧
      own.Gains symbols own'

/-- A pass comes to a block, that of the program or that of a procedure, where its scope is open. -/
inductive Reaches {α : Type} (declarations : ScopeId → List Declaration → Walk α) (p : Program) :
    ScopeId → Block → Walker → Prop
  | program {id : ScopeId} {walker : Walker} :
      Walk.push "global" Scopes.builtinsId Walker.start = .ok id walker →
        Reaches declarations p id p.block walker
  | procedure {outer id : ScopeId} {content : Block} {earlier others inner : List Declaration}
      {heading : Heading} {body : List Statement} {v : α} {parameters : List TypedName}
      {entry before walker : Walker} :
      Reaches declarations p outer content entry →
      content.declarations = earlier ++ .procedure heading inner body :: others →
      declarations outer earlier entry = .ok v before →
      Walk.openProcedure outer heading before = .ok (id, parameters) walker →
        Reaches declarations p id ⟨inner, body⟩ walker

/-- The scope of a block that a pass comes to is the innermost one, and not that of the scalar
types. -/
structure Walker.Stands (walker : Walker) (id : ScopeId) : Prop where
  tidy : walker.Tidy
  last : ∃ around own, walker.scopes.live = around ++ [own] ∧ around.length = id
  pos : id ≠ 0

namespace Walker.Stands

variable {α : Type} {walker later : Walker} {id : ScopeId} {ds : List Declaration}

theorem inside (hstands : walker.Stands id) (further : List Event) :
    ∃ around own, around ≠ [] ∧ around.length = id ∧
      Inside (walker.brackets ++ further) walker.brackets around own walker := by
  obtain ⟨htidy, ⟨around, own, hlive, hlength⟩, hpos⟩ := hstands
  refine ⟨around, own, ?_, hlength, htidy, hlive, rfl, List.prefix_append _ _⟩
  rintro rfl
  exact hpos hlength.symm

theorem of_inside {total passed : List Event} {around : List Scope} {own : Scope}
    (hinside : Inside total passed around own walker) (haround : around ≠ []) :
    walker.Stands around.length :=
  ⟨hinside.tidy, ⟨around, own, hinside.live, rfl⟩,
    fun hzero ↦ haround (List.length_eq_zero_iff.1 hzero)⟩

theorem gain {plan : ScopeId → Plan α} (hstands : walker.Stands id) (hvisits : Visits ds plan)
    {v : α} (hok : (plan id).perform walker = .ok v later) :
    later.Stands id ∧ walker.scopes.Gain id ds later.scopes := by
  obtain ⟨around, own, haround, rfl, hinside⟩ :=
    hstands.inside (Declaration.bracketsAll (id + 1) ds)
  obtain ⟨-, symbols, own', hfiles, hgains, hlater⟩ :=
    (hvisits hinside haround (List.prefix_refl _)).of_ok hok
  exact ⟨of_inside hlater haround, around, own, own', symbols, hinside.live, rfl, hlater.live,
    hfiles, hgains⟩

theorem opened (hstands : walker.Stands id) {heading : Heading} {inner : ScopeId}
    {parameters : List TypedName}
    (hok : Walk.openProcedure id heading walker = .ok (inner, parameters) later) :
    later.Stands inner := by
  obtain ⟨around, own, haround, rfl, hinside⟩ :=
    hstands.inside [.entered heading.name (id + 1)]
  rw [← perform_openProcedure] at hok
  obtain ⟨-, rfl, -, -, scope, -, hlater⟩ :=
    (throughout_openProcedure hinside haround heading (List.prefix_refl _)).of_ok hok
  have hstands' := of_inside hlater (by simp)
  rwa [List.length_append, List.length_singleton] at hstands'

end Walker.Stands

/-- The outermost scope, before anything is declared. -/
theorem inside_start {total : List Event} (htotal : [.entered "builtins" 0] <+: total) :
    ∃ own, Scopes.builtins.live = [own] ∧
      Walker.Inside total [.entered "builtins" 0] [] own Walker.start :=
  ⟨_, rfl, .start, rfl, rfl, htotal⟩

section

variable {α : Type} {declarations : ScopeId → List Declaration → Walk α} {p : Program}
  {id : ScopeId} {content : Block} {walker : Walker}
  {plan : ScopeId → List Declaration → Plan α}

theorem Reaches.stands (hplan : ∀ scope ds, (plan scope ds).perform = declarations scope ds)
    (hvisits : ∀ ds, Visits ds (plan · ds)) (hreaches : Reaches declarations p id content walker) :
    walker.Stands id := by
  induction hreaches with
  | program hpush =>
    obtain ⟨own, -, hinside⟩ := inside_start (List.prefix_append _ [.entered "global" 1])
    rw [← perform_push] at hpush
    obtain ⟨-, rfl, hlater⟩ :=
      (throughout_push hinside "global" (List.prefix_refl _)).of_ok hpush
    exact Walker.Stands.of_inside hlater (by simp)
  | procedure hreaches hsplit hearlier hopen induct =>
    rw [← hplan] at hearlier
    exact (induct.gain (hvisits _) hearlier).1.opened hopen

end

/-! ### Programs -/

/-- At every moment of the plan of a pass over a program, the open scopes lead from the innermost
one outward, and an operation is on one of them. In the end only the scalar types are left. -/
structure Plan.Disciplined {α : Type} (p : Program) (plan : Plan α) : Prop where
  moment : ∀ {operation : Operation} {moment : Walker},
    plan.Meets Walker.start operation moment →
      moment.Orderly (.entered "builtins" 0 :: p.brackets) ∧
      moment.scopes.Outward (moment.scopes.live.length - 1) moment.scopes.live.reverse ∧
      Walk.Live operation.target moment
  success : ∀ {v : α} {later : Walker}, plan.perform Walker.start = .ok v later →
    later.scopes = Scopes.builtins ∧ later.brackets = .entered "builtins" 0 :: p.brackets
  failure : ∀ {fault : ScopeFault} {later : Walker},
    plan.perform Walker.start = .error fault later →
      later.Orderly (.entered "builtins" 0 :: p.brackets) ∧
      later.scopes.Outward (later.scopes.live.length - 1) later.scopes.live.reverse ∧
      ∀ id, fault ≠ .closed id

theorem Plan.Disciplined.of_throughout {α : Type} {p : Program} {plan : Plan α}
    (hplan : plan.Throughout (Walker.Orderly (.entered "builtins" 0 :: p.brackets))
      (fun _ later ↦ later.scopes = Scopes.builtins ∧
        later.brackets = .entered "builtins" 0 :: p.brackets) Walker.start) :
    plan.Disciplined p where
  moment hmeets := by
    obtain ⟨horderly, hlive⟩ := hplan.of_meets hmeets
    exact ⟨horderly, horderly.1.outward, hlive⟩
  success hok := (hplan.of_ok hok).2
  failure herror := by
    obtain ⟨horderly, hopen⟩ := hplan.of_error herror
    exact ⟨horderly, horderly.1.outward, hopen⟩

theorem throughout_enclosed {α : Type} (p : Program) {block : ScopeId → Plan α}
    (hblock : Visits p.block.declarations block) :
    (enclosed "global" Scopes.builtinsId block).Throughout
      (Walker.Orderly (.entered "builtins" 0 :: p.brackets))
      (fun _ later ↦ later.scopes = Scopes.builtins ∧
        later.brackets = .entered "builtins" 0 :: p.brackets) Walker.start := by
  have hbrackets : .entered "builtins" 0 :: p.brackets =
      [.entered "builtins" 0] ++ [.entered "global" 1] ++
        Declaration.bracketsAll 2 p.block.declarations ++ [.left "global" 1] := by
    simp [Program.brackets]
  rw [hbrackets]
  have hvisited := List.prefix_append ([.entered "builtins" 0] ++ [.entered "global" 1] ++
    Declaration.bracketsAll 2 p.block.declarations) [.left "global" 1]
  have hentered := (List.prefix_append _ _).trans hvisited
  obtain ⟨own, hown, hinside⟩ := inside_start ((List.prefix_append _ _).trans hentered)
  refine (throughout_push hinside "global" hentered).bind fun id later hlater ↦ ?_
  obtain ⟨rfl, hinside⟩ := hlater
  refine (hblock hinside (by simp) hvisited).bind fun v later hlater ↦ ?_
  obtain ⟨symbols, own', -, hgains, hinside⟩ := hlater
  have hpop := throughout_pop hinside
  rw [hgains.name_eq] at hpop
  refine (hpop (List.prefix_refl _)).bind fun _ later hlater ↦ ?_
  exact .pure hlater.orderly
    ⟨congrArg Scopes.mk (hlater.live.trans hown.symm), hlater.brackets⟩

theorem Check.Planned.disciplined (p : Program) : (program p).Disciplined p :=
  .of_throughout (throughout_enclosed p (visits_block p.block))

theorem Annotate.Planned.disciplined (p : Program) : (program p).Disciplined p :=
  .of_throughout ((throughout_enclosed p (visits_block p.block)).map fun _ _ ↦ id)

/-- In both passes the scopes are strictly nested at every moment, a block changes nothing but its
own scope, and all scopes that are entered are left in the end. -/
theorem walks_nest_scopes (p : Program) :
    Bracketed 1 p.brackets ∧
    ((Check.Planned.program p).perform = Check.program p ∧
      (Check.Planned.program p).Disciplined p) ∧
    ((Annotate.Planned.program p).perform = Annotate.program p ∧
      (Annotate.Planned.program p).Disciplined p) ∧
    (∀ (id : ScopeId) (content : Block) (walker later : Walker),
      Reaches Check.declarations p id content walker →
        Check.block id content walker = .ok () later →
          walker.scopes.Gain id content.declarations later.scopes) ∧
    ∀ (id : ScopeId) (content : Block) (walker later : Walker) (text : String),
      Reaches Annotate.declarations p id content walker →
        Annotate.block id content walker = .ok text later →
          walker.scopes.Gain id content.declarations later.scopes := by
  refine ⟨p.bracketed, ⟨Check.Planned.perform_program p, Check.Planned.disciplined p⟩,
    ⟨Annotate.Planned.perform_program p, Annotate.Planned.disciplined p⟩, ?_, ?_⟩
  · intro id content walker later hreaches hok
    have hstands := hreaches.stands Check.Planned.perform_declarations
      Check.Planned.visits_declarations
    rw [← Check.Planned.perform_block] at hok
    exact (hstands.gain (Check.Planned.visits_block content) hok).2
  · intro id content walker later text hreaches hok
    have hstands := hreaches.stands Annotate.Planned.perform_declarations
      Annotate.Planned.visits_declarations
    rw [← Annotate.Planned.perform_block] at hok
    exact (hstands.gain (Annotate.Planned.visits_block content) hok).2

end MiniPascal
