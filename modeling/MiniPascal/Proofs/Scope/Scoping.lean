import MiniPascal.Fault
import MiniPascal.Proofs.Scope.Environment
import Mathlib.Logic.Relation

/-!
# Lexical scoping

`Scoping.program` checks a program against environments that it only passes down: a place in the
text gets the frames around it, and nothing is opened, closed or changed. It goes through the text
in order and reports the first violation.

`Program.WellScoped` says what there is to check, without an order: of every block, that the names
of its parameters and declarations differ, that the types which these name are scalar types where
they stand, and that the names in its body are bound in the frames around it. `Site.Opens` leads
from a block to the blocks of its procedures; the frame that a procedure sees around it ends with
the procedure itself. `Scoping.program_eq_ok_iff` says that the two agree.
-/

set_option autoImplicit false
set_option relaxedAutoImplicit false

namespace MiniPascal

namespace Scoping

/-! ### The check -/

/-- The name stands for a scalar type. -/
def typeName (env : Environment) (named : Mention) : Except ScopeFault Unit :=
  match env.nearest named.name with
  | some (.scalar _, _) => .ok ()
  | _ => .error (.unresolved named.name named.line)

/-- The name stands for something. -/
def mention (env : Environment) (used : Mention) : Except ScopeFault Unit :=
  match env.nearest used.name with
  | some _ => .ok ()
  | none => .error (.unresolved used.name used.line)

/-- The name is not bound in the frame. -/
def fresh (frame : Frame) (name : String) (line : Nat) : Except ScopeFault Unit :=
  if name ∈ frame.names then .error (.duplicate name line) else .ok ()

/-- A variable or parameter behind those of a frame: first its type, then its name. -/
def typedName (outer : Environment) (frame : Frame) (declared : VariableDeclaration) :
    Except ScopeFault Unit := do
  typeName (frame :: outer) declared.typeName
  fresh frame declared.mention.name declared.mention.line

def typedNames (outer : Environment) (frame : Frame) :
    List VariableDeclaration → Except ScopeFault Unit
  | [] => .ok ()
  | first :: others => do
    typedName outer frame first
    typedNames outer (frame ++ [.var first]) others

def mentions (env : Environment) : List Mention → Except ScopeFault Unit
  | [] => .ok ()
  | first :: others => do
    mention env first
    mentions env others

mutual

/-- A declaration behind those of a frame. What is inside a procedure sees the frame up to the
procedure, and the parameters are the first bindings of its own frame. -/
def declaration (outer : Environment) (frame : Frame) : Declaration → Except ScopeFault Unit
  | .var declared => typedName outer frame declared
  | .procedure heading inner body => do
    fresh frame heading.name heading.line
    typedNames ((frame ++ [.procedure heading]) :: outer) [] heading.parameters
    declarations ((frame ++ [.procedure heading]) :: outer) (heading.parameters.map .var) inner
    mentions ((heading.parameters.map .var ++ inner.map Declaration.binding) ::
      (frame ++ [.procedure heading]) :: outer) (Statement.mentionsAll body)

def declarations (outer : Environment) (frame : Frame) :
    List Declaration → Except ScopeFault Unit
  | [] => .ok ()
  | first :: others => do
    declaration outer frame first
    declarations outer (frame ++ [first.binding]) others

end

/-- A block whose parameters, if it has any, are the first of its declarations. -/
def block (outer : Environment) (ds : List Declaration) (body : List Statement) :
    Except ScopeFault Unit := do
  declarations outer [] ds
  mentions (ds.map Declaration.binding :: outer) (Statement.mentionsAll body)

def program (p : Program) : Except ScopeFault Unit :=
  block .outermost p.block.declarations p.block.body

end Scoping

/-! ### Well-scoped programs -/

/-- A block of a program with the frames around it. Parameters count as the first declarations. -/
structure Site where
  outer : Environment
  declarations : List Declaration
  body : List Statement

namespace Site

def frame (site : Site) : Frame := site.declarations.map Declaration.binding

/-- What the body of the block sees. -/
def environment (site : Site) : Environment := site.frame :: site.outer

/-- The second block is that of a procedure which the first one declares. It sees what stands before
the procedure, and the procedure. -/
inductive Opens : Site → Site → Prop
  | procedure {outer : Environment} {before after : List Declaration}
      {statements : List Statement} (heading : Heading) (inner : List Declaration)
      (body : List Statement) :
      Opens ⟨outer, before ++ .procedure heading inner body :: after, statements⟩
        ⟨(before.map Declaration.binding ++ [.procedure heading]) :: outer,
          heading.parameters.map .var ++ inner, body⟩

/-- Some number of procedures lead from the first block to the second one. -/
abbrev Encloses : Site → Site → Prop := Relation.ReflTransGen Opens

structure Proper (site : Site) : Prop where
  /-- No two parameters or declarations share a name. -/
  distinct : site.frame.names.Nodup
  /-- Where a type is named, the name stands for a scalar type. -/
  types : ∀ before declared after, site.declarations = before ++ .var declared :: after →
    ∃ type level, Environment.nearest (before.map Declaration.binding :: site.outer)
      declared.typeName.name = some (.scalar type, level)
  /-- A name in the body is declared in the block or in a frame around it. -/
  mentions : ∀ used ∈ Statement.mentionsAll site.body,
    ∃ frame ∈ site.environment, used.name ∈ Frame.names frame

def WellScoped (site : Site) : Prop := ∀ inner, site.Encloses inner → inner.Proper

end Site

namespace Program

/-- The block of the program. -/
def site (p : Program) : Site := ⟨.outermost, p.block.declarations, p.block.body⟩

/-- Every block of the program is proper. -/
def WellScoped (p : Program) : Prop := p.site.WellScoped

end Program

/-! ### Single checks -/

namespace Scoping

variable {outer env : Environment} {frame : Frame}

theorem andThen_eq_ok_iff {ε : Type} {first second : Except ε Unit} :
    (do first; second) = .ok () ↔ first = .ok () ∧ second = .ok () := by
  cases first with
  | error fault => exact ⟨fun heq ↦ (nomatch heq), fun heq ↦ (nomatch heq.1)⟩
  | ok => exact ⟨fun heq ↦ ⟨rfl, heq⟩, fun heq ↦ heq.2⟩

theorem fresh_eq_ok_iff {name : String} {line : Nat} :
    fresh frame name line = .ok () ↔ name ∉ frame.names := by
  unfold fresh
  split <;> simp_all

theorem typeName_eq_ok_iff {named : Mention} :
    typeName env named = .ok () ↔
      ∃ type level, env.nearest named.name = some (.scalar type, level) := by
  unfold typeName
  split
  · next type level hfound => exact ⟨fun _ ↦ ⟨type, level, hfound⟩, fun _ ↦ rfl⟩
  · next hother =>
    refine ⟨fun heq ↦ (nomatch heq), ?_⟩
    rintro ⟨type, level, hfound⟩
    exact (hother type level hfound).elim

theorem mention_eq_ok_iff {used : Mention} :
    mention env used = .ok () ↔ ∃ frame ∈ env, used.name ∈ Frame.names frame := by
  unfold mention
  cases hfound : env.nearest used.name with
  | none =>
    have hnone := Environment.nearest_eq_none_iff.1 hfound
    refine ⟨fun heq ↦ (nomatch heq), ?_⟩
    rintro ⟨frame, hframe, hmem⟩
    exact (hnone frame hframe hmem).elim
  | some found =>
    obtain ⟨binding, level⟩ := found
    obtain ⟨nearer, frame, outer, rfl, -, hbinding, -⟩ := Environment.nearest_eq_some_iff.1 hfound
    refine ⟨fun _ ↦ ⟨frame, by simp, Frame.mem_names_of_binding? hbinding⟩, fun _ ↦ rfl⟩

theorem mentions_eq_ok_iff {used : List Mention} :
    mentions env used = .ok () ↔
      ∀ mention ∈ used, ∃ frame ∈ env, mention.name ∈ Frame.names frame := by
  induction used with
  | nil => simp [mentions]
  | cons first others induct =>
    rw [mentions, andThen_eq_ok_iff, List.forall_mem_cons, mention_eq_ok_iff, induct]

/-! ### Checks one behind the other -/

theorem mentions_singleton (used : Mention) : mentions env [used] = mention env used := by
  rw [mentions, mentions]
  cases mention env used <;> rfl

theorem mentions_append (used others : List Mention) :
    mentions env (used ++ others) =
      (do
        mentions env used
        mentions env others) := by
  induction used with
  | nil => rfl
  | cons first used induct => rw [List.cons_append, mentions, induct, mentions, bind_assoc]

theorem declarations_append (ds others : List Declaration) :
    declarations outer frame (ds ++ others) =
      (do
        declarations outer frame ds
        declarations outer (frame ++ ds.map Declaration.binding) others) := by
  induction ds generalizing frame with
  | nil =>
    rw [List.nil_append, List.map_nil, List.append_nil]
    rfl
  | cons first ds induct =>
    rw [List.cons_append, declarations, induct, declarations, List.map_cons, bind_assoc]
    simp

/-- Parameters are checked like declared variables. -/
theorem declarations_vars (declared : List VariableDeclaration) :
    declarations outer frame (declared.map .var) = typedNames outer frame declared := by
  induction declared generalizing frame with
  | nil => rfl
  | cons first others induct =>
    rw [List.map_cons, declarations, typedNames, declaration]
    exact congrArg _ (funext fun _ ↦ induct)

theorem map_binding_vars (declared : List VariableDeclaration) :
    (declared.map .var).map Declaration.binding = declared.map .var := by
  rw [List.map_map]
  rfl

/-- A procedure is its name and then its block. -/
theorem declaration_procedure (heading : Heading) (inner : List Declaration)
    (body : List Statement) :
    declaration outer frame (.procedure heading inner body) =
      (do
        fresh frame heading.name heading.line
        block ((frame ++ [.procedure heading]) :: outer) (heading.parameters.map .var ++ inner)
          body) := by
  rw [declaration, block, declarations_append, declarations_vars, List.map_append,
    map_binding_vars, bind_assoc, List.nil_append]

end Scoping

/-! ### What the check accepts -/

/-- What is asked of a declaration behind those of a frame, apart from its name. -/
def Declaration.Fits (outer : Environment) (frame : Frame) : Declaration → Prop
  | .var declared =>
    ∃ type level, Environment.nearest (frame :: outer) declared.typeName.name =
      some (.scalar type, level)
  | .procedure heading inner body =>
    Site.WellScoped ⟨(frame ++ [.procedure heading]) :: outer,
      heading.parameters.map .var ++ inner, body⟩

/-- Blocks are well-scoped one level at a time. -/
theorem Site.wellScoped_iff {site : Site} :
    site.WellScoped ↔ site.frame.names.Nodup ∧
      (∀ before d after, site.declarations = before ++ d :: after →
        d.Fits site.outer (before.map Declaration.binding)) ∧
      ∀ used ∈ Statement.mentionsAll site.body,
        ∃ frame ∈ site.environment, used.name ∈ Frame.names frame := by
  constructor
  · intro hscoped
    have hproper := hscoped site .refl
    refine ⟨hproper.distinct, ?_, hproper.mentions⟩
    intro before d after hsplit
    cases d with
    | var declared => exact hproper.types before declared after hsplit
    | procedure heading inner body =>
      intro further hfurther
      obtain ⟨outer, ds, statements⟩ := site
      obtain rfl := hsplit
      exact hscoped further (.head (.procedure heading inner body) hfurther)
  · rintro ⟨hdistinct, hfits, hmentions⟩ further hfurther
    rcases Relation.ReflTransGen.cases_head hfurther with rfl | ⟨child, hopens, hrest⟩
    · exact ⟨hdistinct, fun before declared after ↦ hfits before (.var declared) after, hmentions⟩
    · cases hopens with
      | procedure heading inner body => exact hfits _ _ _ rfl further hrest

theorem nodup_map_iff {α β : Type} {f : α → β} {items : List α} :
    (items.map f).Nodup ↔
      ∀ before item after, items = before ++ item :: after → f item ∉ before.map f := by
  constructor
  · rintro hnodup before item after rfl hmem
    rw [List.map_append, List.map_cons] at hnodup
    exact (List.nodup_append.1 hnodup).2.2 _ hmem _ (List.mem_cons_self ..) rfl
  · intro hall
    induction items with
    | nil => exact List.nodup_nil
    | cons first others induct =>
      refine List.nodup_cons.2 ⟨?_, ?_⟩
      · intro hmem
        obtain ⟨item, hitem, heq⟩ := List.mem_map.1 hmem
        obtain ⟨before, after, rfl⟩ := List.append_of_mem hitem
        refine hall (first :: before) item after rfl ?_
        rw [heq]
        exact List.mem_cons_self ..
      · refine induct fun before item after hsplit hmem ↦ ?_
        refine hall (first :: before) item after (by rw [hsplit]; rfl) ?_
        exact List.mem_cons_of_mem _ hmem

namespace Scoping

variable {outer : Environment} {frame : Frame} {ds : List Declaration}
  {body : List Statement}

/-- The check of a declaration asks for a new name, and for what fits. -/
def Sound (d : Declaration) : Prop :=
  ∀ outer frame, declaration outer frame d = .ok () ↔
    d.binding.name ∉ Frame.names frame ∧ d.Fits outer frame

theorem declarations_eq_ok_iff (hsound : ∀ d ∈ ds, Sound d) :
    declarations outer frame ds = .ok () ↔ ∀ before d after, ds = before ++ d :: after →
      d.binding.name ∉ Frame.names (frame ++ before.map Declaration.binding) ∧
        d.Fits outer (frame ++ before.map Declaration.binding) := by
  induction ds generalizing frame with
  | nil => simp [declarations]
  | cons first others induct =>
    rw [declarations, andThen_eq_ok_iff, hsound first (List.mem_cons_self ..),
      induct fun d hmem ↦ hsound d (List.mem_cons_of_mem _ hmem)]
    constructor
    · rintro ⟨hfirst, hothers⟩ before d after hsplit
      cases before with
      | nil =>
        obtain ⟨rfl, -⟩ := List.cons.inj hsplit
        simpa using hfirst
      | cons d' before =>
        obtain ⟨rfl, hrest⟩ := List.cons.inj hsplit
        simpa using hothers before d after hrest
    · intro hall
      constructor
      · simpa using hall [] first others rfl
      · intro before d after hsplit
        simpa using hall (first :: before) d after (by rw [hsplit]; rfl)

theorem block_eq_ok_iff (hsound : ∀ d ∈ ds, Sound d) :
    block outer ds body = .ok () ↔ Site.WellScoped ⟨outer, ds, body⟩ := by
  rw [block, andThen_eq_ok_iff, declarations_eq_ok_iff hsound, mentions_eq_ok_iff,
    Site.wellScoped_iff]
  simp only [Site.frame, Site.environment, Frame.names, List.nil_append, List.map_map,
    nodup_map_iff, Function.comp_def, ← and_assoc]
  refine and_congr_left fun _ ↦ ?_
  constructor
  · intro hall
    exact ⟨fun before d after hsplit ↦ (hall before d after hsplit).1,
      fun before d after hsplit ↦ (hall before d after hsplit).2⟩
  · rintro ⟨hnames, hfits⟩ before d after hsplit
    exact ⟨hnames before d after hsplit, hfits before d after hsplit⟩

theorem sound_var (declared : VariableDeclaration) : Sound (.var declared) := by
  intro outer frame
  rw [declaration, typedName, andThen_eq_ok_iff, fresh_eq_ok_iff, typeName_eq_ok_iff]
  exact and_comm

theorem sound (d : Declaration) : Sound d := by
  induction d using Declaration.nested_induction with
  | var declared => exact sound_var declared
  | procedure heading inner body induct =>
    intro outer frame
    rw [declaration_procedure, andThen_eq_ok_iff, fresh_eq_ok_iff, block_eq_ok_iff]
    · rfl
    · intro d hmem
      rcases List.mem_append.1 hmem with hmem | hmem
      · obtain ⟨declared, -, rfl⟩ := List.mem_map.1 hmem
        exact sound_var declared
      · exact induct d hmem

theorem program_eq_ok_iff (p : Program) : program p = .ok () ↔ p.WellScoped :=
  block_eq_ok_iff fun d _ ↦ sound d

end Scoping

end MiniPascal
