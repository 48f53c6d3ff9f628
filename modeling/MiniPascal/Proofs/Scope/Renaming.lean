import MiniPascal.Proofs.Scope.Scoping

/-!
# Scoping of renamed programs

A program is renamed by a map on strings, in all its declarations and references at once. If the map
is injective and keeps the names of the scalar types, the lexical scoping of the renamed program is
that of the program: it has the same first fault, with the renamed identifier
(`Scoping.program_renamed`).

The frames around a place are renamed binding by binding (`Frame.renamed`), and a look-up compares
names with each other and with nothing else, so `Environment.nearest` finds the renamed binding.
-/

set_option autoImplicit false
set_option relaxedAutoImplicit false

namespace MiniPascal

/-! ### Renamed trees -/

section Trees

variable (r : String → String)

def Mention.renamed (mention : Mention) : Mention := ⟨r mention.name, mention.line⟩

def Expression.renamed : Expression → Expression
  | .constant value line => .constant value line
  | .read mention => .read (mention.renamed r)
  | .unary sign operand line => .unary sign operand.renamed line
  | .binary operator left right line => .binary operator left.renamed right.renamed line

mutual

def Statement.renamed : Statement → Statement
  | .compound inner => .compound (Statement.renamedAll inner)
  | .assign target value line => .assign (target.renamed r) (value.renamed r) line
  | .empty => .empty

def Statement.renamedAll : List Statement → List Statement
  | [] => []
  | first :: others => first.renamed :: Statement.renamedAll others

end

def VariableDeclaration.renamed (declared : VariableDeclaration) : VariableDeclaration :=
  ⟨declared.mention.renamed r, declared.typeName.renamed r⟩

def Heading.renamed (heading : Heading) : Heading :=
  ⟨r heading.name, heading.line, heading.parameters.map (VariableDeclaration.renamed r)⟩

mutual

def Declaration.renamed : Declaration → Declaration
  | .var declared => .var (declared.renamed r)
  | .procedure heading inner body =>
    .procedure (heading.renamed r) (Declaration.renamedAll inner) (Statement.renamedAll r body)

def Declaration.renamedAll : List Declaration → List Declaration
  | [] => []
  | first :: others => first.renamed :: Declaration.renamedAll others

end

/-- The program with every name in it mapped, those of types included. -/
def Program.renamed (p : Program) : Program :=
  ⟨r p.name, p.line, Declaration.renamedAll r p.block.declarations,
    Statement.renamedAll r p.block.body⟩

/-- The same fault about the renamed identifier. -/
def ScopeFault.renamed : ScopeFault → ScopeFault
  | .duplicate name line => .duplicate (r name) line
  | .unresolved name line => .unresolved (r name) line
  | .closed scope => .closed scope

/-- What is declared is renamed; the scalar types are what they are. -/
def Binding.renamed : Binding → Binding
  | .scalar type => .scalar type
  | .var declared => .var (declared.renamed r)
  | .procedure heading => .procedure (heading.renamed r)

def Frame.renamed (frame : Frame) : Frame := frame.map (Binding.renamed r)

def Environment.renamed (env : Environment) : Environment := env.map (Frame.renamed r)

end Trees

variable {r : String → String}

theorem Expression.mentions_renamed (e : Expression) :
    (e.renamed r).mentions = e.mentions.map (Mention.renamed r) := by
  induction e with
  | constant | read => rfl
  | unary sign operand line induct => exact induct
  | binary operator left right line inductLeft inductRight =>
    rw [renamed, mentions, mentions, inductLeft, inductRight, List.map_append]

mutual

theorem Statement.mentions_renamed (s : Statement) :
    (s.renamed r).mentions = s.mentions.map (Mention.renamed r) := by
  cases s with
  | compound inner =>
    rw [Statement.renamed, Statement.mentions, Statement.mentions,
      Statement.mentionsAll_renamed inner]
  | assign target value line =>
    rw [Statement.renamed, Statement.mentions, Statement.mentions, value.mentions_renamed,
      List.map_cons]
  | empty => rfl

theorem Statement.mentionsAll_renamed (ss : List Statement) :
    Statement.mentionsAll (Statement.renamedAll r ss) =
      (Statement.mentionsAll ss).map (Mention.renamed r) := by
  cases ss with
  | nil => rfl
  | cons first others =>
    rw [Statement.renamedAll, Statement.mentionsAll, Statement.mentionsAll,
      Statement.mentions_renamed first, Statement.mentionsAll_renamed others, List.map_append]

end

theorem Declaration.renamedAll_eq_map (ds : List Declaration) :
    Declaration.renamedAll r ds = ds.map (Declaration.renamed r) := by
  induction ds with
  | nil => rfl
  | cons first others induct => rw [renamedAll, List.map_cons, induct]

theorem Declaration.binding_renamed (d : Declaration) :
    (d.renamed r).binding = d.binding.renamed r := by
  cases d <;> rfl

theorem Frame.renamed_append (frame further : Frame) :
    Frame.renamed r (frame ++ further) = frame.renamed r ++ further.renamed r := List.map_append

/-! ### Look-up -/

section LookUp

variable (hinjective : Function.Injective r) (htypes : ∀ type : Scalar, r type.name = type.name)

include htypes

theorem Binding.name_renamed (binding : Binding) : (binding.renamed r).name = r binding.name := by
  cases binding with
  | scalar type => exact (htypes type).symm
  | var | procedure => rfl

theorem Frame.names_renamed (frame : Frame) : (frame.renamed r).names = frame.names.map r := by
  simp only [Frame.names, Frame.renamed, List.map_map]
  exact List.map_congr_left fun binding _ ↦ Binding.name_renamed htypes binding

include hinjective

theorem Frame.binding?_renamed (frame : Frame) (name : String) :
    (frame.renamed r).binding? (r name) = (frame.binding? name).map (Binding.renamed r) := by
  have hsame : (fun b : Binding ↦ decide (b.name = r name)) ∘ Binding.renamed r =
      fun b ↦ decide (b.name = name) := by
    funext binding
    simp only [Function.comp_apply, Binding.name_renamed htypes, hinjective.eq_iff]
  rw [Frame.binding?, Frame.renamed, List.find?_map, hsame, Frame.binding?]

theorem Frame.mem_names_renamed {frame : Frame} {name : String} :
    r name ∈ (frame.renamed r).names ↔ name ∈ frame.names := by
  rw [Frame.names_renamed htypes, List.mem_map]
  exact ⟨fun ⟨other, hmem, hsame⟩ ↦ hinjective hsame ▸ hmem, fun hmem ↦ ⟨name, hmem, rfl⟩⟩

theorem Environment.nearest_renamed (env : Environment) (name : String) :
    (env.renamed r).nearest (r name) =
      (env.nearest name).map fun found ↦ (found.1.renamed r, found.2) := by
  induction env with
  | nil => rfl
  | cons frame outer induct =>
    have hframe := Frame.binding?_renamed hinjective htypes frame name
    cases hfound : frame.binding? name with
    | some binding =>
      rw [hfound] at hframe
      rw [nearest_of_some hfound]
      exact (nearest_of_some hframe).trans (by simp)
    | none =>
      rw [hfound] at hframe
      rw [nearest_of_none hfound]
      exact (nearest_of_none hframe).trans induct

end LookUp

/-! ### The check -/

theorem mapError_andThen {ε φ α β : Type} (f : ε → φ) (first : Except ε α) (second : Except ε β) :
    (do let _ ← first; second).mapError f =
      (do let _ ← first.mapError f; second.mapError f) := by
  cases first <;> rfl

namespace Scoping

variable (hinjective : Function.Injective r) (htypes : ∀ type : Scalar, r type.name = type.name)
  (env outer : Environment) (frame : Frame)

/-- The check of a declaration that is renamed with all that is around it. -/
def Renames (r : String → String) (d : Declaration) : Prop :=
  ∀ outer frame, declaration (Environment.renamed r outer) (Frame.renamed r frame) (d.renamed r) =
    (declaration outer frame d).mapError (ScopeFault.renamed r)

theorem declarations_renamed {ds : List Declaration} (hall : ∀ d ∈ ds, Renames r d) :
    declarations (outer.renamed r) (frame.renamed r) (ds.map (Declaration.renamed r)) =
      (declarations outer frame ds).mapError (ScopeFault.renamed r) := by
  induction ds generalizing frame with
  | nil => rfl
  | cons first others induct =>
    obtain ⟨hfirst, hothers⟩ := List.forall_mem_cons.1 hall
    have hframe : frame.renamed r ++ [(first.renamed r).binding] =
        Frame.renamed r (frame ++ [first.binding]) := by
      rw [Frame.renamed_append, Declaration.binding_renamed]
      rfl
    rw [List.map_cons, declarations, declarations, mapError_andThen, hframe, hfirst,
      induct _ hothers]

include hinjective htypes

theorem typeName_renamed (named : Mention) :
    typeName (env.renamed r) (named.renamed r) =
      (typeName env named).mapError (ScopeFault.renamed r) := by
  have hnearest := Environment.nearest_renamed hinjective htypes env named.name
  unfold typeName
  rw [show (named.renamed r).name = r named.name from rfl, hnearest]
  rcases env.nearest named.name with _ | ⟨binding, level⟩
  · rfl
  · cases binding <;> rfl

theorem mention_renamed (used : Mention) :
    mention (env.renamed r) (used.renamed r) =
      (mention env used).mapError (ScopeFault.renamed r) := by
  have hnearest := Environment.nearest_renamed hinjective htypes env used.name
  unfold mention
  rw [show (used.renamed r).name = r used.name from rfl, hnearest]
  cases env.nearest used.name <;> rfl

theorem mentions_renamed (used : List Mention) :
    mentions (env.renamed r) (used.map (Mention.renamed r)) =
      (mentions env used).mapError (ScopeFault.renamed r) := by
  induction used with
  | nil => rfl
  | cons first others induct =>
    rw [List.map_cons, mentions, mentions, mapError_andThen, induct,
      mention_renamed hinjective htypes]

theorem fresh_renamed (name : String) (line : Nat) :
    fresh (frame.renamed r) (r name) line =
      (fresh frame name line).mapError (ScopeFault.renamed r) := by
  simp only [fresh, Frame.mem_names_renamed hinjective htypes]
  split <;> rfl

theorem typedName_renamed (declared : VariableDeclaration) :
    typedName (outer.renamed r) (frame.renamed r) (declared.renamed r) =
      (typedName outer frame declared).mapError (ScopeFault.renamed r) := by
  have htype := typeName_renamed hinjective htypes (frame :: outer) declared.typeName
  have hfresh := fresh_renamed hinjective htypes frame declared.mention.name declared.mention.line
  rw [typedName, typedName, mapError_andThen, ← htype, ← hfresh]
  rfl

theorem block_renamed {ds : List Declaration} (hall : ∀ d ∈ ds, Renames r d)
    (body : List Statement) :
    block (outer.renamed r) (ds.map (Declaration.renamed r)) (Statement.renamedAll r body) =
      (block outer ds body).mapError (ScopeFault.renamed r) := by
  have hframe : (ds.map (Declaration.renamed r)).map Declaration.binding =
      Frame.renamed r (ds.map Declaration.binding) := by
    simp only [Frame.renamed, List.map_map, Function.comp_def, Declaration.binding_renamed]
  have hdeclarations := declarations_renamed outer [] hall
  have hmentions := mentions_renamed hinjective htypes (ds.map Declaration.binding :: outer)
    (Statement.mentionsAll body)
  rw [block, block, mapError_andThen, hframe, Statement.mentionsAll_renamed, ← hdeclarations,
    ← hmentions]
  rfl

theorem renames_var (declared : VariableDeclaration) : Renames r (.var declared) :=
  fun outer frame ↦ typedName_renamed hinjective htypes outer frame declared

theorem renames (d : Declaration) : Renames r d := by
  induction d using Declaration.nested_induction with
  | var declared => exact renames_var hinjective htypes declared
  | procedure heading inner body induct =>
    intro outer frame
    have hall : ∀ d ∈ heading.parameters.map Declaration.var ++ inner, Renames r d := by
      refine List.forall_mem_append.2 ⟨fun d hmem ↦ ?_, induct⟩
      obtain ⟨declared, -, rfl⟩ := List.mem_map.1 hmem
      exact renames_var hinjective htypes declared
    have hblock := block_renamed hinjective htypes ((frame ++ [.procedure heading]) :: outer) hall
      body
    have hfresh := fresh_renamed hinjective htypes frame heading.name heading.line
    have hdeclared : (heading.renamed r).parameters.map .var ++ Declaration.renamedAll r inner =
        (heading.parameters.map Declaration.var ++ inner).map (Declaration.renamed r) := by
      rw [Declaration.renamedAll_eq_map, List.map_append, List.map_map, Heading.renamed,
        List.map_map]
      rfl
    have hframe : (frame.renamed r ++ [.procedure (heading.renamed r)]) :: outer.renamed r =
        Environment.renamed r ((frame ++ [.procedure heading]) :: outer) :=
      congrArg (· :: outer.renamed r) (Frame.renamed_append frame [.procedure heading]).symm
    rw [Declaration.renamed, declaration_procedure, declaration_procedure, mapError_andThen,
      ← hfresh, ← hblock, hdeclared, hframe]
    rfl

/-- The renamed program is scoped as the program is, up to the name in the fault. -/
theorem program_renamed (p : Program) :
    program (p.renamed r) = (program p).mapError (ScopeFault.renamed r) := by
  have hall : ∀ d ∈ p.block.declarations, Renames r d := fun d _ ↦ renames hinjective htypes d
  have hblock := block_renamed hinjective htypes Environment.outermost hall p.block.body
  rw [program, program, ← hblock, ← Declaration.renamedAll_eq_map]
  rfl

end Scoping

end MiniPascal
