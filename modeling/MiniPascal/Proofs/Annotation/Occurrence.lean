import MiniPascal.Proofs.Annotation.Sighting
import MiniPascal.Proofs.Grammar.Names
import MiniPascal.Proofs.Scope.Checking

/-!
# The names of a program in the order of its text

An occurrence is a place at which a program names something: a declaration, with the level of its
frame, or a reference, with the frames around it. `Program.occurrences` lists them in the order of
the text. The level of a frame is the number of frames around it, so it is 1 for what the program
itself declares, and the scalar types have level 0.

In a program that is written and accepted, every name is an identifier, and every reference stands
in a block of the program where it has a binding: `wellNamed_of_written`.
-/

set_option autoImplicit false
set_option relaxedAutoImplicit false

namespace MiniPascal

open Annotate

/-- A name with the level that it is declared at, or a reference with the frames around it. -/
inductive Occurrence where
  | named (name : String) (level : Nat)
  | referred (used : Mention) (seen : Environment)
  deriving DecidableEq, Repr

def Occurrence.name : Occurrence → String
  | .named name _ => name
  | .referred used _ => used.name

/-! ### Lists of occurrences -/

/-- The references of a body. -/
def references (env : Environment) (used : List Mention) : List Occurrence :=
  used.map (.referred · env)

theorem references_cons (env : Environment) (first : Mention) (others : List Mention) :
    references env (first :: others) = .referred first env :: references env others := rfl

theorem references_append (env : Environment) (used others : List Mention) :
    references env (used ++ others) = references env used ++ references env others :=
  List.map_append

/-- A variable or parameter and its type. -/
def VariableDeclaration.occurrences (declared : VariableDeclaration) (level : Nat) :
    List Occurrence :=
  [.named declared.mention.name level, .named declared.typeName.name 0]

mutual

/-- A declaration behind those of a frame. -/
def Declaration.occurrences (outer : Environment) (frame : Frame) : Declaration → List Occurrence
  | .var declared => declared.occurrences outer.length
  | .procedure heading inner body =>
    let around := (frame ++ [.procedure heading]) :: outer
    let parameters := heading.parameters.map .var
    .named heading.name outer.length ::
      (heading.parameters.flatMap (·.occurrences around.length) ++
        Declaration.occurrencesAll around parameters inner ++
          references ((parameters ++ inner.map Declaration.binding) :: around)
            (Statement.mentionsAll body))

def Declaration.occurrencesAll (outer : Environment) (frame : Frame) :
    List Declaration → List Occurrence
  | [] => []
  | first :: others =>
    first.occurrences outer frame ++
      Declaration.occurrencesAll outer (frame ++ [first.binding]) others

end

def Program.occurrences (p : Program) : List Occurrence :=
  .named p.name 0 :: (Declaration.occurrencesAll .outermost [] p.block.declarations ++
    references p.site.environment (Statement.mentionsAll p.block.body))

namespace Declaration

variable {outer : Environment} {frame : Frame}

theorem occurrencesAll_append (ds others : List Declaration) :
    occurrencesAll outer frame (ds ++ others) =
      occurrencesAll outer frame ds ++
        occurrencesAll outer (frame ++ ds.map Declaration.binding) others := by
  induction ds generalizing frame with
  | nil => simp [occurrencesAll]
  | cons first ds induct =>
    rw [List.cons_append, occurrencesAll, induct, occurrencesAll]
    simp

theorem occurrencesAll_vars (declared : List VariableDeclaration) :
    occurrencesAll outer frame (declared.map .var) =
      declared.flatMap (·.occurrences outer.length) := by
  induction declared generalizing frame with
  | nil => simp [occurrencesAll]
  | cons first declared induct =>
    rw [List.map_cons, occurrencesAll, induct, List.flatMap_cons, occurrences]

theorem mem_occurrencesAll {ds : List Declaration} {o : Occurrence}
    (hmem : o ∈ occurrencesAll outer frame ds) :
    ∃ before d after, ds = before ++ d :: after ∧
      o ∈ d.occurrences outer (frame ++ before.map Declaration.binding) := by
  induction ds generalizing frame with
  | nil =>
    rw [occurrencesAll] at hmem
    cases hmem
  | cons first others induct =>
    rw [occurrencesAll] at hmem
    rcases List.mem_append.1 hmem with hmem | hmem
    · exact ⟨[], first, others, rfl, by simpa using hmem⟩
    · obtain ⟨before, d, after, rfl, hfound⟩ := induct hmem
      exact ⟨first :: before, d, after, rfl, by simpa using hfound⟩

end Declaration

/-! ### Where references stand -/

theorem eq_referred_of_mem_references {env seen : Environment} {used : Mention}
    {mentions : List Mention} (hmem : .referred used seen ∈ references env mentions) :
    used ∈ mentions ∧ seen = env := by
  obtain ⟨other, hother, heq⟩ := List.mem_map.1 hmem
  obtain ⟨rfl, rfl⟩ := Occurrence.referred.inj heq
  exact ⟨hother, rfl⟩

theorem not_referred_of_mem_variables {declared : List VariableDeclaration} {level : Nat}
    {used : Mention} {seen : Environment} :
    .referred used seen ∉ declared.flatMap (·.occurrences level) := by
  simp [VariableDeclaration.occurrences]

/-- A reference in a declaration of a block stands in the body of a procedure inside. -/
theorem Declaration.site_of_referred {d : Declaration} {outer : Environment}
    {before after : List Declaration} {body : List Statement} {used : Mention} {seen : Environment}
    (hmem : .referred used seen ∈ d.occurrences outer (before.map Declaration.binding)) :
    ∃ site, Site.Encloses ⟨outer, before ++ d :: after, body⟩ site ∧ seen = site.environment ∧
      used ∈ Statement.mentionsAll site.body := by
  induction d using Declaration.nested_induction generalizing outer before after body with
  | var declared =>
    rw [occurrences] at hmem
    simp [VariableDeclaration.occurrences] at hmem
  | procedure heading inner statements induct =>
    have hopens := @Site.Opens.procedure outer before after body heading inner statements
    rw [occurrences] at hmem
    rcases List.mem_cons.1 hmem with heq | hmem
    · cases heq
    rcases List.mem_append.1 hmem with hmem | hmem
    · rcases List.mem_append.1 hmem with hmem | hmem
      · exact absurd hmem not_referred_of_mem_variables
      · obtain ⟨first, d, others, rfl, hfound⟩ := mem_occurrencesAll hmem
        rw [← Scoping.map_binding_vars, ← List.map_append] at hfound
        obtain ⟨site, hencloses, hsite⟩ := induct d (by simp) hfound
        rw [List.append_assoc] at hencloses
        exact ⟨site, .head hopens hencloses, hsite⟩
    · obtain ⟨hused, rfl⟩ := eq_referred_of_mem_references hmem
      refine ⟨_, .single hopens, ?_, hused⟩
      rw [Site.environment, Site.frame, List.map_append, Scoping.map_binding_vars]

/-- Every reference of a program stands in the body of one of its blocks. -/
theorem Program.site_of_referred {p : Program} {used : Mention} {seen : Environment}
    (hmem : .referred used seen ∈ p.occurrences) :
    ∃ site, p.site.Encloses site ∧ seen = site.environment ∧
      used ∈ Statement.mentionsAll site.body := by
  rcases List.mem_cons.1 hmem with heq | hmem
  · cases heq
  rcases List.mem_append.1 hmem with hmem | hmem
  · obtain ⟨before, d, after, hsplit, hfound⟩ := Declaration.mem_occurrencesAll hmem
    rw [List.nil_append] at hfound
    rw [Program.site, hsplit]
    exact Declaration.site_of_referred hfound
  · obtain ⟨hused, rfl⟩ := eq_referred_of_mem_references hmem
    exact ⟨p.site, .refl, rfl, hused⟩

/-! ### Names that are written -/

/-- The name is an identifier, or else that of a scalar type in a declaration. -/
def Occurrence.WellNamed : Occurrence → Prop
  | .named name _ => IsName name ∨ ∃ type : Scalar, name = type.name
  | .referred used _ => IsName used.name

theorem wellNamed_of_variables {declared : List VariableDeclaration}
    (hproper : ∀ d ∈ declared, d.Proper) (level : Nat) :
    ∀ o ∈ declared.flatMap (·.occurrences level), o.WellNamed := by
  intro o hmem
  obtain ⟨d, hd, hmem⟩ := List.mem_flatMap.1 hmem
  rcases List.mem_cons.1 hmem with rfl | hmem
  · exact .inl (hproper d hd).name
  · obtain rfl := List.mem_singleton.1 hmem
    exact .inr (hproper d hd).type

theorem wellNamed_of_references {used : List Mention} (hused : ∀ u ∈ used, IsName u.name)
    (env : Environment) : ∀ o ∈ references env used, o.WellNamed := by
  intro o hmem
  obtain ⟨u, hu, rfl⟩ := List.mem_map.1 hmem
  exact hused u hu

theorem wellNamed_of_procedures {x : List Lexeme} {ds : List Declaration}
    (hwritten : Wording.Procedures x ds) (hshaped : Shaped x) (outer : Environment)
    (frame : Frame) : ∀ o ∈ Declaration.occurrencesAll outer frame ds, o.WellNamed := by
  induction hwritten generalizing outer frame with
  | nil => simp [Declaration.occurrencesAll]
  | cons name p q r s hparameters hvariables _ hbody _ inductInner inductOthers =>
    have hblock := hshaped.tail.tail.right.tail
    rw [Declaration.occurrencesAll, Declaration.occurrences, Declaration.occurrencesAll_append,
      Declaration.occurrencesAll_vars]
    simp only [List.cons_append, List.forall_mem_cons, List.forall_mem_append]
    refine ⟨.inl hshaped.tail.head, ⟨⟨?_, ?_, ?_⟩, ?_⟩, ?_⟩
    · exact wellNamed_of_variables (proper_of_parameters hparameters hshaped.tail.tail.left) _
    · exact wellNamed_of_variables (proper_of_variables hvariables hblock.left.left.left) _
    · exact inductInner hblock.left.left.right _ _
    · exact wellNamed_of_references (isName_of_compound hbody hblock.left.right) _
    · exact inductOthers hblock.right.tail _ _

theorem wellNamed_of_written {x : List Lexeme} {p : Program} (hwritten : Wording.Program x p)
    (hshaped : Shaped x) : ∀ o ∈ p.occurrences, o.WellNamed := by
  obtain ⟨name, a, b, c, d, e, hblock⟩ := hwritten
  have hinside := hshaped.tail.tail.tail.left
  obtain ⟨hvariables, hprocedures, hbody⟩ := hblock
  rw [Program.occurrences, Declaration.occurrencesAll_append, Declaration.occurrencesAll_vars]
  simp only [List.forall_mem_cons, List.forall_mem_append]
  refine ⟨.inl hshaped.tail.head, ⟨?_, ?_⟩, ?_⟩
  · exact wellNamed_of_variables (proper_of_variables hvariables hinside.left.left) _
  · exact wellNamed_of_procedures hprocedures hinside.left.right _ _
  · exact wellNamed_of_references (isName_of_compound hbody hinside.right) _

end MiniPascal
