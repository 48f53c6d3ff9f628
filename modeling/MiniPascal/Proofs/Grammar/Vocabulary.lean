import MiniPascal.Proofs.Grammar.Names
import MiniPascal.Proofs.Grammar.Parsing
import MiniPascal.Proofs.Token.Division

/-!
# The vocabulary of a parsed program

`Program.names`, `Program.typeNames` and `Program.mentions` are the names that a program declares,
those that it gives for types, and those that its statements use, wherever in the tree they stand.
In a program that was parsed, the first and the last are identifiers in lower case and no reserved
words, and the second are the names of the scalar types, in upper case: `vocabulary_of_parse`.
-/

set_option autoImplicit false
set_option relaxedAutoImplicit false

namespace MiniPascal

/-! ### Names in a tree -/

mutual

/-- A declaration and those inside it, with the parameters of procedures. -/
def Declaration.nested : Declaration → List Declaration
  | .var declared => [.var declared]
  | .procedure heading inner body =>
    .procedure heading inner body ::
      (heading.parameters.map .var ++ Declaration.nestedAll inner)

def Declaration.nestedAll : List Declaration → List Declaration
  | [] => []
  | first :: others => first.nested ++ Declaration.nestedAll others

end

namespace Declaration

/-- The name that is given for the type. -/
def typeNames : Declaration → List Mention
  | .var declared => [declared.typeName]
  | .procedure _ _ _ => []

/-- The names that are used in the body, without the bodies inside. -/
def mentions : Declaration → List Mention
  | .var _ => []
  | .procedure _ _ body => Statement.mentionsAll body

theorem nestedAll_append (ds others : List Declaration) :
    nestedAll (ds ++ others) = nestedAll ds ++ nestedAll others := by
  induction ds with
  | nil => simp [nestedAll]
  | cons first ds induct => rw [List.cons_append, nestedAll, nestedAll, induct, List.append_assoc]

theorem nestedAll_vars (declared : List VariableDeclaration) :
    nestedAll (declared.map .var) = declared.map .var := by
  induction declared with
  | nil => simp [nestedAll]
  | cons first declared induct => simp [nestedAll, nested, induct]

end Declaration

namespace Program

variable (p : Program)

/-- All declarations, those of parameters included. -/
def declarations : List Declaration := Declaration.nestedAll p.block.declarations

/-- The name of the program and those that it declares. -/
def names : List String := p.name :: p.declarations.map (·.binding.name)

def typeNames : List Mention := p.declarations.flatMap Declaration.typeNames

/-- The names that are used in statements. -/
def mentions : List Mention :=
  p.declarations.flatMap Declaration.mentions ++ Statement.mentionsAll p.block.body

end Program

/-! ### Identifiers -/

/-- Small letters, digits and underscores, no digit in front, and no reserved word. -/
structure IsIdentifier (name : String) : Prop where
  spelling : ∃ first others, name.toList = first :: others ∧
    (('a' ≤ first ∧ first ≤ 'z') ∨ first = '_') ∧
    ∀ character ∈ others,
      ('a' ≤ character ∧ character ≤ 'z') ∨ ('0' ≤ character ∧ character ≤ '9') ∨ character = '_'
  free : name ∉ reservedWords.map Prod.fst

theorem small_of_isLetter {character : Char} (hletter : isLetter character = true)
    (hlower : character.toLower = character) :
    ('a' ≤ character ∧ character ≤ 'z') ∨ character = '_' := by
  have hall := @of_wordPart (fun c ↦ !isLetter c || c.toLower != c ||
    decide ('a' ≤ c ∧ c ≤ 'z') || c == '_') (by decide) character
    (Bool.or_eq_true_iff.2 (.inl hletter))
  simpa [hletter, hlower] using hall

theorem IsName.identifier {name : String} (hname : IsName name) : IsIdentifier name where
  spelling := by
    obtain ⟨hword, hlower, -⟩ := hname
    obtain ⟨first, others, hcharacters, hfirst, hothers⟩ := exists_of_isWord hword
    rw [hcharacters] at hlower
    obtain ⟨hlowerFirst, hlowerOthers⟩ := List.forall_mem_cons.1 hlower
    refine ⟨first, others, hcharacters, small_of_isLetter hfirst hlowerFirst, ?_⟩
    intro character hmem
    rcases Bool.or_eq_true_iff.1 (hothers character hmem) with hletter | hdigit
    · rcases small_of_isLetter hletter (hlowerOthers character hmem) with hsmall | hunderscore
      · exact .inl hsmall
      · exact .inr (.inr hunderscore)
    · exact .inr (.inl (of_decide_eq_true hdigit))
  free := by
    intro hmem
    have hreserved : ∀ word ∈ reservedWords.map Prod.fst,
        Token.ofWord word ≠ .identifier word := by decide
    exact hreserved name hmem hname.free

/-! ### Parsed programs -/

/-- A declaration as the grammar yields it, apart from those inside it. -/
def Declaration.Proper : Declaration → Prop
  | .var declared => declared.Proper
  | .procedure heading _ body =>
    IsName heading.name ∧ ∀ used ∈ Statement.mentionsAll body, IsName used.name

theorem proper_vars {declared : List VariableDeclaration} (hproper : ∀ d ∈ declared, d.Proper) :
    ∀ d ∈ declared.map Declaration.var, d.Proper := by
  intro d hmem
  obtain ⟨var, hvar, rfl⟩ := List.mem_map.1 hmem
  exact hproper var hvar

theorem proper_of_procedures {x : List Lexeme} {ds : List Declaration}
    (hwritten : Wording.Procedures x ds) (hshaped : Shaped x) :
    ∀ d ∈ Declaration.nestedAll ds, d.Proper := by
  induction hwritten with
  | nil => simp [Declaration.nestedAll]
  | cons name p q r s hparameters hvariables _ hbody _ inductInner inductOthers =>
    have hblock := hshaped.tail.tail.right.tail
    rw [Declaration.nestedAll, Declaration.nested, Declaration.nestedAll_append,
      Declaration.nestedAll_vars]
    simp only [List.cons_append, List.forall_mem_cons, List.forall_mem_append]
    refine ⟨⟨hshaped.tail.head, ?_⟩, ⟨?_, ?_, ?_⟩, ?_⟩
    · exact isName_of_compound hbody hblock.left.right
    · exact proper_vars (proper_of_parameters hparameters hshaped.tail.tail.left)
    · exact proper_vars (proper_of_variables hvariables hblock.left.left.left)
    · exact inductInner hblock.left.left.right
    · exact inductOthers hblock.right.tail

/-- A program as the grammar yields it. -/
structure Program.Proper (p : Program) : Prop where
  name : IsName p.name
  declarations : ∀ d ∈ p.declarations, d.Proper
  body : ∀ used ∈ Statement.mentionsAll p.block.body, IsName used.name

theorem proper_of_written {x : List Lexeme} {p : Program} (hwritten : Wording.Program x p)
    (hshaped : Shaped x) : p.Proper := by
  obtain ⟨name, a, b, c, d, e, hblock⟩ := hwritten
  have hinside := hshaped.tail.tail.tail.left
  obtain ⟨hvariables, hprocedures, hbody⟩ := hblock
  refine ⟨hshaped.tail.head, ?_, isName_of_compound hbody hinside.right⟩
  rw [Program.declarations, Declaration.nestedAll_append, Declaration.nestedAll_vars,
    List.forall_mem_append]
  exact ⟨proper_vars (proper_of_variables hvariables hinside.left.left),
    proper_of_procedures hprocedures hinside.left.right⟩

theorem proper_of_parse {limit : Nat} {text : String} {p : Program}
    (hparse : parse limit text = .ok p) : p.Proper :=
  proper_of_written (written_of_parse hparse).2 (Feed.shaped_ahead text)

namespace Program.Proper

variable {p : Program}

theorem isName_of_names (hproper : p.Proper) : ∀ name ∈ p.names, IsName name := by
  refine List.forall_mem_cons.2 ⟨hproper.name, fun name hmem ↦ ?_⟩
  obtain ⟨d, hd, rfl⟩ := List.mem_map.1 hmem
  have hdeclared := hproper.declarations d hd
  cases d with
  | var declared => exact hdeclared.name
  | procedure heading inner body => exact hdeclared.1

theorem type_of_typeNames (hproper : p.Proper) :
    ∀ typeName ∈ p.typeNames, ∃ type : Scalar, typeName.name = type.name := by
  intro typeName hmem
  obtain ⟨d, hd, hmem⟩ := List.mem_flatMap.1 hmem
  have hdeclared := hproper.declarations d hd
  cases d with
  | var declared =>
    obtain rfl := List.mem_singleton.1 hmem
    exact hdeclared.type
  | procedure heading inner body => cases hmem

theorem isName_of_mentions (hproper : p.Proper) : ∀ used ∈ p.mentions, IsName used.name := by
  intro used hmem
  rcases List.mem_append.1 hmem with hmem | hmem
  · obtain ⟨d, hd, hmem⟩ := List.mem_flatMap.1 hmem
    have hdeclared := hproper.declarations d hd
    cases d with
    | var declared => cases hmem
    | procedure heading inner body => exact hdeclared.2 used hmem
  · exact hproper.body used hmem

end Program.Proper

end MiniPascal
