import MiniPascal.Proofs.Grammar.Wording
import MiniPascal.Proofs.Scope.Environment
import MiniPascal.Proofs.Scope.Types
import MiniPascal.Proofs.Token.Shape

/-!
# Names in programs that are written

A tree can have any strings for names. In the tree of a text each name is an identifier and each
type name is that of a scalar type, since the tokens of a text are shaped so (`Shaped`). There is a
lemma for each part of a tree, by induction on how the part is written.
-/

set_option autoImplicit false
set_option relaxedAutoImplicit false

namespace MiniPascal

/-! ### Shaped lexemes -/

/-- Lexemes as they come from a text. -/
def Shaped (x : List Lexeme) : Prop := ∀ lexeme ∈ x, lexeme.token.Shaped

namespace Shaped

variable {x y : List Lexeme} {lexeme : Lexeme}

theorem left (hshaped : Shaped (x ++ y)) : Shaped x :=
  fun lexeme hmem ↦ hshaped lexeme (List.mem_append_left _ hmem)

theorem right (hshaped : Shaped (x ++ y)) : Shaped y :=
  fun lexeme hmem ↦ hshaped lexeme (List.mem_append_right _ hmem)

theorem tail (hshaped : Shaped (lexeme :: x)) : Shaped x :=
  fun lexeme hmem ↦ hshaped lexeme (List.mem_cons_of_mem _ hmem)

theorem head (hshaped : Shaped (lexeme :: x)) : lexeme.token.Shaped :=
  hshaped lexeme (List.mem_cons_self ..)

end Shaped

/-! ### Lists of items -/

section Items

variable {α : Type} {item : Wording α} {good : α → Prop} {x : List Lexeme} {vs : List α}

theorem good_of_many (hwritten : Wording.Many item x vs)
    (hitem : ∀ x v, item x v → Shaped x → good v) (hshaped : Shaped x) : ∀ v ∈ vs, good v := by
  induction hwritten with
  | nil => simp
  | cons hfirst _ induct =>
    intro w hmem
    rcases List.mem_cons.1 hmem with rfl | hmem
    · exact hitem _ _ hfirst hshaped.left
    · exact induct hshaped.right w hmem

theorem good_of_separated {sign : Mark} (hwritten : Wording.Separated sign item x vs)
    (hitem : ∀ x v, item x v → Shaped x → good v) (hshaped : Shaped x) : ∀ v ∈ vs, good v := by
  induction hwritten with
  | one hfirst =>
    intro w hmem
    obtain rfl := List.mem_singleton.1 hmem
    exact hitem _ _ hfirst hshaped
  | more p hfirst _ induct =>
    intro w hmem
    rcases List.mem_cons.1 hmem with rfl | hmem
    · exact hitem _ _ hfirst hshaped.left
    · exact induct hshaped.right.tail w hmem

end Items

/-! ### Variables and parameters -/

theorem IsName.untyped {name : String} (hname : IsName name) : Untyped name := by
  rintro type rfl
  cases type with
  | integer => exact absurd (hname.lower 'I' (by decide)) (by decide)
  | real => exact absurd (hname.lower 'R' (by decide)) (by decide)

/-- A declaration as the grammar yields it. -/
structure VariableDeclaration.Proper (declared : VariableDeclaration) : Prop where
  name : IsName declared.mention.name
  type : ∃ type : Scalar, declared.typeName.name = type.name

theorem proper_of_group {x : List Lexeme} {declared : List VariableDeclaration}
    (hwritten : Wording.Group x declared) (hshaped : Shaped x) : ∀ d ∈ declared, d.Proper := by
  obtain @⟨x, y, names, typeName, p, hnames, htype⟩ := hwritten
  have hall : ∀ used ∈ names, IsName used.name := by
    refine good_of_separated hnames ?_ hshaped.left
    rintro _ _ ⟨name, q⟩ hname
    exact hname.head
  intro d hmem
  obtain ⟨used, hused, rfl⟩ := List.mem_map.1 hmem
  refine ⟨hall used hused, ?_⟩
  cases htype with
  | integer => exact ⟨.integer, rfl⟩
  | real => exact ⟨.real, rfl⟩

theorem proper_of_flatten {groups : List (List VariableDeclaration)}
    (hgroups : ∀ declared ∈ groups, ∀ d ∈ declared, d.Proper) : ∀ d ∈ groups.flatten, d.Proper := by
  intro d hmem
  obtain ⟨declared, hdeclared, hmem⟩ := List.mem_flatten.1 hmem
  exact hgroups declared hdeclared d hmem

theorem proper_of_variables {x : List Lexeme} {declared : List VariableDeclaration}
    (hwritten : Wording.Variables x declared) (hshaped : Shaped x) : ∀ d ∈ declared, d.Proper := by
  obtain ⟨hsections⟩ := hwritten
  have hclosed : ∀ (x : List Lexeme) (group : List VariableDeclaration),
      Wording.ClosedGroup x group → Shaped x → ∀ d ∈ group, d.Proper := by
    rintro _ _ ⟨p, hgroup⟩ hall
    exact proper_of_group hgroup hall.left
  refine proper_of_flatten (good_of_many hsections ?_ hshaped)
  rintro _ _ ⟨p, hfirst, hothers⟩ hall
  refine proper_of_flatten fun group hmem ↦ ?_
  rcases List.mem_cons.1 hmem with rfl | hmem
  · exact hclosed _ _ hfirst hall.tail.left
  · exact good_of_many hothers hclosed hall.tail.right group hmem

theorem proper_of_parameters {x : List Lexeme} {declared : List VariableDeclaration}
    (hwritten : Wording.Parameters x declared) (hshaped : Shaped x) :
    ∀ d ∈ declared, d.Proper := by
  cases hwritten with
  | none => simp
  | listed p q hgroups =>
    refine proper_of_flatten (good_of_separated hgroups ?_ hshaped.tail.left)
    exact fun x group ↦ proper_of_group

/-! ### Bodies -/

open Wording (Strength Expr)

theorem isName_of_expr {strength : Strength} {x : List Lexeme} {e : Expression}
    (hwritten : Expr strength x e) (hshaped : Shaped x) :
    ∀ used ∈ e.mentions, IsName used.name := by
  induction hwritten with
  | integer | real => simp [Expression.mentions]
  | read name p =>
    intro used hmem
    obtain rfl := List.mem_singleton.1 hmem
    exact hshaped.head
  | signed sign p _ induct => exact induct hshaped.tail
  | parenthesized p q _ induct => exact induct hshaped.tail.left
  | factor _ induct | term _ induct => exact induct hshaped
  | product p _ _ _ inductLeft inductRight | sum p _ _ _ inductLeft inductRight =>
    intro used hmem
    rcases List.mem_append.1 hmem with hmem | hmem
    · exact inductLeft hshaped.left used hmem
    · exact inductRight hshaped.right.tail used hmem

theorem isName_of_sequence {x : List Lexeme} {ss : List Statement}
    (hwritten : Wording.Sequence x ss) (hshaped : Shaped x) :
    ∀ used ∈ Statement.mentionsAll ss, IsName used.name := by
  induction hwritten with
  | empty => simp [Statement.mentionsAll, Statement.mentions]
  | assign name p q hvalue =>
    rw [Statement.mentionsAll, Statement.mentionsAll, Statement.mentions, List.append_nil]
    intro used hmem
    rcases List.mem_cons.1 hmem with rfl | hmem
    · exact hshaped.head
    · exact isName_of_expr hvalue hshaped.tail.tail used hmem
  | compound p q _ induct =>
    rw [Statement.mentionsAll, Statement.mentionsAll, Statement.mentions, List.append_nil]
    exact induct hshaped.tail.left
  | more p _ _ inductFirst inductOthers =>
    have hfirst := inductFirst hshaped.left
    rw [Statement.mentionsAll, Statement.mentionsAll, List.append_nil] at hfirst
    rw [Statement.mentionsAll]
    intro used hmem
    rcases List.mem_append.1 hmem with hmem | hmem
    · exact hfirst used hmem
    · exact inductOthers hshaped.right.tail used hmem

theorem isName_of_compound {x : List Lexeme} {body : List Statement}
    (hwritten : Wording.Compound x body) (hshaped : Shaped x) :
    ∀ used ∈ Statement.mentionsAll body, IsName used.name := by
  obtain ⟨p, q, hsequence⟩ := hwritten
  exact isName_of_sequence hsequence hshaped.tail.left

end MiniPascal
