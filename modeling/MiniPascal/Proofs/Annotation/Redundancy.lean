import MiniPascal.Proofs.Annotation.Parentheses
import MiniPascal.Proofs.Execution.Exact
import MiniPascal.Proofs.Grammar.Vocabulary
import MiniPascal.Proofs.Number.RealText
import MiniPascal.Report

/-!
# No parentheses are redundant

Erasing the level and the type of each reference keeps all parentheses of an annotated expression
(`Bare.count_eq`), and these are as many as its tree needs (`Expression.count_bare`). So if one pair
is taken out, wherever it stands, what is left is the text of another tree:
`no_parentheses_redundant`.
-/

set_option autoImplicit false
set_option relaxedAutoImplicit false

namespace MiniPascal

open Annotate Walk

/-! ### Texts without the annotations of references -/

/-- A reference as it is written: the name, the level and the type. -/
def IsReference (text name : List Char) : Prop :=
  ∃ level tag, text = '<' :: (name ++ level ++ ':' :: (tag ++ ['>'])) ∧
    (∀ character ∈ name, isWordPart character = true) ∧ IsNumeral level ∧
      ∀ character ∈ tag, isWordPart character = true

/-- The second text is what is left of the first if of every reference only the name is kept. Which
of the digits in front of the colon belong to the name cannot be told from the text, so there may be
several. -/
inductive Bare : List Char → List Char → Prop
  | nil : Bare [] []
  | other {character : Char} {text plain : List Char} :
      character ≠ '<' → Bare text plain → Bare (character :: text) (character :: plain)
  | reference {written name text plain : List Char} :
      IsReference written name → Bare text plain → Bare (written ++ text) (name ++ plain)

/-- The character is a parenthesis. -/
def IsParenthesis (character : Char) : Prop := character = '(' ∨ character = ')'

/-- No reference has a parenthesis in it. -/
theorem IsReference.not_mem {written name : List Char} {character : Char}
    (hreference : IsReference written name) (hparenthesis : IsParenthesis character) :
    character ∉ written ∧ character ∉ name := by
  obtain ⟨level, tag, rfl, hname, hlevel, htag⟩ := hreference
  have hother : isWordPart character = false ∧ isDigit character = false ∧
      character ∉ ['<', ':', '>'] := by
    rcases hparenthesis with rfl | rfl <;> decide
  obtain ⟨hpart, hdigit, hmarks⟩ := hother
  have hword {word : List Char} (hword : ∀ c ∈ word, isWordPart c = true) : character ∉ word :=
    fun hmem ↦ Bool.false_ne_true (hpart.symm.trans (hword character hmem))
  have hlevel : character ∉ level :=
    fun hmem ↦ Bool.false_ne_true (hdigit.symm.trans (hlevel.2 character hmem))
  refine ⟨?_, hword hname⟩
  simp only [List.mem_cons, List.mem_append, List.not_mem_nil, or_false, not_or] at hmarks ⊢
  exact ⟨hmarks.1, ⟨hword hname, hlevel⟩, hmarks.2.1, hword htag, hmarks.2.2⟩

namespace Bare

variable {text plain further others : List Char}

theorem append (hfirst : Bare text plain) (hsecond : Bare further others) :
    Bare (text ++ further) (plain ++ others) := by
  induction hfirst with
  | nil => exact hsecond
  | other hne _ induct => exact .other hne induct
  | reference hreference _ induct =>
    rw [List.append_assoc, List.append_assoc]
    exact .reference hreference induct

/-- A text without references stays as it is. -/
theorem refl (htext : '<' ∉ text) : Bare text text := by
  induction text with
  | nil => exact .nil
  | cons first text induct =>
    rw [List.mem_cons, not_or] at htext
    exact .other (Ne.symm htext.1) (induct htext.2)

/-- All parentheses are kept. -/
theorem count_eq (hbare : Bare text plain) : plain.count '(' = text.count '(' := by
  induction hbare with
  | nil => rfl
  | other _ _ induct => rw [List.count_cons, List.count_cons, induct]
  | reference hreference _ induct =>
    obtain ⟨hwritten, hname⟩ := hreference.not_mem (.inl rfl)
    rw [List.count_append, List.count_append, induct, List.count_eq_zero_of_not_mem hwritten,
      List.count_eq_zero_of_not_mem hname]

/-- A parenthesis stands between references. -/
theorem split {start rest : List Char} {character : Char} (hparenthesis : IsParenthesis character)
    (hbare : Bare (start ++ character :: rest) plain) :
    ∃ first second, Bare start first ∧ Bare rest second ∧ plain = first ++ character :: second := by
  generalize htext : start ++ character :: rest = text at hbare
  induction hbare generalizing start with
  | nil => simp at htext
  | @other c text plain hne hbare induct =>
    cases start with
    | nil =>
      obtain ⟨rfl, rfl⟩ := List.cons.inj htext
      exact ⟨[], plain, .nil, hbare, rfl⟩
    | cons first start =>
      obtain ⟨rfl, hbehind⟩ := List.cons.inj htext
      obtain ⟨left, right, hleft, hright, rfl⟩ := induct hbehind
      exact ⟨first :: left, right, .other hne hleft, hright, rfl⟩
  | @reference written name text plain hreference hbare induct =>
    have hnot := (hreference.not_mem hparenthesis).1
    -- The text in front of the parenthesis reaches behind the reference.
    obtain ⟨between, rfl, hbehind⟩ : ∃ between, start = written ++ between ∧
        between ++ character :: rest = text := by
      rcases List.append_eq_append_iff.1 htext with ⟨between, rfl, hrest⟩ | ⟨between, rfl, rfl⟩
      · cases between with
        | nil => exact ⟨[], by simp, by simpa using hrest⟩
        | cons first between =>
          rw [List.head_eq_of_cons_eq hrest] at hnot
          exact absurd (List.mem_append_right _ (List.mem_cons_self ..)) hnot
      · exact ⟨between, rfl, rfl⟩
    obtain ⟨left, right, hleft, hright, rfl⟩ := induct hbehind
    exact ⟨name ++ left, right, .reference hreference hleft, hright, by simp⟩

end Bare

/-! ### Texts of expressions -/

/-- The text of an expression without the annotations of its references. -/
def Expression.bare : Expression → String
  | .constant value _ => value.text
  | .read used => used.name
  | .unary sign operand _ =>
    sign.text ++ parenthesizedIf (precedence? operand).isSome operand.bare
  | .binary operator left right _ =>
    parenthesizedIf ((precedence? left).any (· < operator.precedence)) left.bare ++ " " ++
      operator.text ++ " " ++
        parenthesizedIf ((precedence? right).any (· ≤ operator.precedence)) right.bare

/-- The characters of constants. -/
def isConstantPart (character : Char) : Bool :=
  isWordPart character || character == '-' || character == '.'

theorem constantPart_of_digits {digits : List Char}
    (hdigits : ∀ digit ∈ digits, isDigit digit = true) :
    ∀ digit ∈ digits, isConstantPart digit = true := by
  intro digit hmem
  rw [isConstantPart, wordPart_of_digits hdigits digit hmem]
  rfl

theorem constantPart_realText (r : Float) :
    ∀ character ∈ (realText r).toList, isConstantPart character = true := by
  obtain ⟨whole, fraction, hlayout, hwhole, hfraction, -⟩ :=
    (shortestDecimal (Binary.ofMagnitude (realMagnitude r))).layout_eq
  have hsign (negative : Bool) : ∀ character ∈ (if negative then "-" else "").toList,
      isConstantPart character = true :=
    List.all_eq_true.1 (by cases negative <;> decide)
  have hinfinite : ∀ character ∈ "inf".toList, isConstantPart character = true :=
    List.all_eq_true.1 (by decide)
  have hnone : ∀ character ∈ "NaN".toList, isConstantPart character = true :=
    List.all_eq_true.1 (by decide)
  unfold realText
  simp only
  split
  · exact hnone
  split <;> rw [String.toList_append, List.forall_mem_append]
  · exact ⟨hsign _, hinfinite⟩
  · rw [String.toList_ofList, hlayout, List.forall_mem_append, List.forall_mem_cons]
    exact ⟨hsign _, constantPart_of_digits hwhole.2, by decide, constantPart_of_digits hfraction.2⟩

/-- No constant has a bracket in its text. -/
theorem brackets_not_mem_text (value : Value) :
    '<' ∉ value.text.toList ∧ '(' ∉ value.text.toList := by
  have hparts : ∀ character ∈ value.text.toList, isConstantPart character = true := by
    cases value with
    | real r => exact constantPart_realText r
    | integer n =>
      intro character hmem
      rcases characters_integer n character hmem with hdigit | rfl
      · exact constantPart_of_digits (List.forall_mem_singleton.2 hdigit) _
          (List.mem_singleton_self _)
      · rfl
  exact ⟨fun hmem ↦ absurd (hparts _ hmem) (by decide),
    fun hmem ↦ absurd (hparts _ hmem) (by decide)⟩

theorem count_parenthesizedIf (needed : Bool) (text : String) :
    (parenthesizedIf needed text).toList.count '(' = text.toList.count '(' + needed.toNat := by
  cases needed with
  | false => rfl
  | true =>
    have htext : (parenthesizedIf true text).toList = '(' :: (text.toList ++ [')']) := by
      simp [parenthesizedIf, String.toList_append]
    rw [htext, List.count_cons_self, List.count_append]
    rfl

/-- The text has as many opening parentheses as the expression needs. -/
theorem Expression.count_bare {e : Expression} (hnames : ∀ used ∈ e.mentions, IsName used.name) :
    e.bare.toList.count '(' = e.parentheses := by
  induction e with
  | constant value line => exact List.count_eq_zero_of_not_mem (brackets_not_mem_text value).2
  | read used =>
    refine List.count_eq_zero_of_not_mem fun hmem ↦ ?_
    have hname := hnames used (List.mem_singleton_self used)
    exact absurd (hname.wordPart _ hmem) (by decide)
  | unary sign operand line induct =>
    have hsign : sign.text.toList.count '(' = 0 := by cases sign <;> decide
    rw [bare, parentheses, String.toList_append, List.count_append, count_parenthesizedIf,
      induct hnames, hsign, Nat.zero_add]
  | binary operator left right line inductLeft inductRight =>
    rw [mentions, List.forall_mem_append] at hnames
    have hoperator : operator.text.toList.count '(' = 0 := by cases operator <;> decide
    have hblank : " ".toList.count '(' = 0 := by decide
    simp only [bare, parentheses, String.toList_append, List.count_append, count_parenthesizedIf,
      inductLeft hnames.1, inductRight hnames.2, hoperator, hblank, Nat.add_zero]

theorem bare_parenthesizedIf (needed : Bool) {text plain : String}
    (hbare : Bare text.toList plain.toList) :
    Bare (parenthesizedIf needed text).toList (parenthesizedIf needed plain).toList := by
  cases needed with
  | false => exact hbare
  | true =>
    simp only [parenthesizedIf, if_pos, String.toList_append]
    exact ((Bare.refl (by decide)).append hbare).append (.refl (by decide +kernel))

theorem yields_bare_mention (scope : ScopeId) {used : Mention} (hname : IsName used.name) :
    Yields (fun _ ↦ True) (fun text ↦ Bare text.toList used.name.toList) (mention scope used) := by
  have hresolved : Yields (fun _ ↦ True) (fun _ ↦ True) (resolveMention scope used) :=
    fun _ _ _ _ _ ↦ ⟨trivial, trivial⟩
  refine hresolved.bind fun resolved _ ↦ Yields.pure ?_
  have hreference : IsReference
      ("<" ++ tagged used.name resolved.level ++ ":" ++ symbolTag resolved.symbol ++ ">").toList
      used.name.toList :=
    ⟨(toString resolved.level).toList, (symbolTag resolved.symbol).toList,
      by simp [tagged, String.toList_append], hname.wordPart,
      ⟨toString_ne_nil _, isDigit_of_mem_toString⟩, wordPart_of_symbolTag _⟩
  have hbare := Bare.reference hreference .nil
  rwa [List.append_nil, List.append_nil] at hbare

/-- Where an expression is written, its annotations can be taken away. -/
theorem yields_bare (scope : ScopeId) {e : Expression}
    (hnames : ∀ used ∈ e.mentions, IsName used.name) :
    Yields (fun _ ↦ True) (fun text ↦ Bare text.toList e.bare.toList)
      (Annotate.expression scope e) := by
  induction e with
  | constant value line => exact Yields.pure (.refl (brackets_not_mem_text value).1)
  | read used => exact yields_bare_mention scope (hnames used (List.mem_singleton_self used))
  | unary sign operand line induct =>
    refine (induct hnames).bind fun text hbare ↦ Yields.pure ?_
    have hsign : '<' ∉ sign.text.toList := by cases sign <;> decide
    simp only [Expression.bare, String.toList_append]
    exact (Bare.refl hsign).append (bare_parenthesizedIf _ hbare)
  | binary operator left right line inductLeft inductRight =>
    rw [Expression.mentions, List.forall_mem_append] at hnames
    refine (inductLeft hnames.1).bind fun first hfirst ↦ ?_
    refine (inductRight hnames.2).bind fun second hsecond ↦ Yields.pure ?_
    have hoperator : '<' ∉ operator.text.toList := by cases operator <;> decide
    have hblank : '<' ∉ " ".toList := by decide
    simp only [Expression.bare, String.toList_append]
    exact ((((bare_parenthesizedIf _ hfirst).append (.refl hblank)).append
      (.refl hoperator)).append (.refl hblank)).append (bare_parenthesizedIf _ hsecond)

/-! ### Expressions of programs -/

/-- The assignments in the body of a procedure, without those in the procedures inside. -/
def Declaration.assignments : Declaration → List Assignment
  | .var _ => []
  | .procedure _ _ body => Statement.assignmentsAll body

/-- All assignments of a program. -/
def Program.assignments (p : Program) : List Assignment :=
  p.declarations.flatMap Declaration.assignments ++ Statement.assignmentsAll p.block.body

/-- All expressions of a program with their parts. -/
def Program.expressions (p : Program) : List Expression :=
  p.assignments.flatMap (·.value.parts)

theorem Expression.mentions_subset_of_parts {e part : Expression} (hmem : part ∈ e.parts) :
    part.mentions ⊆ e.mentions := by
  induction e with
  | constant | read =>
    obtain rfl := List.mem_singleton.1 hmem
    exact List.Subset.refl _
  | unary sign operand line induct =>
    rcases List.mem_append.1 hmem with hmem | hmem
    · exact induct hmem
    · obtain rfl := List.mem_singleton.1 hmem
      exact List.Subset.refl _
  | binary operator left right line inductLeft inductRight =>
    rcases List.mem_append.1 hmem with hmem | hmem
    · rcases List.mem_append.1 hmem with hmem | hmem
      · exact List.subset_append_of_subset_left _ (inductLeft hmem)
      · exact List.subset_append_of_subset_right _ (inductRight hmem)
    · obtain rfl := List.mem_singleton.1 hmem
      exact List.Subset.refl _

/-- The names in statements are those in assignments. -/
theorem Program.mentions_eq (p : Program) :
    p.mentions = p.assignments.flatMap Assignment.mentions := by
  have hdeclaration : Declaration.mentions = fun d ↦ d.assignments.flatMap Assignment.mentions := by
    funext d
    cases d with
    | var declared => rfl
    | procedure heading inner body => exact mentionsAll_eq body
  rw [assignments, List.flatMap_append, List.flatMap_assoc, ← mentionsAll_eq, mentions,
    hdeclaration]

theorem isName_of_expressions {p : Program} (hproper : p.Proper) {e : Expression}
    (hmem : e ∈ p.expressions) : ∀ used ∈ e.mentions, IsName used.name := by
  intro used hused
  obtain ⟨assignment, hassignment, hpart⟩ := List.mem_flatMap.1 hmem
  refine hproper.isName_of_mentions used ?_
  rw [p.mentions_eq]
  exact List.mem_flatMap.2 ⟨assignment, hassignment,
    List.mem_cons_of_mem _ (Expression.mentions_subset_of_parts hpart hused)⟩

/-! ### Parentheses taken out -/

theorem count_pair (start inside rest : List Char) :
    (start ++ '(' :: (inside ++ ')' :: rest)).count '(' =
      (start ++ inside ++ rest).count '(' + 1 := by
  have hclosing : (')' :: rest).count '(' = rest.count '(' :=
    List.count_cons_of_ne (by decide)
  rw [List.count_append, List.count_cons_self, List.count_append, hclosing, List.count_append,
    List.count_append]
  omega

/-- No pair of parentheses is redundant in the annotated text of an expression that was parsed. Take
out any opening parenthesis with any closing one behind it: this can be done in the text without
annotations as well, but however the annotations are erased, what is left is not read as the same
expression, up to lines. -/
theorem no_parentheses_redundant {limit : Nat} {source text : String} {p : Program}
    {e : Expression} {scope : ScopeId} {before after : Walker}
    (hparse : parse limit source = .ok p) (hmem : e ∈ p.expressions)
    (hwritten : Annotate.expression scope e before = .ok text after)
    {start inside rest : List Char}
    (hpair : text.toList = start ++ '(' :: (inside ++ ')' :: rest)) :
    (∃ first second third, e.bare.toList = first ++ '(' :: (second ++ ')' :: third) ∧
      Bare (start ++ inside ++ rest) (first ++ second ++ third)) ∧
    ∀ plain : String, Bare (start ++ inside ++ rest) plain.toList →
      ∀ further other, readExpression further plain = .ok other → other.unlined ≠ e.unlined := by
  have hnames := isName_of_expressions (proper_of_parse hparse) hmem
  obtain ⟨-, hbare⟩ := yields_bare scope hnames before text after trivial hwritten
  have hcount := hbare.count_eq.symm.trans (Expression.count_bare hnames)
  rw [hpair] at hbare hcount
  constructor
  · obtain ⟨first, others, hfirst, hothers, hwhole⟩ := hbare.split (.inl rfl)
    obtain ⟨second, third, hsecond, hthird, rfl⟩ := hothers.split (.inr rfl)
    exact ⟨first, second, third, hwhole, (hfirst.append hsecond).append hthird⟩
  · intro plain hplain further other hread hsame
    have hfew := parentheses_le_of_read hread
    rw [hplain.count_eq, ← other.parentheses_unlined, hsame, e.parentheses_unlined, ← hcount,
      count_pair] at hfew
    exact absurd hfew (Nat.not_succ_le_self _)

/-- A product with a difference in it, and the scope of a program that declares its variable. -/
theorem no_parentheses_redundant_product : ∃ p e scope before after,
    parse 60 "PROGRAM p; VAR x : REAL; BEGIN x := x * (x - 1) END." = .ok p ∧ e ∈ p.expressions ∧
    Annotate.expression scope e before = .ok "<x1:REAL0> * (<x1:REAL0> - 1)" after ∧
    (∃ other, readExpression 60 "x * (x - 1)" = .ok other ∧ other.unlined = e.unlined) ∧
    ∀ plain : String, Bare "<x1:REAL0> * <x1:REAL0> - 1".toList plain.toList →
      ∀ further other, readExpression further plain = .ok other → other.unlined ≠ e.unlined := by
  obtain ⟨e, he⟩ : ∃ e, e = Expression.binary .mul (.read ⟨"x", 1⟩)
    (.binary .sub (.read ⟨"x", 1⟩) (.constant (.integer 1) 1) 1) 1 := ⟨_, rfl⟩
  obtain ⟨p, hparse, hmem⟩ : ∃ p : Program,
      parse 60 "PROGRAM p; VAR x : REAL; BEGIN x := x * (x - 1) END." = .ok p ∧
        decide (e ∈ p.expressions) = true := exists_of_any (by subst he; decide +kernel)
  obtain ⟨other, hread, hsame⟩ : ∃ other, readExpression 60 "x * (x - 1)" = .ok other ∧
      decide (other.unlined = e.unlined) = true := exists_of_any (by subst he; decide +kernel)
  obtain ⟨text, hreport, htext⟩ : ∃ text, (Report.ofWalk (do
      let scope ← push "global" Scopes.builtinsId
      let _ ← declareVariable scope ⟨⟨"x", 1⟩, ⟨"REAL", 1⟩⟩
      Annotate.expression scope e)).outcome = .ok text ∧
        decide (text = "<x1:REAL0> * (<x1:REAL0> - 1)") = true :=
    exists_of_any (by subst he; decide +kernel)
  obtain rfl := of_decide_eq_true htext
  unfold Report.ofWalk at hreport
  split at hreport
  · next written after hresult =>
    obtain rfl := Except.ok.inj hreport
    obtain ⟨scope, opened, -, hrest⟩ := ok_of_bind_ok hresult
    obtain ⟨typed, before, -, hwritten⟩ := ok_of_bind_ok hrest
    have hpair : "<x1:REAL0> * (<x1:REAL0> - 1)".toList =
        "<x1:REAL0> * ".toList ++ '(' :: ("<x1:REAL0> - 1".toList ++ ')' :: []) := by
      decide +kernel
    have hremoved : "<x1:REAL0> * ".toList ++ "<x1:REAL0> - 1".toList ++ [] =
        "<x1:REAL0> * <x1:REAL0> - 1".toList := by decide +kernel
    refine ⟨p, e, scope, before, after, hparse, of_decide_eq_true hmem, hwritten,
      ⟨other, hread, of_decide_eq_true hsame⟩, ?_⟩
    rw [← hremoved]
    exact (no_parentheses_redundant hparse (of_decide_eq_true hmem) hwritten hpair).2
  · cases hreport

end MiniPascal
