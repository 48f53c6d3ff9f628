import MiniPascal.Proofs.Annotation.Body
import MiniPascal.Proofs.Grammar.Parsing
import MiniPascal.Report

/-!
# Annotated programs can be read again

`erased_annotation_parses`: the annotated text of a program is, without its annotations, the text of
a program that is alike. Its real constants are the same, as each was read from digits and is
written in digits from which it is read again.

Variables and parameters show the types that they name because the open scopes keep these
(`Walk.Kept`). The lines of a procedure show the same wherever they are indented to, and the comment
behind a block shows nothing. That declarations begin with the variables is how the grammar has
them; the texts show them in the same order.
-/

set_option autoImplicit false
set_option relaxedAutoImplicit false

namespace MiniPascal

open Annotate Walk

/-! ### Declared names -/

/-- What is filed for a declaration writes the declaration again. -/
theorem writes_filed {declared : VariableDeclaration} {typed : TypedName} (level : Nat)
    (hproper : declared.Proper) (hfiled : Files declared typed) :
    IsName typed.name ∧ Renamed declared.mention.name (tagged typed.name level) ∧
      declared.typeName.name = typed.type.name := by
  obtain ⟨hname, htype⟩ := hfiled
  obtain ⟨type, htypeName⟩ := hproper.type
  obtain rfl := htype type htypeName
  rw [hname]
  exact ⟨hproper.name, renamed_tagged _ level, htypeName⟩

/-! ### Variables -/

/-- The texts show variables. -/
def PrintsVariables (declared : List VariableDeclaration) (texts : List String) : Prop :=
  ∃ tokens, Pages texts tokens ∧
    Writes Wording.Variables tokens (List.Forall₂ VariableDeclaration.Like declared)

theorem page_variable {typed : TypedName} (level : Nat) (hname : IsName typed.name) :
    Page (variableText typed level) (.keyword .var ::
      (typedTokens (tagged typed.name level) typed.type ++ [.mark .semicolon])) := by
  have hvar : Inline noCharacter "var " [.keyword .var] :=
    @Inline.keywordBlank "var" _ (by decide)
  have hindent : Inline noCharacter indentation [] := Inline.blanks (by decide)
  have hall := ((hindent.andThen hvar).andThen (inline_typedTag hname level)).append
    Inline.semicolon begins_semicolon
  refine .single ?_ hall.closed
  simp [variableText, String.toList_append]

theorem yields_variables (scope : ScopeId) {declared : List VariableDeclaration}
    (hproper : ∀ d ∈ declared, d.Proper) :
    Yields Kept (PrintsVariables declared) (Annotate.declarations scope (declared.map .var)) := by
  induction declared with
  | nil =>
    rw [List.map_nil, Annotate.declarations]
    exact Yields.pure ⟨[], .nil, Writes.variablesNil⟩
  | cons d declared induct =>
    have hfirst := hproper d (List.mem_cons_self ..)
    rw [List.map_cons, Annotate.declarations, Annotate.declaration]
    have htext : Yields Kept (fun text ↦ ∃ tokens, Page text tokens ∧
        Writes Wording.Section tokens (List.Forall₂ VariableDeclaration.Like [d]))
        (do
          let typed ← declareVariable scope d
          return variableText typed (← Walk.scope scope).level) := by
      refine (yields_declareVariable scope hfirst.name.untyped).bind fun typed hfiled ↦ ?_
      refine (yields_scope scope).bind fun here _ ↦ Yields.pure ?_
      obtain ⟨hname, hrenamed, htype⟩ := writes_filed here.level hfirst hfiled
      exact ⟨_, page_variable here.level hname, Writes.variableSection hrenamed htype⟩
    refine htext.bind fun text hpage ↦ ?_
    refine (induct fun d hmem ↦ hproper d (List.mem_cons_of_mem _ hmem)).bind fun texts htexts ↦ ?_
    obtain ⟨tokens, hpage, hwrites⟩ := hpage
    obtain ⟨others, hpages, hwrites'⟩ := htexts
    exact Yields.pure ⟨_, .cons hpage hpages, hwrites.variablesCons hwrites'⟩

/-! ### Procedures -/

theorem inline_parameters (level : Nat) {parameters : List VariableDeclaration}
    {typed : List TypedName} (hfiled : List.Forall₂ Files parameters typed)
    (hproper : ∀ d ∈ parameters, d.Proper) (hne : typed ≠ []) :
    ∃ tokens, Inline joinsWord ("; ".intercalate (typed.map (typedTag · level))) tokens ∧
      Writes (Wording.Separated .semicolon Wording.Group) tokens
        (fun groups ↦ List.Forall₂ VariableDeclaration.Like parameters groups.flatten) := by
  induction hfiled with
  | nil => exact absurd rfl hne
  | @cons d t parameters typed hfirst hothers induct =>
    obtain ⟨hname, hrenamed, htype⟩ := writes_filed level (hproper d (List.mem_cons_self ..)) hfirst
    have hgroup := Writes.group hrenamed htype
    have hinline := inline_typedTag hname level
    cases typed with
    | nil =>
      cases hothers
      rw [List.map_singleton, String.intercalate_singleton]
      exact ⟨_, hinline, hgroup.groupsOne⟩
    | cons second typed =>
      obtain ⟨tokens, hrest, hwrites⟩ :=
        induct (fun d hmem ↦ hproper d (List.mem_cons_of_mem _ hmem)) (List.cons_ne_nil _ _)
      have hgap : Inline noCharacter "; " [.mark .semicolon] :=
        Inline.semicolon.andThen Inline.blank
      have hall := (hinline.append hgap (by decide)).andThen hrest
      rw [List.append_assoc] at hall
      rw [List.map_cons, List.map_cons, String.intercalate_cons_cons]
      exact ⟨_, hall, hgroup.groupsMore hwrites⟩

/-- A heading shows the name of the procedure and its parameters. -/
theorem inline_heading {name : String} (level innerLevel : Nat)
    {parameters : List VariableDeclaration} {typed : List TypedName} (hname : IsName name)
    (hfiled : List.Forall₂ Files parameters typed) (hproper : ∀ d ∈ parameters, d.Proper) :
    ∃ tokens, Inline joinsWord (headingText name level typed innerLevel)
        (.keyword .procedure :: .identifier (tagged name level) ::
          (tokens ++ [.mark .semicolon])) ∧
      Writes Wording.Parameters tokens (List.Forall₂ VariableDeclaration.Like parameters) := by
  have hprocedure : Inline noCharacter "procedure " [.keyword .procedure] :=
    @Inline.keywordBlank "procedure" _ (by decide)
  have hfront := hprocedure.andThen (Inline.name (hname.tagged level))
  cases typed with
  | nil =>
    cases hfiled
    have hall := hfront.append (Inline.empty.andThen Inline.semicolon) (by decide)
    refine ⟨[], ?_, Writes.parametersNone⟩
    rw [← String.append_assoc] at hall
    exact hall.closed
  | cons first typed =>
    obtain ⟨tokens, hinline, hwrites⟩ :=
      inline_parameters innerLevel hfiled hproper (List.cons_ne_nil _ _)
    have hlisted := hinline.parentheses (by decide)
    have hbegins : Begins joinsWord "(" := by decide
    have hall := (hfront.append hlisted ((hbegins.append _).append _)).andThen Inline.semicolon
    refine ⟨_, ?_, Writes.parametersListed hwrites⟩
    simp only [List.cons_append, List.nil_append, List.append_assoc] at hall ⊢
    exact hall.closed

/-- The texts show procedures. -/
def PrintsProcedures (ds : List Declaration) (texts : List String) : Prop :=
  ∃ tokens, Pages texts tokens ∧ Writes Wording.Procedures tokens (Declaration.Like ds)

theorem declarations_append (scope : ScopeId) (ds others : List Declaration) :
    Annotate.declarations scope (ds ++ others) =
      (do
        let texts ← Annotate.declarations scope ds
        let further ← Annotate.declarations scope others
        return texts ++ further) := by
  induction ds with
  | nil => simp [Annotate.declarations]
  | cons d ds induct =>
    rw [List.cons_append, Annotate.declarations, induct, Annotate.declarations]
    simp

/-- The text of a procedure, given what its parts show. -/
theorem page_procedure {heading name : String} {texts lines : List String}
    {ts ds bs : List Token} (hheading : Inline joinsWord heading ts) (hname : IsName name)
    (htexts : Pages texts ds) (hlines : Lines lines bs) :
    Page (indentText (heading ++ "\n" ++ blockText texts lines ++ ";" ++ closing name))
      (ts ++ (ds ++ (.keyword .beginBlock :: (bs ++ [.keyword .endBlock, .mark .semicolon])))) := by
  have hending : Inline joinsWord (";" ++ closing name) [.mark .semicolon] :=
    (Inline.semicolon.andThen (Inline.closing hname)).closed
  have hblock := Page.block htexts hlines hending (begins_semicolon.append _)
  have hall := (hblock.under hheading).indentText
  simpa only [String.append_assoc] using hall

/-- The texts show variables and then procedures. -/
def PrintsDeclarations (declared : List VariableDeclaration) (inner : List Declaration)
    (texts : List String) : Prop :=
  ∃ vs is, Pages texts (vs ++ is) ∧
    Writes Wording.Variables vs (List.Forall₂ VariableDeclaration.Like declared) ∧
      Writes Wording.Procedures is (Declaration.Like inner)

theorem yields_declarations (scope : ScopeId) {declared : List VariableDeclaration}
    {inner : List Declaration} (hproper : ∀ d ∈ declared, d.Proper)
    (hinner : Yields Kept (PrintsProcedures inner) (Annotate.declarations scope inner)) :
    Yields Kept (PrintsDeclarations declared inner)
      (Annotate.declarations scope (declared.map .var ++ inner)) := by
  rw [declarations_append]
  refine (yields_variables scope hproper).bind fun texts htexts ↦ ?_
  refine hinner.bind fun further hfurther ↦ Yields.pure ?_
  obtain ⟨vs, hpages, hvariables⟩ := htexts
  obtain ⟨is, hpages', hprocedures⟩ := hfurther
  exact ⟨vs, is, hpages.append hpages', hvariables, hprocedures⟩

/-- The text shows a procedure, whatever procedures follow. -/
def PrintsProcedure (d : Declaration) (text : String) : Prop :=
  ∃ tokens, Page text tokens ∧ ∀ {later : List Token} {others : List Declaration},
    Writes Wording.Procedures later (Declaration.Like others) →
      Writes Wording.Procedures (tokens ++ later) (Declaration.Like (d :: others))

theorem yields_body (scope : ScopeId) {x : List Lexeme} {body : List Statement}
    (hwritten : Wording.Compound x body) (hshaped : Shaped x) :
    Yields Kept (PrintsAll body) (Annotate.statements scope body) := by
  obtain ⟨p, q, hsequence⟩ := hwritten
  exact yields_annotated_statements scope hsequence hshaped.tail.left

/-- A procedure, given that the procedures inside it are shown. -/
theorem yields_procedure (scope : ScopeId) {heading : Heading} {declared : List VariableDeclaration}
    {inner : List Declaration} {x : List Lexeme} {body : List Statement}
    (hname : IsName heading.name) (hparameters : ∀ d ∈ heading.parameters, d.Proper)
    (hdeclared : ∀ d ∈ declared, d.Proper)
    (hinner : ∀ scope, Yields Kept (PrintsProcedures inner) (Annotate.declarations scope inner))
    (hbody : Wording.Compound x body) (hshaped : Shaped x) :
    Yields Kept (PrintsProcedure (.procedure heading (declared.map .var ++ inner) body))
      (Annotate.declaration scope (.procedure heading (declared.map .var ++ inner) body)) := by
  rw [Annotate.declaration]
  refine (yields_scope scope).bind fun here _ ↦ ?_
  refine (yields_openProcedure scope hname.untyped
    fun d hmem ↦ (hparameters d hmem).name.untyped).bind fun opened hfiled ↦ ?_
  refine (yields_scope opened.1).bind fun innermost _ ↦ ?_
  refine (yields_declarations opened.1 hdeclared (hinner opened.1)).bind fun texts htexts ↦ ?_
  refine (yields_body opened.1 hbody hshaped).bind fun lines hlines ↦ ?_
  refine (yields_pop opened.1).bind fun _ _ ↦ Yields.pure ?_
  obtain ⟨vs, is, hpages, hvs, his⟩ := htexts
  obtain ⟨bs, hall, hbs⟩ := hlines
  obtain ⟨ps, hheading, hps⟩ := inline_heading here.level innermost.level hname hfiled hparameters
  refine ⟨_, page_procedure hheading hname hpages hall, fun hothers ↦ ?_⟩
  have hwrites := Writes.proceduresCons (renamed_tagged heading.name here.level) hps hvs his
    (Writes.compound hbs) hothers
  simpa using hwrites

/-- Procedures, in whatever scope they stand. -/
theorem yields_procedures (scope : ScopeId) {x : List Lexeme} {ds : List Declaration}
    (hwritten : Wording.Procedures x ds) (hshaped : Shaped x) :
    Yields Kept (PrintsProcedures ds) (Annotate.declarations scope ds) := by
  induction hwritten generalizing scope with
  | nil =>
    rw [Annotate.declarations]
    exact Yields.pure ⟨[], .nil, Writes.proceduresNil⟩
  | cons name p q r s hparameters hvariables _ hbody _ inductInner inductOthers =>
    have hname : IsName name := hshaped.tail.head
    have hblock := hshaped.tail.tail.right.tail
    rw [Annotate.declarations]
    refine (yields_procedure scope hname
      (proper_of_parameters hparameters hshaped.tail.tail.left)
      (proper_of_variables hvariables hblock.left.left.left)
      (fun inside ↦ inductInner inside hblock.left.left.right) hbody hblock.left.right).bind
      fun text hpage ↦ ?_
    refine (inductOthers scope hblock.right.tail).bind fun texts htexts ↦ Yields.pure ?_
    obtain ⟨tokens, hpage, hwrites⟩ := hpage
    obtain ⟨os, hpages, hos⟩ := htexts
    exact ⟨_, .cons hpage hpages, hwrites hos⟩

/-! ### Programs -/

/-- The block of a program, with what stands behind it. -/
theorem yields_programBlock (scope : ScopeId) {name : String} (line : Nat) {x : List Lexeme}
    {block : Block} (hname : IsName name) (hwritten : Wording.Block x block)
    (hshaped : Shaped x) :
    Yields Kept (fun text ↦ ∃ tokens, Page (text ++ ("." ++ closing name)) tokens ∧
      Writes Wording.Program (.keyword .program :: .identifier (tagged name 0) ::
        .mark .semicolon :: (tokens ++ [.eof])) (Program.Like ⟨name, line, block⟩))
      (Annotate.block scope block) := by
  obtain ⟨hvariables, hprocedures, hbody⟩ := hwritten
  rw [Annotate.block]
  refine (yields_declarations scope (proper_of_variables hvariables hshaped.left.left)
    (yields_procedures scope hprocedures hshaped.left.right)).bind fun texts htexts ↦ ?_
  refine (yields_body scope hbody hshaped.right).bind fun lines hlines ↦ Yields.pure ?_
  obtain ⟨vs, is, hpages, hvs, his⟩ := htexts
  obtain ⟨bs, hall, hbs⟩ := hlines
  have hending : Inline joinsWord ("." ++ closing name) [.mark .dot] :=
    (Inline.dot.andThen (Inline.closing hname)).closed
  have hbegins : Begins joinsWord "." := by decide
  refine ⟨_, Page.block hpages hall hending (hbegins.append _), ?_⟩
  have hwrites := @Writes.program _ _ _ _ _ _ _ line _ (renamed_tagged name 0) hvs his
    (Writes.compound hbs)
  simpa using hwrites

theorem inline_programHeading {name : String} (hname : IsName name) :
    Inline joinsWord ("program " ++ tagged name 0 ++ ";")
      [.keyword .program, .identifier (tagged name 0), .mark .semicolon] := by
  have hprogram : Inline noCharacter "program " [.keyword .program] :=
    @Inline.keywordBlank "program" _ (by decide)
  exact ((hprogram.andThen (Inline.name (hname.tagged 0))).append Inline.semicolon
    begins_semicolon).closed

theorem yields_annotated_program {x : List Lexeme} {p : Program} (hwritten : Wording.Program x p)
    (hshaped : Shaped x) :
    Yields Kept (fun text ↦ ∃ tokens, Shows joinsWord text tokens ∧
      Writes Wording.Program (tokens ++ [.eof]) p.Like) (Annotate.program p) := by
  obtain ⟨name, a, b, c, d, e, hblock⟩ := hwritten
  have hname : IsName name := hshaped.tail.head
  rw [Annotate.program]
  refine (yields_push "global" Scopes.builtinsId).bind fun scope _ ↦ ?_
  refine (yields_programBlock scope a.line hname hblock hshaped.tail.tail.tail.left).bind
    fun text hpage ↦ ?_
  refine (yields_pop scope).bind fun _ _ ↦ Yields.pure ?_
  obtain ⟨tokens, hpage, hwrites⟩ := hpage
  have hall := (hpage.under (inline_programHeading hname)).shows
  have hline : (";\n" : String) = ";" ++ "\n" := rfl
  refine ⟨.keyword .program :: .identifier (tagged name 0) :: .mark .semicolon :: tokens, ?_,
    hwrites⟩
  simpa only [hline, String.append_assoc, List.cons_append, List.nil_append] using hall

/-- The annotated text of a program is, without its annotations, the text of a program that is
alike. -/
theorem erased_annotation_parses {limit : Nat} {text annotated : String} {p : Program}
    (hparse : parse limit text = .ok p)
    (hannotated : (Report.ofWalk (Annotate.program p)).outcome = .ok annotated) :
    ∃ lexemes p', tokenize (erased annotated) = .ok lexemes ∧ p.Like p' ∧
      ∀ further, (erased annotated).length < further →
        parse further (erased annotated) = .ok p' := by
  obtain ⟨-, hwritten⟩ := written_of_parse hparse
  have hshaped : Shaped (Feed.ofText text).ahead := Feed.shaped_ahead text
  unfold Report.ofWalk at hannotated
  split at hannotated
  · next written later hresult =>
    obtain rfl := Except.ok.inj hannotated
    obtain ⟨-, tokens, hshows, hwrites⟩ := yields_annotated_program hwritten hshaped
      Walker.start written later TypesKept.builtins hresult
    have hscans := hshows [] [] (avoids_nil _) (by rw [erase_nil]; exact .nil)
    rw [List.append_nil, List.append_nil] at hscans
    have htext : (erased written).toList = erase written.toList := String.toList_ofList
    rw [← htext] at hscans
    obtain ⟨lexemes, hlexemes, hmap⟩ := hscans.tokenize
    obtain ⟨p', hprogram, hlike⟩ := hwrites lexemes hmap
    refine ⟨lexemes, p', hlexemes, hlike, fun further hlimit ↦ ?_⟩
    exact (parse_iff_written hlexemes hlimit).2 hprogram
  · cases hannotated

/-- A real constant is read again as it was, and so are the parentheses around a right operand. -/
theorem erased_annotation_parses_sum :
    ∃ p annotated p', parse 60 "PROGRAM p; VAR x : REAL; BEGIN x := 1.5 - (2 - x) END." = .ok p ∧
      (Report.ofWalk (Annotate.program p)).outcome = .ok annotated ∧ p.Like p' ∧
      parse 1000 (erased annotated) = .ok p' := by
  obtain ⟨p, hparse, hwalk⟩ : ∃ p,
      parse 60 "PROGRAM p; VAR x : REAL; BEGIN x := 1.5 - (2 - x) END." = .ok p ∧
        (Report.ofWalk (Annotate.program p)).outcome.toOption.any
          (fun annotated ↦ decide ((erased annotated).length < 1000)) = true :=
    exists_parsed String.toList_ofList (by decide +kernel)
  obtain ⟨annotated, hannotated, hlength⟩ := exists_of_any hwalk
  obtain ⟨_, p', -, hlike, hagain⟩ := erased_annotation_parses hparse hannotated
  exact ⟨p, annotated, p', hparse, hannotated, hlike, hagain 1000 (of_decide_eq_true hlength)⟩

end MiniPascal
