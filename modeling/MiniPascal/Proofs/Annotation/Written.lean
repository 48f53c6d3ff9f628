import MiniPascal.Proofs.Scope.Walking

/-!
# The annotated text as a function of the program

Annotating resolves names in open scopes. Here the text is written from the tree alone, with the
frames around each place passed down: `Program.written`. That the walk writes this text, and fails
where the check of the program does, is `ends_annotated_program`. The texts of declarations need no
environment but the level of the frame that they stand in.
-/

set_option autoImplicit false
set_option relaxedAutoImplicit false

namespace MiniPascal

open Annotate

/-! ### Texts -/

/-- What a reference says about a binding. -/
def Binding.tag : Binding → String
  | .scalar type => typeTag type
  | .var declared => tagged declared.typeName.name 0
  | .procedure _ => "PROCEDURE"

/-- A reference with the level and the type of its nearest binding. -/
def Environment.reference (env : Environment) (used : Mention) : String :=
  match env.nearest used.name with
  | some (binding, level) => "<" ++ tagged used.name level ++ ":" ++ binding.tag ++ ">"
  | none => ""

def Expression.written (env : Environment) : Expression → String
  | .constant value _ => value.text
  | .read used => env.reference used
  | .unary sign operand _ =>
    sign.text ++ parenthesizedIf (precedence? operand).isSome (operand.written env)
  | .binary operator left right _ =>
    parenthesizedIf ((precedence? left).any (· < operator.precedence)) (left.written env) ++ " " ++
      operator.text ++ " " ++
        parenthesizedIf ((precedence? right).any (· ≤ operator.precedence)) (right.written env)

mutual

def Statement.written (env : Environment) : Statement → List String
  | .compound inner =>
    "begin" :: (Statement.writtenAll env inner).map (indentation ++ ·) ++ ["end;"]
  | .assign target value _ => [env.reference target ++ " := " ++ value.written env ++ ";"]
  | .empty => []

def Statement.writtenAll (env : Environment) : List Statement → List String
  | [] => []
  | first :: others => first.written env ++ Statement.writtenAll env others

end

/-- A variable or parameter and its type. -/
def VariableDeclaration.written (declared : VariableDeclaration) (level : Nat) : String :=
  tagged declared.mention.name level ++ " : " ++ tagged declared.typeName.name 0

def Heading.written (heading : Heading) (level : Nat) : String :=
  let listed :=
    if heading.parameters.isEmpty then ""
    else "(" ++ "; ".intercalate (heading.parameters.map (·.written (level + 1))) ++ ")"
  "procedure " ++ tagged heading.name level ++ listed ++ ";"

mutual

/-- A declaration behind those of a frame. -/
def Declaration.written (outer : Environment) (frame : Frame) : Declaration → String
  | .var declared => indentation ++ "var " ++ declared.written outer.length ++ ";"
  | .procedure heading inner body =>
    let around := (frame ++ [.procedure heading]) :: outer
    let parameters := heading.parameters.map .var
    indentText (heading.written outer.length ++ "\n" ++
      blockText (Declaration.writtenAll around parameters inner)
        (Statement.writtenAll ((parameters ++ inner.map Declaration.binding) :: around) body) ++
          ";" ++ closing heading.name)

def Declaration.writtenAll (outer : Environment) (frame : Frame) : List Declaration → List String
  | [] => []
  | first :: others =>
    first.written outer frame :: Declaration.writtenAll outer (frame ++ [first.binding]) others

end

def Program.written (p : Program) : String :=
  "program " ++ tagged p.name 0 ++ ";\n" ++
    blockText (Declaration.writtenAll .outermost [] p.block.declarations)
      (Statement.writtenAll p.site.environment p.block.body) ++ "." ++ closing p.name

/-! ### Bodies -/

variable {outer : Environment} {frame : Frame}

theorem symbolTag_of_filed {binding : Binding} {symbol : Symbol} (hfiled : binding.Filed symbol) :
    symbolTag symbol = binding.tag := by
  cases hfiled with
  | scalar type => rfl
  | var htype => rw [symbolTag, typeTag, Binding.tag, htype]
  | procedure heading parameters => rfl

theorem ends_annotated_mention (used : Mention) :
    Ends (frame :: outer) (mention outer.length used) (Scoping.mention (frame :: outer) used)
      (frame :: outer) (· = Environment.reference (frame :: outer) used) := by
  refine (Walk.ends_resolveMention used).followed fun resolved hresolved ↦ Ends.pure ?_
  obtain ⟨binding, hnearest, hfiled⟩ := hresolved
  rw [Environment.reference, hnearest, symbolTag_of_filed hfiled]

theorem ends_annotated_expression (e : Expression) :
    Ends (frame :: outer) (expression outer.length e)
      (Scoping.mentions (frame :: outer) e.mentions) (frame :: outer)
      (· = e.written (frame :: outer)) := by
  induction e with
  | constant value line => exact Ends.pure rfl
  | read used =>
    rw [Expression.mentions, Scoping.mentions_singleton]
    exact ends_annotated_mention used
  | unary sign operand line induct =>
    refine induct.followed fun text htext ↦ Ends.pure ?_
    rw [Expression.written, htext]
  | binary operator left right line inductLeft inductRight =>
    rw [Expression.mentions, Scoping.mentions_append]
    refine inductLeft.bind fun first hfirst ↦ inductRight.followed fun second hsecond ↦ ?_
    refine Ends.pure ?_
    rw [Expression.written, hfirst, hsecond]

mutual

theorem ends_annotated_statement (s : Statement) :
    Ends (frame :: outer) (statement outer.length s)
      (Scoping.mentions (frame :: outer) s.mentions) (frame :: outer)
      (· = s.written (frame :: outer)) := by
  cases s with
  | compound inner =>
    rw [statement, Statement.mentions, Statement.written]
    refine (ends_annotated_statements inner).followed fun lines hlines ↦ Ends.pure ?_
    rw [hlines]
  | assign target value line =>
    rw [statement, Statement.mentions, Statement.written]
    refine (ends_annotated_mention target).bind fun first hfirst ↦ ?_
    refine (ends_annotated_expression value).followed fun second hsecond ↦ Ends.pure ?_
    rw [hfirst, hsecond]
  | empty =>
    rw [statement, Statement.mentions, Statement.written]
    exact Ends.pure rfl

theorem ends_annotated_statements (ss : List Statement) :
    Ends (frame :: outer) (statements outer.length ss)
      (Scoping.mentions (frame :: outer) (Statement.mentionsAll ss)) (frame :: outer)
      (· = Statement.writtenAll (frame :: outer) ss) := by
  cases ss with
  | nil =>
    rw [statements, Statement.mentionsAll, Statement.writtenAll]
    exact Ends.pure rfl
  | cons first others =>
    rw [statements, Statement.mentionsAll, Statement.writtenAll, Scoping.mentions_append]
    refine (ends_annotated_statement first).bind fun lines hlines ↦ ?_
    refine (ends_annotated_statements others).followed fun further hfurther ↦ Ends.pure ?_
    rw [hlines, hfurther]

end

/-! ### Declarations -/

theorem typedTag_of_declares {declared : VariableDeclaration} {typed : TypedName}
    (hdeclares : Walk.Declares declared typed) (level : Nat) :
    typedTag typed level = declared.written level := by
  rw [typedTag, typeTag, hdeclares.name, hdeclares.type, VariableDeclaration.written]

theorem listed_of_declares {declared : List VariableDeclaration} {parameters : List TypedName}
    (hdeclares : List.Forall₂ Walk.Declares declared parameters) (level : Nat) :
    parameters.map (typedTag · level) = declared.map (·.written level) ∧
      parameters.isEmpty = declared.isEmpty := by
  induction hdeclares with
  | nil => exact ⟨rfl, rfl⟩
  | cons hfirst _ induct =>
    rw [List.map_cons, List.map_cons, typedTag_of_declares hfirst, induct.1]
    exact ⟨rfl, rfl⟩

theorem headingText_of_declares {heading : Heading} {parameters : List TypedName}
    (hdeclares : List.Forall₂ Walk.Declares heading.parameters parameters) (level : Nat) :
    headingText heading.name level parameters (level + 1) = heading.written level := by
  obtain ⟨htexts, hempty⟩ := listed_of_declares hdeclares (level + 1)
  rw [headingText, Heading.written, htexts, hempty]

mutual

theorem ends_annotated_declaration (outer : Environment) (frame : Frame) (d : Declaration) :
    Ends (frame :: outer) (declaration outer.length d) (Scoping.declaration outer frame d)
      ((frame ++ [d.binding]) :: outer) (· = d.written outer frame) := by
  cases d with
  | var declared =>
    rw [declaration, Scoping.declaration, Declaration.written]
    refine (Walk.ends_declareVariable declared).followed fun typed htyped ↦ ?_
    refine Walk.ends_scope_last.andThen fun here hhere ↦ Ends.pure ?_
    rw [variableText, typedTag_of_declares htyped, hhere.1]
  | procedure heading inner body =>
    rw [declaration, Scoping.declaration, Declaration.written, ← bind_assoc]
    refine Walk.ends_scope_last.andThen fun here hhere ↦ ?_
    refine (Walk.ends_openProcedure heading).bind fun opened hopened ↦ ?_
    obtain ⟨id, parameters⟩ := opened
    obtain ⟨rfl, hparameters⟩ := hopened
    refine Walk.ends_scope_last.andThen fun innermost hinnermost ↦ ?_
    refine (ends_annotated_declarations _ _ inner).bind fun texts htexts ↦ ?_
    refine (ends_annotated_statements body).followed fun lines hlines ↦ ?_
    refine (Walk.ends_pop (List.cons_ne_nil _ _)).andThen fun _ _ ↦ Ends.pure ?_
    rw [hhere.1, hinnermost.1, htexts, hlines, ← headingText_of_declares hparameters]
    rfl

theorem ends_annotated_declarations (outer : Environment) (frame : Frame) (ds : List Declaration) :
    Ends (frame :: outer) (declarations outer.length ds) (Scoping.declarations outer frame ds)
      ((frame ++ ds.map Declaration.binding) :: outer)
      (· = Declaration.writtenAll outer frame ds) := by
  cases ds with
  | nil =>
    rw [declarations, Scoping.declarations, Declaration.writtenAll, List.map_nil, List.append_nil]
    exact Ends.pure rfl
  | cons first others =>
    rw [declarations, Scoping.declarations, Declaration.writtenAll, List.map_cons]
    refine (ends_annotated_declaration outer frame first).bind fun text htext ↦ ?_
    have hothers := ends_annotated_declarations outer (frame ++ [first.binding]) others
    rw [List.append_assoc, List.singleton_append] at hothers
    refine hothers.followed fun texts htexts ↦ Ends.pure ?_
    rw [htext, htexts]

end

/-- A block in an environment, without what stands behind its end. -/
theorem ends_annotated_block (outer : Environment) (content : Block) :
    Ends ([] :: outer) (block outer.length content)
      (Scoping.block outer content.declarations content.body)
      (content.declarations.map Declaration.binding :: outer)
      (· = blockText (Declaration.writtenAll outer [] content.declarations)
        (Statement.writtenAll (content.declarations.map Declaration.binding :: outer)
          content.body)) := by
  refine (ends_annotated_declarations outer [] content.declarations).bind fun texts htexts ↦ ?_
  refine (ends_annotated_statements content.body).followed fun lines hlines ↦ Ends.pure ?_
  rw [htexts, hlines]
  rfl

/-- Annotating a program writes its text, or fails as the check of the program does. -/
theorem ends_annotated_program (p : Program) :
    Ends .outermost (program p) (Scoping.program p) .outermost (· = p.written) := by
  rw [program, Scoping.program]
  refine (Walk.ends_push "global").andThen fun scope hscope ↦ ?_
  subst hscope
  refine (ends_annotated_block .outermost p.block).followed fun text htext ↦ ?_
  refine (Walk.ends_pop (List.cons_ne_nil _ _)).andThen fun _ _ ↦ Ends.pure ?_
  rw [htext, Program.written]
  rfl

end MiniPascal
