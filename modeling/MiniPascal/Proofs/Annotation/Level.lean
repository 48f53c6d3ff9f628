import MiniPascal.Proofs.Annotation.Body
import MiniPascal.Proofs.Annotation.Occurrence
import MiniPascal.Proofs.Grammar.Parsing

/-!
# Annotations name the right declarations

`annotations_name_declarations`: reading an annotated text in order, one sees the occurrences of the
program in order, each declared name with the level of its frame, and each reference with the level
and the type of its nearest binding.

The induction is on the tree and needs of each occurrence only that its name is a word and, if it is
a reference, that it has a binding whose tag is a word (`Occurrence.Legible`). In a program that was
parsed and annotated they all are: names come from the text, and the program is well-scoped.
-/

set_option autoImplicit false
set_option relaxedAutoImplicit false

namespace MiniPascal

open Annotate

/-! ### What is seen of an occurrence -/

namespace Occurrence

/-- A reference without a binding is not written. -/
def sighting : Occurrence → Sighting
  | .named name level => .tagged (tagged name level)
  | .referred used seen =>
    match seen.nearest used.name with
    | some (binding, level) => .reference (tagged used.name level) binding.tag
    | none => .reference "" ""

/-- The occurrence is written in letters and digits. -/
def Legible : Occurrence → Prop
  | .named name _ => isWord name.toList = true
  | .referred used seen => isWord used.name.toList = true ∧
      ∃ binding level, seen.nearest used.name = some (binding, level) ∧
        ∀ character ∈ binding.tag.toList, isWordPart character = true

end Occurrence

/-- What is seen of some occurrences, if they are written in letters and digits. -/
def Legible (os : List Occurrence) : Prop := ∀ o ∈ os, o.Legible

namespace Legible

variable {os others : List Occurrence} {o : Occurrence}

theorem left (hlegible : Legible (os ++ others)) : Legible os :=
  fun o hmem ↦ hlegible o (List.mem_append_left _ hmem)

theorem right (hlegible : Legible (os ++ others)) : Legible others :=
  fun o hmem ↦ hlegible o (List.mem_append_right _ hmem)

theorem tail (hlegible : Legible (o :: os)) : Legible os :=
  fun o hmem ↦ hlegible o (List.mem_cons_of_mem _ hmem)

theorem head (hlegible : Legible (o :: os)) : o.Legible := hlegible o (List.mem_cons_self ..)

end Legible

variable {env : Environment}

theorem reveals_reference {used : Mention} (hlegible : (Occurrence.referred used env).Legible) :
    Reveals noCharacter (env.reference used) [(Occurrence.referred used env).sighting] := by
  obtain ⟨hname, binding, level, hnearest, htag⟩ := hlegible
  have hword : isWord (tagged used.name level).toList = true := by
    rw [tagged, String.toList_append]
    exact isWord_append hname (wordPart_of_digits isDigit_of_mem_toString)
  rw [Environment.reference, Occurrence.sighting, hnearest]
  exact Reveals.reference (wordPart_of_isWord hword) htag

/-! ### Expressions and statements -/

theorem reveals_parenthesizedIf {text : String} {seen : List Sighting} (needed : Bool)
    (htext : Reveals isWordPart text seen) :
    Reveals isWordPart (parenthesizedIf needed text) seen := by
  cases needed with
  | false => exact htext
  | true => exact htext.parentheses.closed

theorem reveals_expression {e : Expression} (hlegible : Legible (references env e.mentions)) :
    Reveals isWordPart (e.written env) ((references env e.mentions).map Occurrence.sighting) := by
  induction e with
  | constant value line => exact Reveals.value value
  | read used => exact (reveals_reference hlegible.head).closed
  | unary sign operand line induct =>
    have hsign : Reveals noCharacter sign.text [] := by
      cases sign <;> exact .sign (by decide)
    exact hsign.andThen (reveals_parenthesizedIf _ (induct hlegible))
  | binary operator left right line inductLeft inductRight =>
    rw [Expression.mentions, references_append] at hlegible ⊢
    have hoperator : Reveals noCharacter operator.text [] := by
      cases operator <;> exact .sign (by decide)
    have hbegins : Begins isWordPart " " := by decide
    have hfirst := reveals_parenthesizedIf
      ((precedence? left).any (· < operator.precedence)) (inductLeft hlegible.left)
    have hsecond := reveals_parenthesizedIf
      ((precedence? right).any (· ≤ operator.precedence)) (inductRight hlegible.right)
    have hfront := ((hfirst.append Reveals.blank hbegins).andThen hoperator).andThen Reveals.blank
    have hall := hfront.andThen hsecond
    rw [Expression.written, List.map_append]
    simpa only [List.append_nil] using hall

theorem reveals_assign {target : Mention} {value : Expression}
    (hlegible : Legible (references env (target :: value.mentions))) :
    Reveals isWordPart (env.reference target ++ " := " ++ value.written env ++ ";")
      ((references env (target :: value.mentions)).map Occurrence.sighting) := by
  rw [references_cons] at hlegible ⊢
  have hassign : Reveals noCharacter " := " [] := .sign (by decide)
  have hfront := (reveals_reference hlegible.head).andThen hassign
  have hall := (hfront.andThen (reveals_expression hlegible.tail)).terminated
  simpa using hall.closed

theorem rowsReveal_begin : RowsReveal [⟨0, "begin"⟩] [] :=
  .single 0 (.word (by decide))

mutual

theorem rowsReveal_statement (s : Statement) (hlegible : Legible (references env s.mentions)) :
    RowsReveal (s.rows env) ((references env s.mentions).map Occurrence.sighting) := by
  cases s with
  | compound inner =>
    rw [Statement.mentions] at hlegible ⊢
    rw [Statement.rows]
    have hword : Reveals isWordPart "end" [] := .word (by decide)
    have hend : Reveals isWordPart "end;" [] := hword.terminated.closed
    have hinner := (rowsReveal_statements inner hlegible).deeper
    have hall := (rowsReveal_begin.append hinner).append (.single 0 hend)
    rwa [List.nil_append, List.append_nil] at hall
  | assign target value line =>
    rw [Statement.mentions] at hlegible ⊢
    rw [Statement.rows]
    exact .single 0 (reveals_assign hlegible)
  | empty =>
    rw [Statement.mentions, Statement.rows]
    exact .nil

theorem rowsReveal_statements (ss : List Statement)
    (hlegible : Legible (references env (Statement.mentionsAll ss))) :
    RowsReveal (Statement.rowsAll env ss)
      ((references env (Statement.mentionsAll ss)).map Occurrence.sighting) := by
  cases ss with
  | nil =>
    rw [Statement.mentionsAll, Statement.rowsAll]
    exact .nil
  | cons first others =>
    rw [Statement.mentionsAll, references_append] at hlegible ⊢
    rw [Statement.rowsAll, List.map_append]
    exact (rowsReveal_statement first hlegible.left).append
      (rowsReveal_statements others hlegible.right)

end

/-! ### Declarations -/

theorem reveals_variable {declared : VariableDeclaration} {level : Nat}
    (hlegible : Legible (declared.occurrences level)) :
    Reveals isWordPart (declared.written level)
      ((declared.occurrences level).map Occurrence.sighting) := by
  have hcolon : Reveals noCharacter " : " [] := .sign (by decide)
  have hname := Reveals.tagged hlegible.head level
  have htype := Reveals.tagged hlegible.tail.head 0
  exact (hname.append hcolon (by decide)).andThen htype

theorem reveals_variables {declared : List VariableDeclaration} {level : Nat}
    (hne : declared ≠ []) (hlegible : Legible (declared.flatMap (·.occurrences level))) :
    Reveals isWordPart ("; ".intercalate (declared.map (·.written level)))
      ((declared.flatMap (·.occurrences level)).map Occurrence.sighting) := by
  induction declared with
  | nil => exact absurd rfl hne
  | cons first declared induct =>
    rw [List.flatMap_cons] at hlegible ⊢
    rw [List.map_append]
    have hfirst := reveals_variable hlegible.left
    cases declared with
    | nil =>
      rw [List.map_singleton, String.intercalate_singleton, List.flatMap_nil, List.map_nil,
        List.append_nil]
      exact hfirst
    | cons second declared =>
      have hgap : Reveals noCharacter "; " [] := .sign (by decide)
      have hall := (hfirst.append hgap (by decide)).andThen
        (induct (List.cons_ne_nil _ _) hlegible.right)
      rw [List.append_nil] at hall
      rwa [List.map_cons, List.map_cons, String.intercalate_cons_cons]

theorem reveals_heading {heading : Heading} {level : Nat}
    (hname : isWord heading.name.toList = true)
    (hlegible : Legible (heading.parameters.flatMap (·.occurrences (level + 1)))) :
    Reveals isWordPart (heading.written level)
      ((Occurrence.named heading.name level ::
        heading.parameters.flatMap (·.occurrences (level + 1))).map Occurrence.sighting) := by
  have hprocedure : Reveals noCharacter "procedure " [] :=
    @Reveals.keywordBlank "procedure" (by decide)
  have hfront := hprocedure.andThen (Reveals.tagged hname level)
  obtain ⟨name, line, parameters⟩ := heading
  cases parameters with
  | nil => simpa [Heading.written, Occurrence.sighting] using hfront.terminated.closed
  | cons first parameters =>
    have hlisted := (reveals_variables (List.cons_ne_nil _ _) hlegible).parentheses
    have hbegins : Begins isWordPart "(" := by decide
    have hall := (hfront.append hlisted ((hbegins.append _).append _)).closed.terminated
    simpa [Heading.written, Occurrence.sighting] using hall.closed

/-- A block with a text behind its end. -/
theorem rowsReveal_block {declared body : List Row} {seen others : List Sighting} {ending : String}
    (hdeclared : RowsReveal declared seen) (hbody : RowsReveal body others)
    (hending : Reveals noCharacter ending []) (hbegins : Begins isWordPart ending) :
    RowsReveal (blockRows declared body ending) (seen ++ others) := by
  have hempty : Reveals noCharacter "" [] := .sign (by decide)
  have hbegin : RowsReveal ([⟨0, ""⟩] ++ [⟨0, "begin"⟩]) ([] ++ []) :=
    (RowsReveal.single 0 hempty.closed).append rowsReveal_begin
  have hword : Reveals isWordPart "end" [] := .word (by decide)
  have hend : RowsReveal [⟨0, "end" ++ ending⟩] [] :=
    .single 0 (hword.append hending hbegins).closed
  have hall := ((hdeclared.append hbegin).append hbody.deeper).append hend
  simpa [blockRows] using hall

mutual

theorem rowsReveal_declaration (outer : Environment) (frame : Frame) (d : Declaration)
    (hlegible : Legible (d.occurrences outer frame)) :
    RowsReveal (d.rows outer frame) ((d.occurrences outer frame).map Occurrence.sighting) := by
  cases d with
  | var declared =>
    rw [Declaration.occurrences] at hlegible ⊢
    rw [Declaration.rows]
    have hvar : Reveals noCharacter "var " [] := @Reveals.keywordBlank "var" (by decide)
    exact .single 1 (hvar.andThen (reveals_variable hlegible)).terminated.closed
  | procedure heading inner body =>
    rw [Declaration.occurrences] at hlegible ⊢
    rw [Declaration.rows]
    have hname : isWord heading.name.toList = true := hlegible.head
    have hinside := hlegible.tail
    have hsemicolon : Reveals noCharacter ";" [] := .sign (by decide)
    have hending := hsemicolon.andThen (Reveals.closing (wordPart_of_isWord hname))
    have hbegins : Begins isWordPart ";" := by decide
    have hblock := rowsReveal_block
      (rowsReveal_declarations _ _ inner hinside.left.right)
      (rowsReveal_statements body hinside.right) hending (hbegins.append _)
    have hheading := RowsReveal.single 0 (reveals_heading hname hinside.left.left)
    have hall := (hheading.append hblock).deeper
    simpa using hall

theorem rowsReveal_declarations (outer : Environment) (frame : Frame) (ds : List Declaration)
    (hlegible : Legible (Declaration.occurrencesAll outer frame ds)) :
    RowsReveal (Declaration.rowsAll outer frame ds)
      ((Declaration.occurrencesAll outer frame ds).map Occurrence.sighting) := by
  cases ds with
  | nil =>
    rw [Declaration.occurrencesAll, Declaration.rowsAll]
    exact .nil
  | cons first others =>
    rw [Declaration.occurrencesAll] at hlegible ⊢
    rw [Declaration.rowsAll, List.map_append]
    exact (rowsReveal_declaration outer frame first hlegible.left).append
      (rowsReveal_declarations outer (frame ++ [first.binding]) others hlegible.right)

end

/-! ### Programs -/

theorem rowsReveal_program {p : Program} (hlegible : Legible p.occurrences) :
    RowsReveal p.rows (p.occurrences.map Occurrence.sighting) := by
  rw [Program.occurrences] at hlegible ⊢
  have hname : isWord p.name.toList = true := hlegible.head
  have hdot : Reveals noCharacter "." [] := .sign (by decide)
  have hprogram : Reveals noCharacter "program " [] :=
    @Reveals.keywordBlank "program" (by decide)
  have hheading := (hprogram.andThen (Reveals.tagged hname 0)).terminated
  have hending := hdot.andThen (Reveals.closing (wordPart_of_isWord hname))
  have hbegins : Begins isWordPart "." := by decide
  have hblock := rowsReveal_block (rowsReveal_declarations _ _ _ hlegible.tail.left)
    (rowsReveal_statements _ hlegible.tail.right) hending (hbegins.append _)
  rw [List.map_cons, List.map_append]
  exact (RowsReveal.single 0 hheading.closed).append hblock

/-- Of the text of a program one sees its occurrences. -/
theorem sightings_written {p : Program} (hlegible : Legible p.occurrences) :
    sightings p.written.toList = p.occurrences.map Occurrence.sighting := by
  have hrows := rowsReveal_program hlegible
  have hseen := hrows.sightings_joinLines (avoids_nil _)
  rwa [List.append_nil, sightings_nil, List.append_nil, ← p.written_eq_rows hrows.unbroken] at hseen

/-! ### Programs that were parsed and annotated -/

theorem written_of_annotated {p : Program} {annotated : String}
    (hannotated : (Report.ofWalk (program p)).outcome = .ok annotated) :
    annotated = p.written ∧ p.WellScoped := by
  rcases (ends_annotated_program p).outcome with ⟨hcheck, text, hok, rfl⟩ | ⟨fault, -, hfails⟩
  · rw [hok] at hannotated
    exact ⟨(Except.ok.inj hannotated).symm, (Scoping.program_eq_ok_iff p).1 hcheck⟩
  · rw [hfails] at hannotated
    cases hannotated

theorem wellNamed_of_parse {limit : Nat} {text : String} {p : Program}
    (hparse : parse limit text = .ok p) : ∀ o ∈ p.occurrences, o.WellNamed :=
  wellNamed_of_written (written_of_parse hparse).2 (Feed.shaped_ahead text)

/-- In a well-scoped program a declaration names a scalar type. -/
theorem wordPart_of_tag {p : Program} (hscoped : p.WellScoped) {site : Site}
    (hencloses : p.site.Encloses site) {name : String} {binding : Binding} {level : Nat}
    (hnearest : site.environment.nearest name = some (binding, level)) :
    ∀ character ∈ binding.tag.toList, isWordPart character = true := by
  rcases hencloses.nearest hnearest with hbuiltin | ⟨around, haround, -, hmem⟩
  · rcases List.mem_cons.1 hbuiltin with rfl | hbuiltin
    · exact wordPart_of_symbolTag (.scalar .integer)
    · obtain rfl := List.mem_singleton.1 hbuiltin
      exact wordPart_of_symbolTag (.scalar .real)
  · obtain ⟨d, hd, rfl⟩ := List.mem_map.1 hmem
    cases d with
    | procedure heading inner body => exact wordPart_of_symbolTag (.procedure "" [])
    | var declared =>
      obtain ⟨before, after, hsplit⟩ := List.append_of_mem hd
      obtain ⟨type, level, htype⟩ := (hscoped around haround).types before declared after hsplit
      have hname : type.name = declared.typeName.name := Environment.name_of_nearest htype
      have htag : (Declaration.var declared).binding.tag = typeTag type := by
        rw [Declaration.binding, Binding.tag, ← hname, typeTag]
      rw [htag]
      exact wordPart_of_symbolTag (.scalar type)

theorem legible_of_wellScoped {p : Program} (hnamed : ∀ o ∈ p.occurrences, o.WellNamed)
    (hscoped : p.WellScoped) : Legible p.occurrences := by
  intro o hmem
  have hwell := hnamed o hmem
  cases o with
  | named name level =>
    rcases hwell with hname | ⟨type, rfl⟩
    · exact hname.word
    · change isWord type.name.toList = true
      cases type <;> decide
  | referred used seen =>
    refine ⟨hwell.word, ?_⟩
    obtain ⟨site, hencloses, rfl, hused⟩ := Program.site_of_referred hmem
    obtain ⟨frame, hframe, hbound⟩ := (hscoped site hencloses).mentions used hused
    cases hnearest : site.environment.nearest used.name with
    | none => exact absurd hbound (Environment.nearest_eq_none_iff.1 hnearest frame hframe)
    | some found =>
      exact ⟨found.1, found.2, rfl, wordPart_of_tag hscoped hencloses hnearest⟩

theorem legible_of_annotated {limit : Nat} {text annotated : String} {p : Program}
    (hparse : parse limit text = .ok p)
    (hannotated : (Report.ofWalk (program p)).outcome = .ok annotated) : Legible p.occurrences :=
  legible_of_wellScoped (wellNamed_of_parse hparse) (written_of_annotated hannotated).2

theorem sightings_annotated {limit : Nat} {text annotated : String} {p : Program}
    (hparse : parse limit text = .ok p)
    (hannotated : (Report.ofWalk (program p)).outcome = .ok annotated) :
    sightings annotated.toList = p.occurrences.map Occurrence.sighting := by
  rw [(written_of_annotated hannotated).1]
  exact sightings_written (legible_of_annotated hparse hannotated)

/-- An occurrence as it is seen in a text: a declared name with its level behind it, and of a
reference the level and the type of its nearest binding. -/
inductive Occurrence.Shows : Occurrence → Sighting → Prop
  | named (name : String) (level : Nat) :
      Shows (.named name level) (.tagged (name ++ toString level))
  | var {used : Mention} {seen : Environment} {declared : VariableDeclaration} {level : Nat} :
      seen.nearest used.name = some (.var declared, level) →
        Shows (.referred used seen)
          (.reference (used.name ++ toString level) (declared.typeName.name ++ "0"))
  | procedure {used : Mention} {seen : Environment} {heading : Heading} {level : Nat} :
      seen.nearest used.name = some (.procedure heading, level) →
        Shows (.referred used seen) (.reference (used.name ++ toString level) "PROCEDURE")

theorem shows_sighting {o : Occurrence} (hnamed : o.WellNamed) (hlegible : o.Legible) :
    o.Shows o.sighting := by
  cases o with
  | named name level => exact .named name level
  | referred used seen =>
    obtain ⟨-, binding, level, hnearest, -⟩ := hlegible
    rw [Occurrence.sighting, hnearest]
    cases binding with
    | scalar type => exact absurd (Environment.name_of_nearest hnearest).symm (hnamed.untyped type)
    | var declared => exact .var hnearest
    | procedure heading => exact .procedure hnearest

theorem name_prefix_of_shows {o : Occurrence} {s : Sighting} (hshows : o.Shows s) :
    o.name.toList <+: s.text.toList := by
  cases hshows <;> exact ⟨_, String.toList_append.symm⟩

/-- Reading an annotated text, one sees the names of the program in order, each with the level and
the type of what it stands for; every name is the beginning of its annotated form. -/
theorem annotations_name_declarations {limit : Nat} {text annotated : String} {p : Program}
    (hparse : parse limit text = .ok p)
    (hannotated : (Report.ofWalk (program p)).outcome = .ok annotated) :
    List.Forall₂ (fun o s ↦ o.Shows s ∧ o.name.toList <+: s.text.toList)
      p.occurrences (sightings annotated.toList) := by
  rw [sightings_annotated hparse hannotated, List.forall₂_map_right_iff, List.forall₂_same]
  intro o hmem
  have hshows := shows_sighting (wellNamed_of_parse hparse o hmem)
    (legible_of_annotated hparse hannotated o hmem)
  exact ⟨hshows, name_prefix_of_shows hshows⟩

/-- A procedure declares a variable again, and each reference shows the nearest declaration. -/
theorem annotations_name_declarations_shadowed :
    ∃ p annotated, parse 60 "PROGRAM p; VAR x : REAL; PROCEDURE q(y : INTEGER); VAR x : INTEGER;
        BEGIN x := y + q END; BEGIN x := 1 END." = .ok p ∧
      (Report.ofWalk (program p)).outcome = .ok annotated ∧
      List.Forall₂ (fun o s ↦ o.Shows s ∧ o.name.toList <+: s.text.toList)
        p.occurrences (sightings annotated.toList) ∧
      sightings annotated.toList =
        [.tagged "p0", .tagged "x1", .tagged "REAL0", .tagged "q1", .tagged "y2",
          .tagged "INTEGER0", .tagged "x2", .tagged "INTEGER0", .reference "x2" "INTEGER0",
          .reference "y2" "INTEGER0", .reference "q1" "PROCEDURE", .reference "x1" "REAL0"] := by
  obtain ⟨p, hparse, hwalk⟩ : ∃ p,
      parse 60 "PROGRAM p; VAR x : REAL; PROCEDURE q(y : INTEGER); VAR x : INTEGER;
        BEGIN x := y + q END; BEGIN x := 1 END." = .ok p ∧
        decide ((Report.ofWalk (program p)).outcome.isOk = true ∧
          p.occurrences.map Occurrence.sighting =
            [.tagged "p0", .tagged "x1", .tagged "REAL0", .tagged "q1", .tagged "y2",
              .tagged "INTEGER0", .tagged "x2", .tagged "INTEGER0", .reference "x2" "INTEGER0",
              .reference "y2" "INTEGER0", .reference "q1" "PROCEDURE",
              .reference "x1" "REAL0"]) = true :=
    exists_parsed String.toList_ofList (by decide +kernel)
  obtain ⟨hok, hseen⟩ := of_decide_eq_true hwalk
  obtain ⟨annotated, hannotated⟩ := exists_of_isOk hok
  exact ⟨p, annotated, hparse, hannotated, annotations_name_declarations hparse hannotated,
    (sightings_annotated hparse hannotated).trans hseen⟩

end MiniPascal
