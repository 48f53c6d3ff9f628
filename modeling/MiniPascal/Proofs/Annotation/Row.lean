import MiniPascal.Proofs.Annotation.Layout
import MiniPascal.Proofs.Annotation.Written

/-!
# The annotated text line by line

A row is a line of an annotated program without its indentation, and how far it is indented. The
rows of a program are those of its parts (`Program.rows`), where the rows of a procedure and of a
compound statement lie deeper than what is around them.

Procedures are indented by taking their text apart into lines. As long as no row has a line break in
it, this finds the rows again, and the text is its rows one below the other:
`Program.written_eq_rows`.
-/

set_option autoImplicit false
set_option relaxedAutoImplicit false

namespace MiniPascal

open Annotate

/-- A line of a text, and by how many levels it is indented. -/
structure Row where
  depth : Nat
  text : String
  deriving DecidableEq, Repr

namespace Row

def deeper (row : Row) : Row := ⟨row.depth + 1, row.text⟩

def indented : Nat → String → String
  | 0, text => text
  | depth + 1, text => indentation ++ indented depth text

/-- An empty line is not indented. -/
def line (row : Row) : String := if row.text = "" then "" else indented row.depth row.text

end Row

/-! ### Rows of programs -/

mutual

def Statement.rows (env : Environment) : Statement → List Row
  | .compound inner => ⟨0, "begin"⟩ :: (Statement.rowsAll env inner).map .deeper ++ [⟨0, "end;"⟩]
  | .assign target value _ => [⟨0, env.reference target ++ " := " ++ value.written env ++ ";"⟩]
  | .empty => []

def Statement.rowsAll (env : Environment) : List Statement → List Row
  | [] => []
  | first :: others => first.rows env ++ Statement.rowsAll env others

end

/-- A block with a text behind its end. -/
def blockRows (declared body : List Row) (ending : String) : List Row :=
  declared ++ [⟨0, ""⟩, ⟨0, "begin"⟩] ++ body.map .deeper ++ [⟨0, "end" ++ ending⟩]

mutual

def Declaration.rows (outer : Environment) (frame : Frame) : Declaration → List Row
  | .var declared => [⟨1, "var " ++ declared.written outer.length ++ ";"⟩]
  | .procedure heading inner body =>
    let around := (frame ++ [.procedure heading]) :: outer
    let parameters := heading.parameters.map .var
    let rows := ⟨0, heading.written outer.length⟩ ::
      blockRows (Declaration.rowsAll around parameters inner)
        (Statement.rowsAll ((parameters ++ inner.map Declaration.binding) :: around) body)
        (";" ++ closing heading.name)
    rows.map .deeper

def Declaration.rowsAll (outer : Environment) (frame : Frame) : List Declaration → List Row
  | [] => []
  | first :: others =>
    first.rows outer frame ++ Declaration.rowsAll outer (frame ++ [first.binding]) others

end

def Program.rows (p : Program) : List Row :=
  ⟨0, "program " ++ tagged p.name 0 ++ ";"⟩ ::
    blockRows (Declaration.rowsAll .outermost [] p.block.declarations)
      (Statement.rowsAll p.site.environment p.block.body) ("." ++ closing p.name)

/-! ### Indenting rows -/

namespace Row

theorem line_of_ne {row : Row} (hne : row.text ≠ "") : row.line = indented row.depth row.text :=
  if_neg hne

theorem line_deeper_of_ne {row : Row} (hne : row.text ≠ "") :
    row.deeper.line = indentation ++ row.line := by
  rw [line_of_ne hne]
  exact line_of_ne hne

theorem indented_ne (depth : Nat) {text : String} (hne : text ≠ "") : indented depth text ≠ "" := by
  cases depth with
  | zero => exact hne
  | succ depth =>
    intro hempty
    exact absurd (String.append_eq_empty_iff.1 hempty).1 (by decide)

theorem line_ne {row : Row} (hne : row.text ≠ "") : row.line ≠ "" := by
  rw [line_of_ne hne]
  exact indented_ne row.depth hne

/-- Indenting a text treats a row as `deeper` does. -/
theorem line_deeper (row : Row) :
    row.deeper.line = if row.line.isEmpty then row.line else indentation ++ row.line := by
  by_cases hempty : row.text = ""
  · have hline : row.line = "" := if_pos hempty
    have hdeeper : row.deeper.line = "" := if_pos hempty
    rw [hdeeper, hline]
    rfl
  · rw [line_deeper_of_ne hempty, if_neg]
    rw [String.isEmpty_iff]
    exact line_ne hempty

theorem unbroken_line {row : Row} (hunbroken : Unbroken row.text) : Unbroken row.line := by
  have hindented (depth : Nat) : Unbroken (indented depth row.text) := by
    induction depth with
    | zero => exact hunbroken
    | succ depth induct => exact Unbroken.append (by decide) induct
  unfold line
  split
  · decide
  · exact hindented row.depth

end Row

/-- No row has a line break in it. -/
def UnbrokenRows (rows : List Row) : Prop := ∀ row ∈ rows, Unbroken row.text

namespace UnbrokenRows

variable {rows others : List Row}

theorem left (hrows : UnbrokenRows (rows ++ others)) : UnbrokenRows rows :=
  fun row hmem ↦ hrows row (List.mem_append_left _ hmem)

theorem right (hrows : UnbrokenRows (rows ++ others)) : UnbrokenRows others :=
  fun row hmem ↦ hrows row (List.mem_append_right _ hmem)

theorem of_deeper (hrows : UnbrokenRows (rows.map .deeper)) : UnbrokenRows rows :=
  fun row hmem ↦ hrows row.deeper (List.mem_map_of_mem hmem)

/-- The text of rows is taken apart into the same rows, if the last one is not empty. -/
theorem indentText {last : Row} (hrows : UnbrokenRows (rows ++ [last])) (hne : last.text ≠ "") :
    indentText (joinLines ((rows ++ [last]).map Row.line)) =
      joinLines (((rows ++ [last]).map .deeper).map Row.line) := by
  have hsplit : splitLines (joinLines ((rows ++ [last]).map Row.line)) =
      (rows ++ [last]).map Row.line := by
    rw [List.map_append, List.map_singleton]
    refine splitLines_joinLines ?_ ?_ ?_
    · intro line hmem
      obtain ⟨row, hrow, rfl⟩ := List.mem_map.1 hmem
      exact Row.unbroken_line (hrows.left row hrow)
    · exact Row.unbroken_line (hrows.right last (List.mem_singleton_self last))
    · exact fun hnil ↦ Row.line_ne hne (String.toList_eq_nil_iff.1 hnil)
  rw [MiniPascal.indentText, hsplit, List.map_map, List.map_map]
  exact congrArg joinLines (List.map_congr_left fun row _ ↦ (Row.line_deeper row).symm)

end UnbrokenRows

/-! ### Bodies -/

/-- Rows that are not empty are all indented. -/
theorem map_line_deeper {rows : List Row} (hne : ∀ row ∈ rows, row.text ≠ "") :
    (rows.map .deeper).map Row.line = (rows.map Row.line).map (indentation ++ ·) := by
  rw [List.map_map, List.map_map]
  exact List.map_congr_left fun row hmem ↦ Row.line_deeper_of_ne (hne row hmem)

mutual

theorem Statement.written_eq_rows (env : Environment) (s : Statement) :
    s.written env = (s.rows env).map Row.line ∧ ∀ row ∈ s.rows env, row.text ≠ "" := by
  cases s with
  | compound inner =>
    obtain ⟨htexts, hne⟩ := Statement.writtenAll_eq_rows env inner
    rw [Statement.written, Statement.rows, htexts, ← map_line_deeper hne]
    constructor
    · rw [List.map_append, List.map_cons]
      rfl
    · simp only [List.cons_append, List.forall_mem_cons, List.forall_mem_append,
        List.forall_mem_map]
      exact ⟨by decide, hne, by decide⟩
  | assign target value line =>
    rw [Statement.written, Statement.rows]
    refine ⟨?_, ?_⟩
    · rw [List.map_singleton, Row.line_of_ne]
      · rfl
      · simp
    · simp
  | empty =>
    rw [Statement.written, Statement.rows]
    exact ⟨rfl, by simp⟩

theorem Statement.writtenAll_eq_rows (env : Environment) (ss : List Statement) :
    Statement.writtenAll env ss = (Statement.rowsAll env ss).map Row.line ∧
      ∀ row ∈ Statement.rowsAll env ss, row.text ≠ "" := by
  cases ss with
  | nil =>
    rw [Statement.writtenAll, Statement.rowsAll]
    exact ⟨rfl, by simp⟩
  | cons first others =>
    obtain ⟨htext, hne⟩ := Statement.written_eq_rows env first
    obtain ⟨htexts, hall⟩ := Statement.writtenAll_eq_rows env others
    rw [Statement.writtenAll, Statement.rowsAll, List.map_append, htext, htexts]
    refine ⟨rfl, fun row hmem ↦ ?_⟩
    exact (List.mem_append.1 hmem).elim (hne row) (hall row)

end

/-! ### Blocks -/

/-- Texts of several lines in front of other lines are the lines of their rows. -/
def Texts (texts : List String) (rows : List Row) : Prop :=
  ∀ further, further ≠ [] → joinLines (texts ++ further) = joinLines (rows.map Row.line ++ further)

theorem blockText_eq_rows {texts body : List String} {declared statements : List Row}
    (htexts : Texts texts declared) (hbody : body = statements.map Row.line)
    (hne : ∀ row ∈ statements, row.text ≠ "") (ending : String) :
    blockText texts body ++ ending =
      joinLines ((blockRows declared statements ending).map Row.line) := by
  have hlast : Row.line ⟨0, "end" ++ ending⟩ = "end" ++ ending := Row.line_of_ne (by simp)
  rw [blockText, joinLines_append_text, blockRows, hbody, ← map_line_deeper hne]
  simp only [List.map_append, List.append_assoc, List.map_cons, List.map_nil, hlast]
  exact htexts _ (List.cons_ne_nil _ _)

/-- A line above a block, and the whole indented. -/
theorem indentText_eq_rows {heading ending : String} {texts body : List String}
    {declared statements : List Row} (hheading : heading ≠ "") (htexts : Texts texts declared)
    (hbody : body = statements.map Row.line) (hne : ∀ row ∈ statements, row.text ≠ "")
    (hrows : UnbrokenRows (⟨0, heading⟩ :: blockRows declared statements ending)) :
    indentText (heading ++ "\n" ++ (blockText texts body ++ ending)) =
      joinLines (((⟨0, heading⟩ :: blockRows declared statements ending).map .deeper).map
        Row.line) := by
  have hline : Row.line ⟨0, heading⟩ = heading := Row.line_of_ne hheading
  have hblock : (blockRows declared statements ending).map Row.line ≠ [] := by simp [blockRows]
  rw [blockText_eq_rows htexts hbody hne, ← joinLines_cons heading hblock]
  rw [blockRows, ← List.cons_append] at hrows ⊢
  rw [← hrows.indentText (by simp), List.cons_append, List.map_cons, hline]

mutual

theorem Declaration.written_eq_rows (outer : Environment) (frame : Frame) (d : Declaration)
    (hrows : UnbrokenRows (d.rows outer frame)) :
    d.written outer frame = joinLines ((d.rows outer frame).map Row.line) ∧
      d.rows outer frame ≠ [] := by
  cases d with
  | var declared =>
    rw [Declaration.written, Declaration.rows]
    refine ⟨?_, List.cons_ne_nil _ _⟩
    rw [List.map_singleton, Row.line_of_ne]
    · simp only [joinLines, Row.indented, String.append_assoc]
    · simp
  | procedure heading inner body =>
    rw [Declaration.rows] at hrows ⊢
    have hinner : UnbrokenRows _ := fun row hmem ↦ hrows.of_deeper row (List.mem_cons_of_mem _ hmem)
    rw [blockRows] at hinner
    have htexts := Declaration.writtenAll_eq_rows _ _ inner hinner.left.left.left
    obtain ⟨hbody, hne⟩ := Statement.writtenAll_eq_rows _ body
    have hheading : heading.written outer.length ≠ "" := by simp [Heading.written]
    refine ⟨?_, by simp⟩
    rw [← indentText_eq_rows hheading htexts hbody hne hrows.of_deeper, Declaration.written]
    simp only [String.append_assoc]

theorem Declaration.writtenAll_eq_rows (outer : Environment) (frame : Frame)
    (ds : List Declaration) (hrows : UnbrokenRows (Declaration.rowsAll outer frame ds)) :
    Texts (Declaration.writtenAll outer frame ds) (Declaration.rowsAll outer frame ds) := by
  cases ds with
  | nil =>
    rw [Declaration.writtenAll, Declaration.rowsAll]
    exact fun _ _ ↦ rfl
  | cons first others =>
    rw [Declaration.rowsAll] at hrows
    rw [Declaration.writtenAll, Declaration.rowsAll]
    obtain ⟨htext, hne⟩ := Declaration.written_eq_rows outer frame first hrows.left
    have htexts :=
      Declaration.writtenAll_eq_rows outer (frame ++ [first.binding]) others hrows.right
    intro further hfurther
    rw [List.cons_append, joinLines_cons _ (by simp [hfurther]), htext, htexts further hfurther,
      ← joinLines_append (by simp [hne]) (by simp [hfurther]), List.map_append, List.append_assoc]

end

/-- The text of a program is its rows, if no name in it has a line break. -/
theorem Program.written_eq_rows (p : Program) (hrows : UnbrokenRows p.rows) :
    p.written = joinLines (p.rows.map Row.line) := by
  have hblock : UnbrokenRows _ := fun row hmem ↦ hrows row (List.mem_cons_of_mem _ hmem)
  rw [blockRows] at hblock
  have htexts := Declaration.writtenAll_eq_rows _ _ p.block.declarations hblock.left.left.left
  obtain ⟨hbody, hne⟩ := Statement.writtenAll_eq_rows p.site.environment p.block.body
  have hheading : Row.line ⟨0, "program " ++ tagged p.name 0 ++ ";"⟩ =
      "program " ++ tagged p.name 0 ++ ";" := Row.line_of_ne (by simp)
  have hline : (";\n" : String) = ";" ++ "\n" := rfl
  rw [Program.rows, List.map_cons, joinLines_cons _ (by simp [blockRows]), hheading,
    ← blockText_eq_rows htexts hbody hne, Program.written, hline]
  simp only [String.append_assoc]

end MiniPascal
