import MiniPascal.Proofs.Annotation.Level

/-!
# The layout of an annotated text

`Program.placed` lists the lines of an annotated program from top to bottom, each with its own
distance from the margin: a declaration stands as deep as the level of its scope, the beginning and
the end of a block one level less deep, and a statement as many levels deeper than these as there
are compound statements around it.

The text is made by indenting over and over what is written already. That this comes to the same is
`Program.rows_eq_placed`: rows that lie deeper are the rows of their place, further in
(`Row.shifted`). `layout_shows_nesting` says so of the characters of the text.
-/

set_option autoImplicit false
set_option relaxedAutoImplicit false

namespace MiniPascal

open Annotate

/-! ### Lines in their places -/

mutual

/-- A statement in a block whose scope has a level, with some compound statements of the block
around it. -/
def Statement.placed (env : Environment) (level compounds : Nat) : Statement → List Row
  | .compound inner =>
    ⟨level - 1 + compounds, "begin"⟩ ::
      (Statement.placedAll env level (compounds + 1) inner ++ [⟨level - 1 + compounds, "end;"⟩])
  | .assign target value _ =>
    [⟨level - 1 + compounds, env.reference target ++ " := " ++ value.written env ++ ";"⟩]
  | .empty => []

def Statement.placedAll (env : Environment) (level compounds : Nat) : List Statement → List Row
  | [] => []
  | first :: others =>
    first.placed env level compounds ++ Statement.placedAll env level compounds others

end

/-- The block of a scope, from its declarations to its end. Its body is the first compound statement
around what stands in it. -/
def placedBlock (env : Environment) (level : Nat) (declared : List Row) (body : List Statement)
    (ending : String) : List Row :=
  declared ++ ⟨level - 1, ""⟩ :: ⟨level - 1, "begin"⟩ ::
    (Statement.placedAll env level 1 body ++ [⟨level - 1, "end" ++ ending⟩])

mutual

/-- A declaration in the scope of a frame, whose level is the number of frames around it. -/
def Declaration.placed (outer : Environment) (frame : Frame) : Declaration → List Row
  | .var declared => [⟨outer.length, "var " ++ declared.written outer.length ++ ";"⟩]
  | .procedure heading inner body =>
    let around := (frame ++ [.procedure heading]) :: outer
    let parameters := heading.parameters.map .var
    ⟨outer.length, heading.written outer.length⟩ ::
      placedBlock ((parameters ++ inner.map Declaration.binding) :: around) around.length
        (Declaration.placedAll around parameters inner) body (";" ++ closing heading.name)

def Declaration.placedAll (outer : Environment) (frame : Frame) : List Declaration → List Row
  | [] => []
  | first :: others =>
    first.placed outer frame ++ Declaration.placedAll outer (frame ++ [first.binding]) others

end

/-- The scope of the program itself has level 1. -/
def Program.placed (p : Program) : List Row :=
  ⟨0, "program " ++ tagged p.name 0 ++ ";"⟩ ::
    placedBlock p.site.environment Environment.outermost.length
      (Declaration.placedAll .outermost [] p.block.declarations) p.block.body
      ("." ++ closing p.name)

/-! ### Rows that lie deeper -/

namespace Row

/-- The row, further away from the margin. -/
def shifted (levels : Nat) (row : Row) : Row := ⟨row.depth + levels, row.text⟩

theorem map_shifted_deeper (levels : Nat) (rows : List Row) :
    (rows.map deeper).map (shifted levels) = rows.map (shifted (levels + 1)) := by
  rw [List.map_map]
  refine List.map_congr_left fun row _ ↦ ?_
  simp only [Function.comp_apply, shifted, deeper, mk.injEq, and_true]
  omega

theorem map_shifted_zero (rows : List Row) : rows.map (shifted 0) = rows :=
  List.map_id' rows

end Row

mutual

theorem Statement.shifted_rows (env : Environment) (level compounds : Nat) (s : Statement) :
    (s.rows env).map (Row.shifted (level - 1 + compounds)) = s.placed env level compounds := by
  cases s with
  | compound inner =>
    rw [Statement.rows, Statement.placed, List.map_append, List.map_cons, Row.map_shifted_deeper,
      Nat.add_assoc, Statement.shifted_rowsAll env level (compounds + 1) inner]
    simp [Row.shifted]
  | assign target value line =>
    rw [Statement.rows, Statement.placed]
    simp [Row.shifted]
  | empty =>
    rw [Statement.rows, Statement.placed]
    rfl

theorem Statement.shifted_rowsAll (env : Environment) (level compounds : Nat)
    (ss : List Statement) :
    (Statement.rowsAll env ss).map (Row.shifted (level - 1 + compounds)) =
      Statement.placedAll env level compounds ss := by
  cases ss with
  | nil =>
    rw [Statement.rowsAll, Statement.placedAll]
    rfl
  | cons first others =>
    rw [Statement.rowsAll, Statement.placedAll, List.map_append,
      Statement.shifted_rows env level compounds first,
      Statement.shifted_rowsAll env level compounds others]

end

/-- A block whose declarations are in their places, one level further in than its beginning. -/
theorem shifted_blockRows (env : Environment) (level : Nat) {declared placed : List Row}
    (body : List Statement) (ending : String)
    (hdeclared : declared.map (Row.shifted (level - 1)) = placed) :
    (blockRows declared (Statement.rowsAll env body) ending).map (Row.shifted (level - 1)) =
      placedBlock env level placed body ending := by
  rw [blockRows, placedBlock, List.map_append, List.map_append, List.map_append,
    Row.map_shifted_deeper, Statement.shifted_rowsAll env level 1 body, hdeclared]
  simp [Row.shifted]

mutual

theorem Declaration.shifted_rows (outer : Environment) (frame : Frame) (d : Declaration)
    (hlevel : 0 < outer.length) :
    (d.rows outer frame).map (Row.shifted (outer.length - 1)) = d.placed outer frame := by
  have hdepth : 1 + (outer.length - 1) = outer.length := Nat.add_sub_cancel' hlevel
  cases d with
  | var declared =>
    rw [Declaration.rows, Declaration.placed, List.map_singleton, Row.shifted, hdepth]
  | procedure heading inner body =>
    have hinner := Declaration.shifted_rowsAll ((frame ++ [.procedure heading]) :: outer)
      (heading.parameters.map .var) inner (Nat.succ_pos _)
    rw [Declaration.rows, Declaration.placed, Row.map_shifted_deeper, Nat.sub_add_cancel hlevel,
      List.map_cons]
    refine congrArg₂ List.cons ?_ ?_
    · rw [Row.shifted, Nat.zero_add]
    · exact shifted_blockRows _ ((frame ++ [.procedure heading]) :: outer).length body _ hinner

theorem Declaration.shifted_rowsAll (outer : Environment) (frame : Frame) (ds : List Declaration)
    (hlevel : 0 < outer.length) :
    (Declaration.rowsAll outer frame ds).map (Row.shifted (outer.length - 1)) =
      Declaration.placedAll outer frame ds := by
  cases ds with
  | nil =>
    rw [Declaration.rowsAll, Declaration.placedAll]
    rfl
  | cons first others =>
    rw [Declaration.rowsAll, Declaration.placedAll, List.map_append,
      Declaration.shifted_rows outer frame first hlevel,
      Declaration.shifted_rowsAll outer (frame ++ [first.binding]) others hlevel]

end

/-- The rows of a program lie where their places are. -/
theorem Program.rows_eq_placed (p : Program) : p.rows = p.placed := by
  have hdeclared := Declaration.shifted_rowsAll .outermost [] p.block.declarations (by decide)
  have hblock := shifted_blockRows p.site.environment Environment.outermost.length p.block.body
    ("." ++ closing p.name) hdeclared
  rw [Program.placed, ← hblock, Program.rows]
  exact congrArg _ (Row.map_shifted_zero _).symm

/-! ### Texts of rows begin at their places -/

/-- No row begins with a blank of its own. -/
def Flush (rows : List Row) : Prop := ∀ row ∈ rows, Avoids (· == ' ') row.text.toList

namespace Flush

variable {rows others : List Row}

theorem nil : Flush [] := fun _ hmem ↦ absurd hmem List.not_mem_nil

theorem cons {row : Row} (hrow : Avoids (· == ' ') row.text.toList) (hrows : Flush rows) :
    Flush (row :: rows) := by
  intro other hmem
  rcases List.mem_cons.1 hmem with rfl | hmem
  · exact hrow
  · exact hrows other hmem

theorem append (hrows : Flush rows) (hothers : Flush others) : Flush (rows ++ others) :=
  fun row hmem ↦ (List.mem_append.1 hmem).elim (hrows row) (hothers row)

/-- A row that is written with a given beginning. -/
theorem single (depth : Nat) {text beginning : String} (behind : String)
    (htext : text = beginning ++ behind) (hbegins : Begins (· == ' ') beginning) :
    Flush [⟨depth, text⟩] := by
  refine cons ?_ nil
  have havoids := hbegins.avoids behind.toList
  rwa [← String.toList_append, ← htext] at havoids

end Flush

variable {env : Environment}

theorem begins_reference {used : Mention} (hlegible : (Occurrence.referred used env).Legible) :
    ∃ behind, env.reference used = "<" ++ behind := by
  obtain ⟨-, binding, level, hnearest, -⟩ := hlegible
  rw [Environment.reference, hnearest]
  exact ⟨tagged used.name level ++ ":" ++ binding.tag ++ ">", by simp only [String.append_assoc]⟩

theorem flush_word (depth : Nat) {word : String} (hword : Begins (· == ' ') word) :
    Flush [⟨depth, word⟩] :=
  .single depth "" (String.append_empty).symm hword

mutual

theorem Statement.flush_placed (level compounds : Nat) (s : Statement)
    (hlegible : Legible (references env s.mentions)) : Flush (s.placed env level compounds) := by
  cases s with
  | compound inner =>
    rw [Statement.mentions] at hlegible
    rw [Statement.placed]
    exact (flush_word _ (by decide)).append
      ((Statement.flush_placedAll level (compounds + 1) inner hlegible).append
        (flush_word _ (by decide)))
  | assign target value line =>
    rw [Statement.mentions] at hlegible
    rw [Statement.placed]
    obtain ⟨behind, hbehind⟩ := begins_reference hlegible.head
    rw [hbehind]
    simp only [String.append_assoc]
    exact .single _ _ rfl (by decide)
  | empty =>
    rw [Statement.placed]
    exact .nil

theorem Statement.flush_placedAll (level compounds : Nat) (ss : List Statement)
    (hlegible : Legible (references env (Statement.mentionsAll ss))) :
    Flush (Statement.placedAll env level compounds ss) := by
  cases ss with
  | nil =>
    rw [Statement.placedAll]
    exact .nil
  | cons first others =>
    rw [Statement.mentionsAll, references_append] at hlegible
    rw [Statement.placedAll]
    exact (Statement.flush_placed level compounds first hlegible.left).append
      (Statement.flush_placedAll level compounds others hlegible.right)

end

theorem flush_placedBlock (level : Nat) {declared : List Row} {body : List Statement}
    (ending : String) (hdeclared : Flush declared)
    (hlegible : Legible (references env (Statement.mentionsAll body))) :
    Flush (placedBlock env level declared body ending) := by
  rw [placedBlock]
  refine hdeclared.append (.cons ?_ ?_)
  · exact avoids_nil _
  refine (flush_word _ (by decide)).append
    ((Statement.flush_placedAll level 1 body hlegible).append ?_)
  exact .single _ ending rfl (by decide)

mutual

theorem Declaration.flush_placed (outer : Environment) (frame : Frame) (d : Declaration)
    (hlegible : Legible (d.occurrences outer frame)) : Flush (d.placed outer frame) := by
  cases d with
  | var declared =>
    rw [Declaration.placed, String.append_assoc]
    exact .single _ _ rfl (by decide)
  | procedure heading inner body =>
    rw [Declaration.occurrences] at hlegible
    rw [Declaration.placed]
    have hinside := hlegible.tail
    have hheading : Flush [⟨outer.length, heading.written outer.length⟩] := by
      rw [Heading.written]
      simp only [String.append_assoc]
      exact .single _ _ rfl (by decide)
    exact hheading.append (flush_placedBlock _ _
      (Declaration.flush_placedAll _ _ inner hinside.left.right) hinside.right)

theorem Declaration.flush_placedAll (outer : Environment) (frame : Frame) (ds : List Declaration)
    (hlegible : Legible (Declaration.occurrencesAll outer frame ds)) :
    Flush (Declaration.placedAll outer frame ds) := by
  cases ds with
  | nil =>
    rw [Declaration.placedAll]
    exact .nil
  | cons first others =>
    rw [Declaration.occurrencesAll] at hlegible
    rw [Declaration.placedAll]
    exact (Declaration.flush_placed outer frame first hlegible.left).append
      (Declaration.flush_placedAll outer (frame ++ [first.binding]) others hlegible.right)

end

theorem Program.flush_placed {p : Program} (hlegible : Legible p.occurrences) :
    Flush p.placed := by
  rw [Program.occurrences] at hlegible
  rw [Program.placed]
  have hheading : Flush [⟨0, "program " ++ tagged p.name 0 ++ ";"⟩] := by
    rw [String.append_assoc]
    exact .single _ _ rfl (by decide)
  exact hheading.append (flush_placedBlock _ _
    (Declaration.flush_placedAll _ _ _ hlegible.tail.left) hlegible.tail.right)

/-! ### The lines of the text -/

/-- The row as it is written: three blanks for each level, and none on an empty line. -/
def Row.characters (row : Row) : List Char :=
  if row.text = "" then [] else List.replicate (3 * row.depth) ' ' ++ row.text.toList

theorem Row.toList_line (row : Row) : row.line.toList = row.characters := by
  have hindented (depth : Nat) : (indented depth row.text).toList =
      List.replicate (3 * depth) ' ' ++ row.text.toList := by
    induction depth with
    | zero => rfl
    | succ depth induct =>
      rw [indented, String.toList_append, induct, Nat.mul_succ, Nat.add_comm,
        ← List.replicate_append_replicate, List.append_assoc]
      rfl
  unfold line characters
  split
  · rfl
  · exact hindented row.depth

theorem toList_joinLines (lines : List String) :
    (joinLines lines).toList = ['\n'].intercalate (lines.map String.toList) := by
  induction lines with
  | nil => rfl
  | cons line lines induct =>
    cases lines with
    | nil => simp [joinLines]
    | cons second lines =>
      rw [joinLines_cons line (List.cons_ne_nil _ _), String.toList_append, String.toList_append,
        induct]
      simp [List.intercalate]

/-- The lines of an annotated text are those of the program, each in its place. -/
theorem layout_shows_nesting {limit : Nat} {text annotated : String} {p : Program}
    (hparse : parse limit text = .ok p)
    (hannotated : (Report.ofWalk (program p)).outcome = .ok annotated) :
    annotated.toList.splitOn '\n' = p.placed.map Row.characters ∧
      ∀ row ∈ p.placed, Avoids (· == ' ') row.text.toList := by
  have hlegible := legible_of_annotated hparse hannotated
  have hrows := (rowsReveal_program hlegible).unbroken
  refine ⟨?_, Program.flush_placed hlegible⟩
  have hlines : p.placed.map Row.characters = (p.rows.map Row.line).map String.toList := by
    rw [← p.rows_eq_placed, List.map_map]
    exact List.map_congr_left fun row _ ↦ row.toList_line.symm
  have hbreaks : ∀ line ∈ (p.rows.map Row.line).map String.toList, '\n' ∉ line := by
    simp only [List.forall_mem_map]
    exact fun row hmem hbreak ↦ (Row.unbroken_line (hrows row hmem) '\n' hbreak).1 rfl
  rw [(written_of_annotated hannotated).1, p.written_eq_rows hrows, toList_joinLines, hlines]
  exact List.splitOn_intercalate '\n' hbreaks (by simp [Program.rows])

/-- A statement in two compound statements of a procedure that is declared in the program. -/
theorem layout_shows_nesting_inner : ∃ p annotated,
    parse 60 "program p;procedure q(y:real);var x:real;begin begin x:=y;end end;begin q:=1 end." =
      .ok p ∧
    (Report.ofWalk (program p)).outcome = .ok annotated ∧
    annotated.toList.splitOn '\n' = p.placed.map Row.characters ∧
    p.placed.map (·.depth) = [0, 1, 2, 1, 1, 2, 3, 2, 1, 0, 0, 1, 0] ∧
    p.placed.map Row.characters =
      ["program p0;",
        "   procedure q1(y2 : REAL0);",
        "      var x2 : REAL0;",
        "",
        "   begin",
        "      begin",
        "         <x2:REAL0> := <y2:REAL0>;",
        "      end;",
        "   end; \x7bEND OF q\x7d",
        "",
        "begin",
        "   <q1:PROCEDURE> := 1;",
        "end. \x7bEND OF p\x7d"].map String.toList := by
  obtain ⟨p, hparse, hwalk⟩ : ∃ p : Program,
      parse 60 "program p;procedure q(y:real);var x:real;begin begin x:=y;end end;begin q:=1 end." =
        .ok p ∧
      decide ((Report.ofWalk (program p)).outcome.isOk = true ∧
        p.placed.map (·.depth) = [0, 1, 2, 1, 1, 2, 3, 2, 1, 0, 0, 1, 0] ∧
        p.placed.map Row.characters =
          ["program p0;",
            "   procedure q1(y2 : REAL0);",
            "      var x2 : REAL0;",
            "",
            "   begin",
            "      begin",
            "         <x2:REAL0> := <y2:REAL0>;",
            "      end;",
            "   end; \x7bEND OF q\x7d",
            "",
            "begin",
            "   <q1:PROCEDURE> := 1;",
            "end. \x7bEND OF p\x7d"].map String.toList) = true :=
    exists_parsed String.toList_ofList (by decide +kernel)
  obtain ⟨hok, hdepths, hlines⟩ := of_decide_eq_true hwalk
  obtain ⟨annotated, hannotated⟩ := exists_of_isOk hok
  exact ⟨p, annotated, hparse, hannotated, (layout_shows_nesting hparse hannotated).1, hdepths,
    hlines⟩

end MiniPascal
