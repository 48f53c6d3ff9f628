import MiniPascal.Proofs.Annotation.Erasure

/-!
# Lines and their tokens

Programs are written line by line, and the text of a procedure is taken apart into its lines once
more to indent it. `splitLines_joinLines` says that this finds the same lines again, so indentation
adds blanks and nothing else: `Page.indentText`.

`Lines` says which tokens some lines show, `Page` the same of a text of several lines, and `Pages`
of a list of such texts. `Page.block` puts declarations and a body together as a block.
-/

set_option autoImplicit false
set_option relaxedAutoImplicit false

namespace MiniPascal

/-! ### Joining lines -/

theorem joinLines_cons (line : String) {lines : List String} (hne : lines ≠ []) :
    joinLines (line :: lines) = line ++ "\n" ++ joinLines lines := by
  cases lines with
  | nil => exact absurd rfl hne
  | cons => rfl

theorem joinLines_append {lines others : List String} (hlines : lines ≠ [])
    (hothers : others ≠ []) :
    joinLines (lines ++ others) = joinLines lines ++ "\n" ++ joinLines others := by
  induction lines with
  | nil => exact absurd rfl hlines
  | cons line lines induct =>
    cases lines with
    | nil => exact joinLines_cons line hothers
    | cons second lines =>
      have hne : second :: lines ++ others ≠ [] := List.cons_ne_nil _ _
      rw [List.cons_append, joinLines_cons line hne, induct (List.cons_ne_nil _ _),
        joinLines_cons line (List.cons_ne_nil _ _)]
      simp only [String.append_assoc]

/-- What is written behind the last line prolongs that line. -/
theorem joinLines_append_text (lines : List String) (last text : String) :
    joinLines (lines ++ [last]) ++ text = joinLines (lines ++ [last ++ text]) := by
  cases lines with
  | nil => rfl
  | cons line lines =>
    have hne : line :: lines ≠ [] := List.cons_ne_nil _ _
    rw [joinLines_append hne (List.cons_ne_nil _ _), joinLines_append hne (List.cons_ne_nil _ _)]
    simp only [joinLines, String.append_assoc]

/-! ### Splitting into lines -/

theorem dropReturn_of_unbroken {line : List Char} (hline : ∀ character ∈ line, character ≠ '\r') :
    dropReturn line = line := by
  cases line with
  | nil => rfl
  | cons first others =>
    have hfirst := hline first (List.mem_cons_self ..)
    unfold dropReturn
    split
    · next heq => exact absurd (List.cons.inj heq).1 hfirst
    · rfl

/-- A text without a line break is one line. -/
theorem splitLinesFrom_of_unbroken {text : List Char} (line : List Char)
    (htext : ∀ character ∈ text, character ≠ '\n') (hne : line.reverse ++ text ≠ []) :
    splitLinesFrom line text = [line.reverse ++ text] := by
  induction text generalizing line with
  | nil =>
    cases line with
    | nil => exact absurd rfl hne
    | cons => simp [splitLinesFrom]
  | cons first others induct =>
    have hfirst := htext first (List.mem_cons_self ..)
    rw [splitLinesFrom, if_neg hfirst, induct]
    · simp
    · exact fun character hmem ↦ htext character (List.mem_cons_of_mem _ hmem)
    · simp

theorem splitLinesFrom_joinLines {lines : List String} {last : String}
    (hlines : ∀ line ∈ lines, Unbroken line) (hlast : Unbroken last) (hne : last.toList ≠ []) :
    splitLinesFrom [] (joinLines (lines ++ [last])).toList =
      lines.map String.toList ++ [last.toList] := by
  induction lines with
  | nil =>
    have hsplit :=
      splitLinesFrom_of_unbroken [] (fun c hmem ↦ (hlast c hmem).1) (by simpa using hne)
    simpa [joinLines] using hsplit
  | cons line lines induct =>
    have hline := hlines line (List.mem_cons_self ..)
    have hbreak : '\n' ∉ line.toList := fun hmem ↦ (hline _ hmem).1 rfl
    have hreturn : ∀ character ∈ line.toList.reverse, character ≠ '\r' :=
      fun character hmem ↦ (hline character (List.mem_reverse.1 hmem)).2
    have htext : (joinLines (line :: lines ++ [last])).toList =
        line.toList ++ '\n' :: (joinLines (lines ++ [last])).toList := by
      rw [List.cons_append, joinLines_cons line (by simp), String.toList_append,
        String.toList_append, List.append_assoc]
      rfl
    rw [htext, splitLinesFrom_append_break _ _ _ hbreak, List.append_nil,
      dropReturn_of_unbroken hreturn, List.reverse_reverse,
      induct fun line hmem ↦ hlines line (List.mem_cons_of_mem _ hmem)]
    rfl

theorem splitLines_joinLines {lines : List String} {last : String}
    (hlines : ∀ line ∈ lines, Unbroken line) (hlast : Unbroken last) (hne : last.toList ≠ []) :
    splitLines (joinLines (lines ++ [last])) = lines ++ [last] := by
  rw [splitLines, splitLinesFrom_joinLines hlines hlast hne, List.map_append, List.map_map]
  simp [Function.comp_def]

/-! ### Lines that show tokens -/

/-- Which tokens some lines show, one line after the other. -/
inductive Lines : List String → List Token → Prop
  | nil : Lines [] []
  | cons {line : String} {lines : List String} {tokens others : List Token} :
      Inline joinsWord line tokens → Lines lines others → Lines (line :: lines) (tokens ++ others)

namespace Lines

variable {lines further : List String} {line : String} {tokens others : List Token}

theorem single (hline : Inline joinsWord line tokens) : Lines [line] tokens := by
  have hlines := Lines.cons hline .nil
  rwa [List.append_nil] at hlines

theorem append (hlines : Lines lines tokens) (hfurther : Lines further others) :
    Lines (lines ++ further) (tokens ++ others) := by
  induction hlines with
  | nil => exact hfurther
  | cons hline _ induct =>
    rw [List.append_assoc]
    exact .cons hline induct

/-- Lines that are changed one by one show the same if each of them does. -/
theorem map {change : String → String} (hlines : Lines lines tokens)
    (hchange : ∀ line tokens, Inline joinsWord line tokens →
      Inline joinsWord (change line) tokens) :
    Lines (lines.map change) tokens := by
  induction hlines with
  | nil => exact .nil
  | cons hline _ induct => exact .cons (hchange _ _ hline) induct

theorem unbroken (hlines : Lines lines tokens) : ∀ line ∈ lines, Unbroken line := by
  induction hlines with
  | nil => simp
  | cons hline _ induct =>
    intro line hmem
    rcases List.mem_cons.1 hmem with rfl | hmem
    · exact hline.unbroken
    · exact induct line hmem

theorem shows (hlines : Lines lines tokens) : Shows joinsWord (joinLines lines) tokens := by
  induction hlines with
  | nil => exact fun _ _ _ hscans ↦ hscans
  | @cons line lines tokens others hline hlines induct =>
    cases lines with
    | nil =>
      cases hlines
      rw [List.append_nil]
      exact hline.shows
    | cons second lines =>
      have hbreak : Shows noCharacter (line ++ "\n") (tokens ++ []) :=
        hline.shows.append .lineBreak (by decide)
      rw [List.append_nil] at hbreak
      rw [joinLines_cons line (List.cons_ne_nil _ _)]
      exact hbreak.andThen induct

end Lines

/-! ### Texts of several lines -/

/-- A text of lines that show tokens. Its last line is not empty, so that none is lost in taking
the text apart. -/
inductive Page : String → List Token → Prop
  | mk {lines : List String} {last : String} {tokens : List Token} (hne : last.toList ≠ []) :
      Lines (lines ++ [last]) tokens → Page (joinLines (lines ++ [last])) tokens

theorem Inline.indent {line : String} {tokens : List Token} (hline : Inline joinsWord line tokens) :
    Inline joinsWord (indentation ++ line) tokens :=
  (Inline.blanks (by decide)).andThen hline

theorem Inline.indentUnlessEmpty {line : String} {tokens : List Token}
    (hline : Inline joinsWord line tokens) :
    Inline joinsWord (if line.isEmpty then line else indentation ++ line) tokens := by
  split
  · exact hline
  · exact hline.indent

namespace Page

variable {text : String} {tokens others : List Token}

theorem shows (hpage : Page text tokens) : Shows joinsWord text tokens := by
  obtain ⟨_, hlines⟩ := hpage
  exact hlines.shows

theorem single {line : String} (hne : line.toList ≠ []) (hline : Inline joinsWord line tokens) :
    Page line tokens :=
  @mk [] line tokens hne (.single hline)

/-- A line above a text. -/
theorem under {heading : String} (hheading : Inline joinsWord heading tokens)
    (hpage : Page text others) : Page (heading ++ "\n" ++ text) (tokens ++ others) := by
  obtain ⟨hne, hlines⟩ := hpage
  rw [← joinLines_cons heading (by simp), ← List.cons_append]
  exact .mk hne (.cons hheading hlines)

theorem indentText (hpage : Page text tokens) : Page (indentText text) tokens := by
  obtain @⟨lines, last, tokens, hne, hlines⟩ := hpage
  have hall := hlines.unbroken
  have hsplit : splitLines (joinLines (lines ++ [last])) = lines ++ [last] :=
    splitLines_joinLines (fun line hmem ↦ hall line (List.mem_append_left _ hmem))
      (hall last (List.mem_append_right _ (List.mem_singleton_self last))) hne
  rw [MiniPascal.indentText, hsplit]
  have hindented := hlines.map fun _ _ hline ↦ hline.indentUnlessEmpty
  rw [List.map_append, List.map_singleton] at hindented ⊢
  refine .mk ?_ hindented
  split
  · exact hne
  · simp [String.toList_append, hne]

end Page

/-- Texts of several lines each. -/
inductive Pages : List String → List Token → Prop
  | nil : Pages [] []
  | cons {text : String} {texts : List String} {tokens others : List Token} :
      Page text tokens → Pages texts others → Pages (text :: texts) (tokens ++ others)

namespace Pages

variable {texts further : List String} {tokens others : List Token}

theorem append (htexts : Pages texts tokens) (hfurther : Pages further others) :
    Pages (texts ++ further) (tokens ++ others) := by
  induction htexts with
  | nil => exact hfurther
  | cons htext _ induct =>
    rw [List.append_assoc]
    exact .cons htext induct

/-- In front of other lines, the texts are their lines. -/
theorem exists_lines (htexts : Pages texts tokens) :
    ∃ lines, Lines lines tokens ∧
      ∀ further, further ≠ [] → joinLines (texts ++ further) = joinLines (lines ++ further) := by
  induction htexts with
  | nil => exact ⟨[], .nil, fun _ _ ↦ rfl⟩
  | @cons _ texts _ others htext _ induct =>
    obtain ⟨lines, hlines, hjoin⟩ := induct
    obtain @⟨first, last, tokens, hne, hfirst⟩ := htext
    refine ⟨(first ++ [last]) ++ lines, hfirst.append hlines, ?_⟩
    intro further hfurther
    rw [List.cons_append, joinLines_cons _ (by simp [hfurther]), hjoin further hfurther,
      ← joinLines_append (by simp) (by simp [hfurther]), List.append_assoc (first ++ [last])]

end Pages

/-- A block with a text behind its end. -/
theorem Page.block {declared body : List String} {ending : String} {ds bs es : List Token}
    (hdeclared : Pages declared ds) (hbody : Lines body bs) (hending : Inline joinsWord ending es)
    (hbegins : Begins joinsWord ending) :
    Page (Annotate.blockText declared body ++ ending)
      (ds ++ (.keyword .beginBlock :: (bs ++ .keyword .endBlock :: es))) := by
  obtain ⟨lines, hlines, hjoin⟩ := hdeclared.exists_lines
  have hbegin : Inline joinsWord "begin" [.keyword .beginBlock] := .keyword (by decide)
  have hend : Inline joinsWord "end" [.keyword .endBlock] := .keyword (by decide)
  have hinner : Lines ("" :: "begin" :: (body.map (indentation ++ ·) ++ ["end" ++ ending]))
      ([] ++ ([.keyword .beginBlock] ++ (bs ++ ([.keyword .endBlock] ++ es)))) :=
    .cons Inline.empty.closed (.cons hbegin ((hbody.map fun _ _ hline ↦ hline.indent).append
      (.single (hend.append hending hbegins))))
  have htext : Annotate.blockText declared body ++ ending =
      joinLines (lines ++ "" :: "begin" :: body.map (indentation ++ ·) ++ ["end" ++ ending]) := by
    rw [Annotate.blockText, joinLines_append_text]
    simp only [List.append_assoc]
    exact hjoin _ (List.cons_ne_nil _ _)
  rw [htext]
  refine .mk ?_ ?_
  · simp [String.toList_append]
  · have hall := hlines.append hinner
    simpa using hall

end MiniPascal
