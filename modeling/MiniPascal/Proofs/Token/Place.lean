import MiniPascal.Proofs.Token.Offset

/-!
# Where pieces stand

`place` counts lines and columns in the text in front of a piece, which is what positions are meant
to say. `calls_report_places`: each call answers with the place of its piece, or with that of the
end of the text, unless the text ends in a comment that is not closed; and a reader that finds
columns by byte offsets always finds the same.
-/

set_option autoImplicit false
set_option relaxedAutoImplicit false

namespace MiniPascal

/-- The place behind a text: a line for each break in it, and a column for each character behind the
last one. -/
def place (before : List Char) : Position :=
  ⟨before.count '\n' + 1, (before.reverse.takeWhile (· != '\n')).length + 1⟩

theorem afterText_start (before : List Char) : Position.start.afterText before = place before := by
  have hrun {run : List Char} (hunbroken : '\n' ∉ run) :
      ∀ character ∈ run.reverse, (character != '\n') = true :=
    forall_bne_of_not_mem (mt List.mem_reverse.1 hunbroken)
  rcases unbroken_or_last before with hunbroken | ⟨earlier, line, rfl, hunbroken⟩
  · have hall := takeWhile_run (hrun hunbroken) (avoids_nil _)
    rw [List.append_nil] at hall
    rw [afterText_of_unbroken _ hunbroken, place, hall, List.count_eq_zero.2 hunbroken,
      List.length_reverse, Nat.add_comm before.length]
    rfl
  · have hlast : (earlier ++ '\n' :: line).reverse = line.reverse ++ '\n' :: earlier.reverse := by
      simp
    rw [afterText_append_break _ _ hunbroken, place, hlast,
      takeWhile_run (hrun hunbroken) (by simp), List.length_reverse, Nat.add_comm (List.count ..)]
    rfl

/-- Each number below that of the pieces with an answer is that of such pieces in front of one. -/
theorem exists_of_lt_countP {chunks : List Chunk} {number : Nat}
    (hnumber : number < chunks.countP Chunk.answered) :
    ∃ before chunk after, chunks = before ++ chunk :: after ∧ chunk.answered = true ∧
      before.countP Chunk.answered = number := by
  induction chunks generalizing number with
  | nil => simp at hnumber
  | cons chunk chunks induct =>
    by_cases hanswered : chunk.answered = true
    · cases number with
      | zero => exact ⟨[], chunk, chunks, rfl, hanswered, rfl⟩
      | succ number =>
        rw [List.countP_cons_of_pos hanswered] at hnumber
        obtain ⟨before, found, after, rfl, hfound, rfl⟩ := induct (Nat.lt_of_succ_lt_succ hnumber)
        exact ⟨chunk :: before, found, after, rfl, hfound, List.countP_cons_of_pos hanswered⟩
    · rw [List.countP_cons_of_neg hanswered] at hnumber
      obtain ⟨before, found, after, rfl, hfound, rfl⟩ := induct hnumber
      exact ⟨chunk :: before, found, after, rfl, hfound, List.countP_cons_of_neg hanswered⟩

/-- Each call answers with the place of its piece or of the end, and the columns that are found by
byte offsets are those. -/
theorem calls_report_places (text : String) :
    ∃ chunks, Divides chunks text.toList ∧ ∀ number,
      ((∃ before chunk after, chunks = before ++ chunk :: after ∧ chunk.answered = true ∧
          before.countP Chunk.answered = number ∧
            chunk.Answer (place (Chunk.joined before)) ((Scanner.ofText text).call number).1) ∨
        ∃ last, chunks.countP Chunk.answered ≤ number ∧
          ((Scanner.ofText text).call number).1 = .ok ⟨.eof, last⟩ ∧
            ((∀ chunk ∈ chunks, chunk.piece ≠ .unclosed) → last = place text.toList)) ∧
      ((Reader.ofText text).call? number).map Prod.fst =
        some ((Scanner.ofText text).call number).1 := by
  obtain ⟨chunks, hchunks⟩ := exists_divides text.toList
  refine ⟨chunks, hchunks, fun number ↦ ⟨?_, Reader.call?_ofText text number⟩⟩
  rcases Nat.lt_or_ge number (chunks.countP Chunk.answered) with hbelow | hbeyond
  · obtain ⟨before, chunk, after, hsplit, hanswered, rfl⟩ := exists_of_lt_countP hbelow
    obtain ⟨answer, later, hcall, hanswer⟩ :=
      hchunks.call_answer Position.start hsplit hanswered
    refine .inl ⟨before, chunk, after, hsplit, hanswered, rfl, ?_⟩
    rw [← afterText_start, Scanner.ofText, hcall]
    exact hanswer
  · obtain ⟨last, hcall, hlast⟩ := hchunks.call_end Position.start hbeyond
    refine .inr ⟨last, hbeyond, by rw [Scanner.ofText, hcall], fun hclosed ↦ ?_⟩
    rw [hlast hclosed, afterText_start]

end MiniPascal
