import MiniPascal.Proofs.Token.Division

/-!
# The calls that read a text

`Divides` puts the pieces of a text one behind the other. There is one division of each text
(`exists_divides`, `Divides.unique`), and the calls of a scanner go along it: `Divides.call`
says which call answers with which piece, where the piece stands, and what the later calls answer.

`calls_divide_text`: up to the end, nothing of a text is lost, and each piece is the longest one.
-/

set_option autoImplicit false
set_option relaxedAutoImplicit false

namespace MiniPascal

/-- A piece of a text with its characters. -/
structure Chunk where
  piece : Piece
  text : List Char
  deriving DecidableEq, Repr

namespace Chunk

def joined (chunks : List Chunk) : List Char := chunks.flatMap Chunk.text

@[simp] theorem joined_nil : joined [] = [] := rfl

@[simp] theorem joined_cons (chunk : Chunk) (chunks : List Chunk) :
    joined (chunk :: chunks) = chunk.text ++ joined chunks := rfl

/-- Whether a call answers with the piece. What stands between tokens is passed over. -/
def answered (chunk : Chunk) : Bool :=
  match chunk.piece with
  | .trivia _ => false
  | _ => true

/-- The answer to a piece that stands at a position. -/
inductive Answer (position : Position) : Chunk → Except LexFault Lexeme → Prop
  | token {token : Token} {text : List Char} :
      Answer position ⟨.token token, text⟩ (.ok ⟨token, position⟩)
  | oversized {text : List Char} :
      Answer position ⟨.oversized, text⟩
        (.error (.literalTooLarge (String.ofList text) position.line))
  | unclosed {text : List Char} :
      Answer position ⟨.unclosed, text⟩ (.error (.unterminatedComment position))
  | invalid {character : Char} :
      Answer position ⟨.invalid, [character]⟩ (.error (.invalidCharacter character position))

end Chunk

/-- The pieces of a text, from its beginning to its end. -/
inductive Divides : List Chunk → List Char → Prop
  | nil : Divides [] []
  | cons {chunk : Chunk} {chunks : List Chunk} {rest : List Char} :
      chunk.piece.Leads chunk.text rest → Divides chunks rest →
        Divides (chunk :: chunks) (chunk.text ++ rest)

/-- The answer to a call, the first of which has number zero, and the scanner behind it. -/
def Scanner.call : Nat → Scanner → Except LexFault Lexeme × Scanner
  | 0, scanner => scanner.next
  | number + 1, scanner => scanner.next.2.call number

/-! ### One division -/

theorem Divides.joined {chunks : List Chunk} {text : List Char} (hdivides : Divides chunks text) :
    Chunk.joined chunks = text := by
  induction hdivides with
  | nil => rfl
  | cons _ _ induct => rw [Chunk.joined_cons, induct]

theorem exists_divides (text : List Char) : ∃ chunks, Divides chunks text := by
  induction hlength : text.length using Nat.strong_induction_on generalizing text with
  | _ length induct =>
    cases text with
    | nil => exact ⟨[], .nil⟩
    | cons first others =>
      obtain ⟨chunks, hchunks⟩ :=
        induct _ (hlength ▸ cut_rest_length_lt first others) (cut first others).rest rfl
      rw [← cut_text_append_rest first others]
      exact ⟨⟨_, _⟩ :: chunks, .cons (cut_leads first others) hchunks⟩

theorem Divides.unique {chunks other : List Chunk} {text : List Char}
    (hdivides : Divides chunks text) (hother : Divides other text) : other = chunks := by
  induction hdivides generalizing other with
  | nil =>
    generalize htext : ([] : List Char) = text at hother
    cases hother with
    | nil => rfl
    | cons hleads _ => exact absurd (List.append_eq_nil_iff.1 htext.symm).1 hleads.ne_nil
  | @cons chunk chunks rest hleads _ induct =>
    obtain ⟨first, others, htext⟩ :=
      List.exists_cons_of_ne_nil (List.append_ne_nil_of_left_ne_nil hleads.ne_nil rest)
    have hcut := hleads.cut_eq htext
    rw [htext] at hother
    generalize hsame : first :: others = same at hother
    cases hother with
    | nil => cases hsame
    | @cons found behind later hfound hbehind =>
      have hpair := hcut.symm.trans (hfound.cut_eq hsame.symm)
      obtain ⟨hpiece, htaken, rfl⟩ := Cut.mk.inj hpair
      obtain ⟨piece, taken⟩ := chunk
      obtain ⟨_, _⟩ := found
      simp only at hpiece htaken
      rw [hpiece, htaken, induct hbehind]

/-! ### The calls along a division -/

theorem Scanner.call_nil (number : Nat) (position : Position) :
    Scanner.call number ⟨[], position⟩ = (.ok ⟨.eof, position⟩, ⟨[], position⟩) := by
  induction number with
  | zero => exact next_nil position
  | succ number induct => rw [Scanner.call, next_nil, induct]

section Piece

variable {chunk : Chunk} {rest : List Char}

/-- A piece between tokens is passed over. -/
theorem next_of_skipped (hleads : chunk.piece.Leads chunk.text rest)
    (hskipped : chunk.answered = false) (position : Position) :
    Scanner.next ⟨chunk.text ++ rest, position⟩ =
      Scanner.next ⟨rest, position.afterText chunk.text⟩ := by
  obtain ⟨first, others, htext⟩ :=
    List.exists_cons_of_ne_nil (List.append_ne_nil_of_left_ne_nil hleads.ne_nil rest)
  obtain ⟨piece, taken⟩ := chunk
  cases piece with
  | trivia trivia =>
    simp only at hleads htext ⊢
    rw [htext, Scanner.next, hleads.cut_eq htext]
    rfl
  | _ => cases hskipped

/-- Any other piece is answered. -/
theorem next_of_answered (hleads : chunk.piece.Leads chunk.text rest)
    (hanswered : chunk.answered = true) (position : Position) :
    ∃ answer later, Scanner.next ⟨chunk.text ++ rest, position⟩ = (answer, ⟨rest, later⟩) ∧
      chunk.Answer position answer ∧
        (chunk.piece ≠ .unclosed → later = position.afterText chunk.text) ∧
          (chunk.piece = .unclosed →
            later = ⟨position.line, position.column + chunk.text.length⟩) := by
  obtain ⟨first, others, htext⟩ :=
    List.exists_cons_of_ne_nil (List.append_ne_nil_of_left_ne_nil hleads.ne_nil rest)
  obtain ⟨piece, taken⟩ := chunk
  simp only at hleads htext ⊢
  rw [htext, Scanner.next, hleads.cut_eq htext]
  cases piece with
  | trivia trivia => cases hanswered
  | token token => exact ⟨_, _, rfl, .token, fun _ ↦ rfl, Piece.noConfusion⟩
  | oversized => exact ⟨_, _, rfl, .oversized, fun _ ↦ rfl, Piece.noConfusion⟩
  | unclosed => exact ⟨_, _, rfl, .unclosed, fun hnot ↦ absurd rfl hnot, fun _ ↦ rfl⟩
  | invalid =>
    cases hleads with
    | invalid _ =>
      obtain ⟨rfl, -⟩ := List.cons.inj htext
      exact ⟨_, _, rfl, .invalid, fun _ ↦ rfl, Piece.noConfusion⟩

end Piece

theorem Scanner.call_eq_of_next {scanner other : Scanner} (hnext : scanner.next = other.next)
    (number : Nat) : scanner.call number = other.call number := by
  cases number with
  | zero => exact hnext
  | succ number => rw [call, call, hnext]

theorem Divides.leads {before after : List Chunk} {chunk : Chunk} {text : List Char}
    (hdivides : Divides (before ++ chunk :: after) text) :
    chunk.piece.Leads chunk.text (Chunk.joined after) := by
  induction before generalizing text with
  | nil =>
    cases hdivides with
    | cons hleads hrest => rwa [hrest.joined]
  | cons _ before induct =>
    cases hdivides with
    | cons _ hrest => exact induct hrest

/-- An unclosed comment takes all that is left. -/
theorem ne_unclosed_of_leads {piece : Piece} {taken rest : List Char}
    (hleads : piece.Leads taken rest) (hne : rest ≠ []) : piece ≠ .unclosed := by
  rintro rfl
  cases hleads with
  | unclosed _ => exact hne rfl

theorem Divides.ne_nil {chunks : List Chunk} {text : List Char} (hdivides : Divides chunks text)
    (hne : chunks ≠ []) : text ≠ [] := by
  cases hdivides with
  | nil => exact absurd rfl hne
  | cons hleads _ => exact List.append_ne_nil_of_left_ne_nil hleads.ne_nil _

/-- Each piece that is not passed over is the answer to the call whose number is that of such pieces
in front of it. -/
theorem Divides.call_answer {chunks before after : List Chunk} {chunk : Chunk} {text : List Char}
    (hdivides : Divides chunks text) (position : Position)
    (hchunks : chunks = before ++ chunk :: after) (hanswered : chunk.answered = true) :
    ∃ answer later, Scanner.call (before.countP Chunk.answered) ⟨text, position⟩ =
        (answer, ⟨Chunk.joined after, later⟩) ∧
      chunk.Answer (position.afterText (Chunk.joined before)) answer := by
  induction hdivides generalizing before position with
  | nil => simp at hchunks
  | @cons next chunks rest hleads hrest induct =>
    cases before with
    | nil =>
      obtain ⟨rfl, rfl⟩ := List.cons.inj hchunks
      obtain ⟨answer, later, hnext, hanswer, -⟩ := next_of_answered hleads hanswered position
      exact ⟨answer, later, by rw [hrest.joined]; exact hnext, hanswer⟩
    | cons same before =>
      obtain ⟨rfl, hothers⟩ := List.cons.inj hchunks
      have hclosed := ne_unclosed_of_leads hleads (hrest.ne_nil (by simp [hothers]))
      rw [Chunk.joined_cons, Position.afterText_append]
      cases htaken : next.answered with
      | false =>
        rw [List.countP_cons_of_neg (by simp [htaken]),
          Scanner.call_eq_of_next (next_of_skipped hleads htaken position)]
        exact induct _ hothers
      | true =>
        obtain ⟨_, later, hnext, -, hlater, -⟩ := next_of_answered hleads htaken position
        rw [List.countP_cons_of_pos htaken, Scanner.call, hnext, hlater hclosed]
        exact induct _ hothers

/-- Behind the last piece there is only the end. -/
theorem Divides.call_end {chunks : List Chunk} {text : List Char} (hdivides : Divides chunks text)
    (position : Position) {number : Nat} (hnumber : chunks.countP Chunk.answered ≤ number) :
    ∃ last, Scanner.call number ⟨text, position⟩ = (.ok ⟨.eof, last⟩, ⟨[], last⟩) ∧
      ((∀ chunk ∈ chunks, chunk.piece ≠ .unclosed) → last = position.afterText text) := by
  induction hdivides generalizing position number with
  | nil => exact ⟨position, Scanner.call_nil number position, fun _ ↦ rfl⟩
  | @cons next chunks rest hleads hrest induct =>
    have hlast {last behind : Position}
        (hclosed : next.piece ≠ .unclosed → behind = position.afterText next.text)
        (hend : (∀ chunk ∈ chunks, chunk.piece ≠ .unclosed) → last = behind.afterText rest)
        (hall : ∀ chunk ∈ next :: chunks, chunk.piece ≠ .unclosed) :
        last = position.afterText (next.text ++ rest) := by
      rw [hend fun chunk hmem ↦ hall chunk (List.mem_cons_of_mem _ hmem),
        hclosed (hall next (List.mem_cons_self ..)), Position.afterText_append]
    cases htaken : next.answered with
    | false =>
      rw [List.countP_cons_of_neg (by simp [htaken])] at hnumber
      obtain ⟨last, hcall, hend⟩ := induct (position.afterText next.text) hnumber
      rw [Scanner.call_eq_of_next (next_of_skipped hleads htaken position)]
      exact ⟨last, hcall, hlast (fun _ ↦ rfl) hend⟩
    | true =>
      obtain ⟨_, later, hnext, -, hlater, -⟩ := next_of_answered hleads htaken position
      rw [List.countP_cons_of_pos htaken] at hnumber
      obtain ⟨number, rfl⟩ := Nat.exists_eq_add_of_le' (Nat.le_of_add_left_le hnumber)
      obtain ⟨last, hcall, hend⟩ := induct later (Nat.le_of_add_le_add_right hnumber)
      rw [Scanner.call, hnext]
      exact ⟨last, hcall, hlast hlater hend⟩

theorem Chunk.Answer.ne_eof {chunk : Chunk} {rest : List Char} {position : Position}
    {answer : Except LexFault Lexeme} (hanswer : chunk.Answer position answer)
    (hleads : chunk.piece.Leads chunk.text rest) (last : Position) : answer ≠ .ok ⟨.eof, last⟩ := by
  rintro rfl
  cases hanswer with
  | token =>
    cases hleads with
    | token hspells _ =>
      cases hspells with
      | reserved _ hmem => simp [reservedWords] at hmem

/-- A text has one division, which loses nothing of it. The calls answer with its pieces in order,
none of them with the end, and all further calls with the end. -/
theorem calls_divide_text (text : String) :
    ∃ chunks, Divides chunks text.toList ∧ (∀ other, Divides other text.toList → other = chunks) ∧
      Chunk.joined chunks = text.toList ∧
      (∀ before chunk after, chunks = before ++ chunk :: after → chunk.answered = true →
        ∃ answer later position,
          (Scanner.ofText text).call (before.countP Chunk.answered) = (answer, later) ∧
            later.rest = Chunk.joined after ∧ chunk.Answer position answer ∧
              ∀ last, answer ≠ .ok ⟨.eof, last⟩) ∧
      ∀ number, chunks.countP Chunk.answered ≤ number →
        ∃ last, (Scanner.ofText text).call number = (.ok ⟨.eof, last⟩, ⟨[], last⟩) := by
  obtain ⟨chunks, hchunks⟩ := exists_divides text.toList
  refine ⟨chunks, hchunks, fun other hother ↦ hchunks.unique hother, hchunks.joined, ?_, ?_⟩
  · intro before chunk after hsplit hanswered
    obtain ⟨answer, later, hcall, hanswer⟩ := hchunks.call_answer Position.start hsplit hanswered
    have hleads := Divides.leads (hsplit ▸ hchunks)
    exact ⟨answer, _, _, hcall, rfl, hanswer, hanswer.ne_eof hleads⟩
  · intro number hnumber
    obtain ⟨last, hcall, -⟩ := hchunks.call_end Position.start hnumber
    exact ⟨last, hcall⟩

end MiniPascal
