import MiniPascal.Grammar.Program

/-!
# What lies ahead of a cursor

`Cursor.ahead` lists the lexemes from the current one on, with the end of the text as the last of
them unless a lexical fault stands there. `Cursor.Moves` says that a cursor got somewhere by
consuming given lexemes, and `Rule.advance_cases` that the only primitive that consumes does so one
lexeme at a time or runs into the fault.

`Feed.ahead_eq_of_tokenize_ok` and `Feed.tokenize_eq_error_iff` tie the lexemes ahead of the first
cursor to the answer of `tokenize`, and `Feed.steps_of_broken` those in front of a fault to the
answers of the scanner.
-/

set_option autoImplicit false
set_option relaxedAutoImplicit false

namespace MiniPascal

theorem exists_of_isOk {ε α : Type} {answer : Except ε α} (hok : answer.isOk = true) :
    ∃ v, answer = .ok v := by
  cases answer with
  | ok v => exact ⟨v, rfl⟩
  | error fault => cases hok

theorem exists_of_any {ε α : Type} {answer : Except ε α} {test : α → Bool}
    (hany : answer.toOption.any test = true) : ∃ v, answer = .ok v ∧ test v = true := by
  cases answer with
  | ok v => exact ⟨v, rfl, hany⟩
  | error fault => cases hany

namespace Cursor

/-- The lexemes from the current one on, the end of the text included. -/
def ahead (cursor : Cursor) : List Lexeme :=
  cursor.current :: (cursor.upcoming ++
    match cursor.ending with
    | .eof position => if cursor.current.token = .eof then [] else [⟨.eof, position⟩]
    | .broken _ => [])

/-- The end of the text is current only where nothing is upcoming, and never upcoming. -/
structure Sound (cursor : Cursor) : Prop where
  last : cursor.current.token = .eof →
    cursor.upcoming = [] ∧ cursor.ending = .eof cursor.current.position
  upcoming : ∀ lexeme ∈ cursor.upcoming, lexeme.token ≠ .eof

/-- How a cursor got to another one: by consuming the given lexemes. -/
structure Moves (cursor : Cursor) (consumed : List Lexeme) (later : Cursor) : Prop where
  ahead : cursor.ahead = consumed ++ later.ahead
  ending : later.ending = cursor.ending
  sound : later.Sound

variable {cursor later last : Cursor} {consumed further : List Lexeme}

theorem ahead_eq_cons (cursor : Cursor) :
    ∃ others, cursor.ahead = cursor.current :: others := ⟨_, rfl⟩

theorem ahead_ne_nil (cursor : Cursor) : cursor.ahead ≠ [] := List.cons_ne_nil _ _

theorem Moves.refl (hsound : cursor.Sound) : cursor.Moves [] cursor := ⟨rfl, rfl, hsound⟩

theorem Moves.trans (hfirst : cursor.Moves consumed later) (hsecond : later.Moves further last) :
    cursor.Moves (consumed ++ further) last where
  ahead := by rw [hfirst.ahead, hsecond.ahead, List.append_assoc]
  ending := hsecond.ending.trans hfirst.ending
  sound := hsecond.sound

/-- The lexeme behind the consumed ones is the current one of the later cursor. -/
theorem Moves.prefix_ahead (hmoves : cursor.Moves consumed later) :
    consumed ++ [later.current] <+: cursor.ahead := by
  obtain ⟨others, hothers⟩ := later.ahead_eq_cons
  rw [hmoves.ahead, hothers]
  exact ⟨others, by simp⟩

theorem Moves.singleton_starts (hmoves : cursor.Moves consumed later) :
    [cursor.current] <+: consumed ++ [later.current] := by
  have hstarts := hmoves.prefix_ahead
  obtain ⟨others, hothers⟩ := cursor.ahead_eq_cons
  rw [hothers] at hstarts
  cases consumed with
  | nil =>
    rw [List.nil_append, List.cons_prefix_cons] at hstarts
    rw [hstarts.1]
    exact List.prefix_refl _
  | cons first consumed =>
    rw [List.cons_append, List.cons_prefix_cons] at hstarts
    rw [hstarts.1, List.cons_append]
    exact ⟨_, rfl⟩

theorem Moves.length_le (hmoves : cursor.Moves consumed later) :
    consumed.length < cursor.ahead.length := by
  have hlater := List.length_pos_iff.2 later.ahead_ne_nil
  rw [hmoves.ahead, List.length_append]
  omega

/-- A cursor that shares the lexemes up to the current one shares the current one. -/
theorem current_eq_of_starts {lexeme : Lexeme} (hstarts : [lexeme] <+: cursor.ahead) :
    cursor.current = lexeme := by
  obtain ⟨others, hothers⟩ := cursor.ahead_eq_cons
  rw [hothers, List.cons_prefix_cons] at hstarts
  exact hstarts.1.symm

theorem Sound.withDepth (hsound : cursor.Sound) (depth : Nat) :
    ({ cursor with depth } : Cursor).Sound := ⟨hsound.last, hsound.upcoming⟩

theorem Moves.withDepth (hmoves : cursor.Moves consumed later) (before after : Nat) :
    ({ cursor with depth := before } : Cursor).Moves consumed { later with depth := after } :=
  ⟨hmoves.ahead, hmoves.ending, hmoves.sound.withDepth after⟩

/-- The end of the text is all that lies ahead where it is current. -/
theorem Sound.ahead_of_eof (hsound : cursor.Sound) (hend : cursor.current.token = .eof) :
    cursor.ahead = [cursor.current] := by
  obtain ⟨hupcoming, hending⟩ := hsound.last hend
  simp [ahead, hupcoming, hending, hend]

end Cursor

/-- The lexemes of a text up to its end or its first fault, the end included. -/
def Feed.ahead (feed : Feed) : List Lexeme :=
  feed.lexemes ++
    match feed.ending with
    | .eof position => [⟨.eof, position⟩]
    | .broken _ => []

namespace Rule

/-- Consuming a lexeme that is not the end either moves one lexeme forward or runs into the fault
that stands behind the last lexeme. -/
theorem advance_cases {cursor : Cursor} (hsound : cursor.Sound)
    (hgoing : cursor.current.token ≠ .eof) :
    (∃ later, advance cursor = .ok cursor.current later ∧
        cursor.Moves [cursor.current] later ∧ later.depth = cursor.depth) ∨
      ∃ fault, advance cursor = .error (.lexical fault) cursor ∧
        cursor.ending = .broken fault ∧ cursor.ahead = [cursor.current] := by
  obtain ⟨current, upcoming, ending, depth⟩ := cursor
  have hcurrent : current.token ≠ .eof := hgoing
  cases upcoming with
  | cons next others =>
    left
    have hnext : next.token ≠ .eof := hsound.upcoming next (List.mem_cons_self ..)
    refine ⟨⟨next, others, ending, depth⟩, rfl, ⟨?_, rfl, ⟨?_, ?_⟩⟩, rfl⟩
    · cases ending <;> simp [Cursor.ahead, hcurrent, hnext]
    · intro hend
      exact absurd hend hnext
    · intro lexeme hmem
      exact hsound.upcoming lexeme (List.mem_cons_of_mem _ hmem)
  | nil =>
    cases ending with
    | eof position =>
      left
      refine ⟨⟨⟨.eof, position⟩, [], .eof position, depth⟩, rfl, ⟨?_, rfl, ⟨?_, ?_⟩⟩, rfl⟩
      · simp [Cursor.ahead, hcurrent]
      · intro _
        exact ⟨rfl, rfl⟩
      · intro lexeme hmem
        exact absurd hmem List.not_mem_nil
    | broken fault => exact .inr ⟨fault, rfl, rfl, rfl⟩

/-- Consuming the end of the text changes nothing. -/
theorem advance_of_eof {cursor : Cursor} (hsound : cursor.Sound)
    (hend : cursor.current.token = .eof) : advance cursor = .ok cursor.current cursor := by
  obtain ⟨current, upcoming, ending, depth⟩ := cursor
  obtain ⟨hupcoming, hending⟩ := hsound.last hend
  obtain ⟨token, position⟩ := current
  simp only at hend hupcoming hending
  subst hend hupcoming hending
  rfl

end Rule

/-! ### The first cursor -/

namespace Feed

/-- Drawing lexemes one by one meets what `Scanner.all` finds. -/
theorem ofScanner_eq (scanner : Scanner) :
    ofScanner scanner =
      match scanner.next with
      | (.error fault, _) => ⟨[], .broken fault⟩
      | (.ok lexeme, later) =>
        if lexeme.token = .eof then ⟨[], .eof lexeme.position⟩
        else ⟨lexeme :: (ofScanner later).lexemes, (ofScanner later).ending⟩ := by
  rw [ofScanner]
  split
  · next hanswer => rw [hanswer]
  · next hanswer =>
    split
    · next hend => simp [hanswer, hend]
    · next hgoing => simp [hanswer, hgoing]

/-- Reading all tokens of a scanner answers with the lexemes ahead, or with the fault behind
them. -/
theorem all_eq (scanner : Scanner) :
    scanner.all =
      match (ofScanner scanner).ending with
      | .eof _ => .ok (ofScanner scanner).ahead
      | .broken fault => .error fault := by
  fun_induction Scanner.all scanner with
  | case1 scanner fault later hanswer =>
    rw [ofScanner_eq, hanswer]
  | case2 scanner lexeme later hanswer hend =>
    rw [ofScanner_eq, hanswer]
    obtain ⟨token, position⟩ := lexeme
    simp only at hend
    simp [hend, ahead]
  | case3 scanner lexeme later hanswer hgoing induct =>
    rw [induct, ofScanner_eq scanner, hanswer]
    simp only [hgoing, if_false, ahead]
    cases (ofScanner later).ending <;> simp [Except.map]

/-- In front of a fault the scanner answers with the lexemes ahead, one by one. -/
theorem steps_of_broken {scanner : Scanner} {fault : LexFault}
    (hending : (ofScanner scanner).ending = .broken fault) :
    scanner.steps ((ofScanner scanner).ahead.length + 1) =
      (ofScanner scanner).ahead.map .ok ++ [.error fault] := by
  fun_induction ofScanner scanner with
  | case1 scanner first later hanswer =>
    obtain rfl := Ending.broken.inj hending
    simp [ahead, Scanner.steps, hanswer]
  | case2 => cases hending
  | case3 scanner lexeme later hanswer hgoing feed induct =>
    have hothers : later.steps (feed.ahead.length + 1) = feed.ahead.map .ok ++ [.error fault] :=
      induct hending
    change scanner.steps ((lexeme :: feed.ahead).length + 1) =
      (lexeme :: feed.ahead).map .ok ++ [.error fault]
    rw [List.length_cons, Scanner.steps, hanswer, hothers, List.map_cons, List.cons_append]

theorem ofScanner_token_ne_eof (scanner : Scanner) :
    ∀ lexeme ∈ (ofScanner scanner).lexemes, lexeme.token ≠ .eof := by
  fun_induction ofScanner scanner with
  | case1 | case2 => simp
  | case3 scanner lexeme later hanswer hgoing feed induct =>
    intro other hmem
    rcases List.mem_cons.mp hmem with rfl | hmem
    · exact hgoing
    · exact induct other hmem

/-- Every lexeme takes a character of its own. -/
theorem ofScanner_length_le (scanner : Scanner) :
    (ofScanner scanner).lexemes.length ≤ scanner.rest.length := by
  fun_induction ofScanner scanner with
  | case1 | case2 => exact Nat.zero_le _
  | case3 scanner lexeme later hanswer hgoing feed induct =>
    exact Nat.lt_of_le_of_lt induct (Scanner.next_rest_length_lt hanswer hgoing)

theorem length_ahead_le (text : String) : (ofText text).ahead.length ≤ text.length + 1 := by
  have hlexemes := ofScanner_length_le (Scanner.ofText text)
  change (ofText text).lexemes.length ≤ text.toList.length at hlexemes
  rw [String.length_toList] at hlexemes
  rw [ahead, List.length_append]
  cases (ofText text).ending with
  | eof position => exact Nat.add_le_add_right hlexemes 1
  | broken fault => exact Nat.le_succ_of_le hlexemes

variable {text : String}

theorem ahead_eq_of_tokenize_ok {lexemes : List Lexeme} (htokens : tokenize text = .ok lexemes) :
    (ofText text).ahead = lexemes ∧ ∃ position, (ofText text).ending = .eof position := by
  rw [tokenize, all_eq] at htokens
  change (ofScanner (Scanner.ofText text)).ahead = lexemes ∧
    ∃ position, (ofScanner (Scanner.ofText text)).ending = .eof position
  split at htokens
  · next position hending => exact ⟨Except.ok.inj htokens, position, hending⟩
  · cases htokens

theorem tokenize_eq_error_iff {fault : LexFault} :
    tokenize text = .error fault ↔ (ofText text).ending = .broken fault := by
  change _ ↔ (ofScanner (Scanner.ofText text)).ending = .broken fault
  rw [tokenize, all_eq]
  split
  · next position hending => simp [hending]
  · next other hending => simp [hending]

theorem tokenize_eq_of_ending_eof {position : Position}
    (hending : (ofText text).ending = .eof position) : tokenize text = .ok (ofText text).ahead := by
  change (ofScanner (Scanner.ofText text)).ending = .eof position at hending
  rw [tokenize, all_eq, hending]
  rfl

end Feed

/-- The first cursor of a feed stands before all that the feed has to offer. Where there is none,
a fault stands at the very beginning. -/
theorem Cursor.ofFeed_cases (text : String) :
    (∃ cursor, Cursor.ofFeed (Feed.ofText text) = .ok cursor ∧ cursor.Sound ∧ cursor.depth = 0 ∧
        cursor.ahead = (Feed.ofText text).ahead ∧ cursor.ending = (Feed.ofText text).ending) ∨
      ∃ fault, Cursor.ofFeed (Feed.ofText text) = .error fault ∧
        (Feed.ofText text).ahead = [] ∧ (Feed.ofText text).ending = .broken fault := by
  have hgoing := Feed.ofScanner_token_ne_eof (Scanner.ofText text)
  change ∀ lexeme ∈ (Feed.ofText text).lexemes, lexeme.token ≠ .eof at hgoing
  generalize Feed.ofText text = feed at hgoing ⊢
  obtain ⟨lexemes, ending⟩ := feed
  cases lexemes with
  | cons first others =>
    left
    have hfirst : first.token ≠ .eof := hgoing first (List.mem_cons_self ..)
    refine ⟨⟨first, others, ending, 0⟩, rfl, ⟨?_, ?_⟩, rfl, ?_, rfl⟩
    · intro hend
      exact absurd hend hfirst
    · intro lexeme hmem
      exact hgoing lexeme (List.mem_cons_of_mem _ hmem)
    · cases ending <;> simp [Cursor.ahead, Feed.ahead, hfirst]
  | nil =>
    cases ending with
    | eof position =>
      left
      refine ⟨⟨⟨.eof, position⟩, [], .eof position, 0⟩, rfl, ⟨?_, ?_⟩, rfl, ?_, rfl⟩
      · intro _
        exact ⟨rfl, rfl⟩
      · intro lexeme hmem
        exact absurd hmem List.not_mem_nil
      · simp [Cursor.ahead, Feed.ahead]
    | broken fault => exact .inr ⟨fault, rfl, rfl, rfl⟩

/-- A program is parsed from the characters of its text. Of a literal these are known by
`String.toList_ofList`, while computing them takes long. -/
theorem exists_parsed {limit : Nat} {text : String} {characters : List Char}
    {test : Program → Bool} (htext : text.toList = characters)
    (hany : (match Cursor.ofFeed (Feed.ofScanner ⟨characters, Position.start⟩) with
      | .error _ => false
      | .ok cursor =>
        match Rule.program limit cursor with
        | .ok content _ => test content
        | .error _ _ => false) = true) :
    ∃ p, parse limit text = .ok p ∧ test p = true := by
  rw [parse, Feed.ofText, Scanner.ofText, htext]
  cases hcursor : Cursor.ofFeed (Feed.ofScanner ⟨characters, Position.start⟩) with
  | error fault =>
    rw [hcursor] at hany
    cases hany
  | ok cursor =>
    simp only [hcursor] at hany ⊢
    cases hprogram : Rule.program limit cursor with
    | ok content later =>
      rw [hprogram] at hany
      exact ⟨content, rfl, hany⟩
    | error fault later =>
      rw [hprogram] at hany
      cases hany

end MiniPascal
