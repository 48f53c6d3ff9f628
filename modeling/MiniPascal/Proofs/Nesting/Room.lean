import MiniPascal.Proofs.Grammar.Repetition
import MiniPascal.Proofs.Nesting.Depth

/-!
# How deep a program may be

The room of a rule is the number of levels that the limit leaves at its cursor. A rule that succeeds
leaves the depth of the cursor as it was, and what it yields has paths that are at most as long as
its room, as far as they enter no left operand.

The left operand of a link is read before the link is counted, so with each link of a chain all
that was read before sinks one level deeper. `factorReach`, `expressionReach` and `reach` say how
deep factors, expressions and whole blocks may become for all that. `parse_held` puts both bounds
together for the programs that `parse` takes.
-/

set_option autoImplicit false
set_option relaxedAutoImplicit false

namespace MiniPascal

/-- How deep a factor may be. A parenthesis takes one level of room and no node. -/
def factorReach : Nat → Nat
  | 0 => 0
  | room + 1 => max (factorReach room + 1) (factorReach room + 2 * (room - 1))

/-- How deep an expression may be: its two chains have one operator less than there is room, and all
of these may stand above the first operand. -/
def expressionReach (room : Nat) : Nat := factorReach room + 2 * (room - 1)

/-- How deep a block, a procedure or a compound statement may be. -/
def reach : Nat → Nat
  | 0 => 0
  | room + 1 => max (expressionReach room) (reach room) + 1

theorem factorReach_mono {less more : Nat} (hle : less ≤ more) :
    factorReach less ≤ factorReach more := by
  induction hle with
  | refl => exact Nat.le_refl _
  | step _ induct =>
    simp only [factorReach]
    omega

theorem factorReach_le_square (room : Nat) : factorReach room ≤ room * room := by
  induction room with
  | zero => exact Nat.le_refl 0
  | succ room induct =>
    simp only [factorReach]
    have hsquare : (room + 1) * (room + 1) = room * room + 2 * room + 1 := by
      rw [Nat.add_mul, Nat.mul_add]
      omega
    omega

theorem reach_le_square (room : Nat) : reach room ≤ room * room := by
  induction room with
  | zero => exact Nat.le_refl 0
  | succ room induct =>
    have hfactor := factorReach_le_square room
    have hsquare : (room + 1) * (room + 1) = room * room + 2 * room + 1 := by
      rw [Nat.add_mul, Nat.mul_add]
      omega
    simp only [reach, expressionReach]
    omega

theorem reach_le_self {room : Nat} (hroom : room ≤ 2) : reach room ≤ room := by
  match room, hroom with
  | 0, _ | 1, _ | 2, _ => decide

/-- The cursor has so many levels open. -/
def At (depth : Nat) (cursor : Cursor) : Prop := cursor.depth = depth

namespace Yields

variable {α β : Type} {depth limit : Nat} {good : α → Prop} {rule : Rule α}

theorem peek {next : Token → Rule α} (hnext : ∀ token, Yields (At depth) good (next token)) :
    Yields (At depth) good (Rule.peek >>= next) := by
  intro cursor v later hdepth hresult
  exact hnext _ cursor v later hdepth hresult

theorem currentLine {next : Nat → Rule α} (hnext : ∀ line, Yields (At depth) good (next line)) :
    Yields (At depth) good (Rule.currentLine >>= next) := by
  intro cursor v later hdepth hresult
  exact hnext _ cursor v later hdepth hresult

theorem advance : Yields (At depth) (fun _ ↦ True) Rule.advance := by
  rintro ⟨current, upcoming, ending, level⟩ lexeme later hdepth hresult
  cases upcoming with
  | cons next others =>
    obtain ⟨-, rfl⟩ := EStateM.Result.ok.inj hresult
    exact ⟨hdepth, trivial⟩
  | nil =>
    cases ending with
    | eof position =>
      obtain ⟨-, rfl⟩ := EStateM.Result.ok.inj hresult
      exact ⟨hdepth, trivial⟩
    | broken fault => cases hresult

theorem unexpected (expected : Expectation) :
    Yields (At depth) good (Rule.unexpected expected) := by
  intro cursor v later _ hresult
  cases hresult

theorem tooDeep : Yields (At depth) good (Rule.tooDeep limit) := by
  intro cursor v later _ hresult
  cases hresult

theorem expect (kind : Token.Kind) : Yields (At depth) (fun _ ↦ True) (Rule.expect kind) := by
  refine peek fun token ↦ ?_
  split
  · exact advance
  · exact unexpected _

theorem mention : Yields (At depth) (fun _ ↦ True) Rule.mention := by
  rw [Rule.Reads.mention_eq]
  refine peek fun token ↦ ?_
  split
  · exact advance.bind fun _ _ ↦ pure trivial
  · exact unexpected _

/-- A rule a level deeper, for which there has to be room. -/
theorem nested (hrule : depth < limit → Yields (At (depth + 1)) good rule) :
    Yields (At depth) (fun v ↦ depth < limit ∧ good v) (Rule.nested limit rule) := by
  intro cursor v later hdepth hresult
  subst hdepth
  by_cases hlimit : cursor.depth < limit
  · cases hinner : rule { cursor with depth := cursor.depth + 1 } with
    | ok w last =>
      rw [Rule.nested_of_ok hlimit hinner] at hresult
      obtain ⟨rfl, rfl⟩ := EStateM.Result.ok.inj hresult
      obtain ⟨hlast, hgood⟩ :=
        hrule hlimit { cursor with depth := cursor.depth + 1 } w last rfl hinner
      have hdepth : last.depth = cursor.depth + 1 := hlast
      exact ⟨by simp only [At, hdepth, Nat.add_sub_cancel], hlimit, hgood⟩
    | error fault last =>
      rw [Rule.nested_of_error hlimit hinner] at hresult
      cases hresult
  · have hfull : Rule.nested limit rule cursor =
        .error (.tooDeep limit cursor.current.position.line) cursor :=
      bind_of_error (Rule.descend_of_le (Nat.not_lt.1 hlimit))
    rw [hfull] at hresult
    cases hresult

theorem repeatOn {select : Token → Option β} {item : β → Rule α}
    (hitem : ∀ choice, Yields (At depth) good (item choice)) :
    Yields (At depth) (fun vs ↦ ∀ v ∈ vs, good v) (Rule.repeatOn select item) := by
  have hloop (bound : List Lexeme) (done : List α) (hdone : ∀ v ∈ done, good v) :
      Yields (At depth) (fun vs ↦ ∀ v ∈ vs, good v) (Rule.repeatAtMost select item bound done) := by
    induction bound generalizing done with
    | nil => exact pure (by simpa using hdone)
    | cons lexeme bound induct =>
      rw [Rule.repeatAtMost]
      refine peek fun token ↦ ?_
      split
      · exact pure (by simpa using hdone)
      · refine (hitem _).bind fun v hv ↦ induct (v :: done) ?_
        intro w hw
        rcases List.mem_cons.1 hw with rfl | hw
        · exact hv
        · exact hdone w hw
  intro cursor vs later hdepth hresult
  exact hloop _ [] (by simp) cursor vs later hdepth hresult

theorem separated {kind : Token.Kind} {item : Rule α} (hitem : Yields (At depth) good item) :
    Yields (At depth) (fun vs ↦ ∀ v ∈ vs, good v) (Rule.separated kind item) := by
  refine hitem.bind fun v hv ↦ ?_
  refine (repeatOn fun _ ↦ advance.bind fun _ _ ↦ hitem).bind fun vs hvs ↦ ?_
  refine pure ?_
  intro w hw
  rcases List.mem_cons.1 hw with rfl | hw
  · exact hv
  · exact hvs w hw

end Yields

namespace Rule

/-! ### Chains -/

/-- An expression for which there is room, and how deep it may be for all that. -/
def Fits (bound : Nat → Nat) (room : Nat) (e : Expression) : Prop :=
  e.rightDepth ≤ room ∧ e.depth ≤ bound room

/-- Links of a chain, each of which has one level less than the one before. -/
def LinksFit (bound : Nat → Nat) : Nat → List Link → Prop
  | _, [] => True
  | room, first :: others => Fits bound (room - 1) first.right ∧ LinksFit bound (room - 1) others

variable {bound : Nat → Nat} {room : Nat} {links : List Link}

theorem Fits.room_pos {e : Expression} (hfits : Fits bound room e) : 0 < room :=
  Nat.lt_of_lt_of_le e.rightDepth_pos hfits.1

theorem LinksFit.length_le (hroom : 0 < room) (hlinks : LinksFit bound room links) :
    links.length ≤ room - 1 := by
  induction links generalizing room with
  | nil => exact Nat.zero_le _
  | cons first others induct =>
    have hpos := hlinks.1.room_pos
    have hothers := induct hpos hlinks.2
    rw [List.length_cons]
    omega

/-- What hangs to the right of an operator has less room than the operator. -/
theorem LinksFit.rightDepth_le {first : Expression} {most : Nat} (hfirst : first.rightDepth ≤ most)
    (hmost : room ≤ most) (hlinks : LinksFit bound room links) :
    (links.foldl Link.join first).rightDepth ≤ most := by
  induction links generalizing first room with
  | nil => exact hfirst
  | cons link others induct =>
    have hpos := hlinks.1.room_pos
    have hright := hlinks.1.1
    refine induct ?_ (by omega) hlinks.2
    rw [Link.join, Expression.rightDepth]
    omega

/-- What hangs to the left sinks by one level with every link. -/
theorem LinksFit.depth_le {first : Expression} {most : Nat}
    (hmono : ∀ {less more}, less ≤ more → bound less ≤ bound more) (hfirst : first.depth ≤ most)
    (hmost : bound room ≤ most) (hlinks : LinksFit bound room links) :
    (links.foldl Link.join first).depth ≤ most + links.length := by
  induction links generalizing first room most with
  | nil => exact hfirst
  | cons link others induct =>
    have hright := hlinks.1.2
    have hless : bound (room - 1) ≤ bound room := hmono (Nat.sub_le room 1)
    have hjoined : (Link.join first link).depth ≤ most + 1 := by
      rw [Link.join, Expression.depth]
      omega
    have hothers := induct hjoined (by omega) hlinks.2
    rw [List.foldl_cons, List.length_cons]
    omega

/-- A link leaves the level open that it counts for. -/
theorem link_fits {limit : Nat} {operand : Rule Expression} {operator : Operator}
    (hoperand : ∀ depth, Yields (At depth) (Fits bound (limit - depth)) operand)
    {cursor later : Cursor} {l : Link}
    (hresult : link limit operand operator cursor = .ok l later) :
    later.depth = cursor.depth + 1 ∧ Fits bound (limit - cursor.depth - 1) l.right := by
  have hlinked : Yields (At (cursor.depth + 1))
      (fun l ↦ Fits bound (limit - cursor.depth - 1) l.right) (linked operand operator) := by
    refine Yields.advance.bind fun lexeme _ ↦ ?_
    refine (hoperand (cursor.depth + 1)).bind fun right hright ↦ ?_
    rw [← Nat.sub_sub] at hright
    exact Yields.pure hright
  by_cases hdepth : cursor.depth < limit
  · rw [link, bind_of_ok (descend_of_lt hdepth)] at hresult
    exact hlinked { cursor with depth := cursor.depth + 1 } l later rfl hresult
  · rw [link, bind_of_error (descend_of_le (Nat.not_lt.1 hdepth))] at hresult
    cases hresult

/-- Each link that a chain reads raises the depth by one. -/
theorem links_fit {limit : Nat} {select : Token → Option Operator} {operand : Rule Expression}
    (hoperand : ∀ depth, Yields (At depth) (Fits bound (limit - depth)) operand)
    (lexemes : List Lexeme)
    (done : List Link) (cursor : Cursor) (all : List Link) (later : Cursor)
    (hresult : repeatAtMost select (link limit operand) lexemes done cursor = .ok all later) :
    ∃ links, all = done.reverse ++ links ∧ later.depth = cursor.depth + links.length ∧
      LinksFit bound (limit - cursor.depth) links := by
  induction lexemes generalizing done cursor with
  | nil =>
    obtain ⟨rfl, rfl⟩ := EStateM.Result.ok.inj hresult
    exact ⟨[], by simp, rfl, trivial⟩
  | cons lexeme lexemes induct =>
    rw [repeatAtMost_cons] at hresult
    cases hselect : select cursor.current.token with
    | none =>
      rw [hselect] at hresult
      obtain ⟨rfl, rfl⟩ := EStateM.Result.ok.inj hresult
      exact ⟨[], by simp, rfl, trivial⟩
    | some operator =>
      rw [hselect] at hresult
      obtain ⟨l, middle, hlink, hrest⟩ := ok_of_bind_ok hresult
      obtain ⟨hmiddle, hfits⟩ := link_fits hoperand hlink
      obtain ⟨links, hall, hlater, hothers⟩ := induct (l :: done) middle hrest
      rw [hmiddle, ← Nat.sub_sub] at hothers
      refine ⟨l :: links, by simp [hall], ?_, hfits, hothers⟩
      rw [hlater, hmiddle, List.length_cons]
      omega

theorem Yields.chain {limit depth : Nat} {select : Token → Option Operator}
    {operand : Rule Expression} (hmono : ∀ {less more}, less ≤ more → bound less ≤ bound more)
    (hoperand : ∀ depth, Yields (At depth) (Fits bound (limit - depth)) operand) :
    Yields (At depth) (Fits (fun room ↦ bound room + (room - 1)) (limit - depth))
      (Rule.chain limit select operand) := by
  rw [chain_eq]
  refine (hoperand depth).bind fun first hfirst ↦ ?_
  rw [links_eq_repeatOn]
  intro cursor e last hdepth hresult
  subst hdepth
  obtain ⟨ls, later, hlinks, hjoin⟩ := ok_of_bind_ok hresult
  obtain ⟨found, middle, hloop, hascend⟩ := ok_of_bind_ok hlinks
  obtain ⟨links, rfl, hmiddle, hfits⟩ := links_fit hoperand _ [] cursor found middle hloop
  obtain ⟨rfl, rfl⟩ := EStateM.Result.ok.inj hascend
  obtain ⟨rfl, rfl⟩ := EStateM.Result.ok.inj hjoin
  have hlength := hfits.length_le hfirst.room_pos
  have hright := hfits.rightDepth_le hfirst.1 (Nat.le_refl _)
  have hwhole := hfits.depth_le hmono hfirst.2 (Nat.le_refl _)
  refine ⟨?_, hright, ?_⟩
  · change middle.depth - found.length = cursor.depth
    rw [hmiddle, Nat.add_sub_cancel]
  · exact Nat.le_trans hwhole (Nat.add_le_add_left hlength _)

/-! ### Expressions -/

theorem fits_leaf {e : Expression} (hright : e.rightDepth = 1) (hdepth : e.depth = 1) :
    Fits factorReach (room + 1) e := by
  rw [Fits, hright, hdepth, factorReach]
  omega

theorem fits_unary (sign : Sign) (line : Nat) {operand : Expression}
    (hoperand : Fits factorReach room operand) :
    Fits factorReach (room + 1) (.unary sign operand line) := by
  have hright := hoperand.1
  have hdepth := hoperand.2
  rw [Fits, Expression.rightDepth, Expression.depth, factorReach]
  omega

theorem fits_parenthesized {e : Expression} (hinner : Fits expressionReach room e) :
    Fits factorReach (room + 1) e := by
  have hright := hinner.1
  have hdepth := hinner.2
  rw [expressionReach] at hdepth
  rw [Fits, factorReach]
  omega

variable {limit depth levels : Nat}

theorem yields_expressionOf {factor : Rule Expression}
    (hfactor : ∀ depth, Yields (At depth) (Fits factorReach (limit - depth)) factor) :
    Yields (At depth) (Fits expressionReach (limit - depth)) (expressionOf limit factor) := by
  have hterm (depth : Nat) : Yields (At depth)
      (Fits (fun room ↦ factorReach room + (room - 1)) (limit - depth)) (termOf limit factor) :=
    Yields.chain factorReach_mono hfactor
  have hmono {less more : Nat} (hle : less ≤ more) :
      factorReach less + (less - 1) ≤ factorReach more + (more - 1) :=
    Nat.add_le_add (factorReach_mono hle) (Nat.sub_le_sub_right hle 1)
  refine (Yields.chain hmono hterm).mono fun e he ↦ ⟨he.1, ?_⟩
  have hdepth : e.depth ≤ factorReach (limit - depth) + (limit - depth - 1) +
    (limit - depth - 1) := he.2
  rw [expressionReach]
  omega

theorem yields_factor :
    Yields (At depth) (Fits factorReach (limit - depth)) (factor limit levels) := by
  induction levels generalizing depth with
  | zero => exact Yields.tooDeep
  | succ levels induct =>
    have hnested {body : Rule Expression}
        (hbody : Yields (At (depth + 1)) (Fits factorReach (limit - (depth + 1) + 1)) body) :
        Yields (At depth) (Fits factorReach (limit - depth)) (Rule.nested limit body) := by
      refine (Yields.nested fun _ ↦ hbody).mono fun e he ↦ ?_
      have hroom : limit - (depth + 1) + 1 = limit - depth := by omega
      exact hroom ▸ he.2
    rw [factor]
    refine hnested (Yields.currentLine fun line ↦ Yields.peek fun token ↦ ?_)
    split
    · exact Yields.advance.bind fun _ _ ↦ induct.bind fun e he ↦ Yields.pure (fits_unary _ _ he)
    · exact Yields.advance.bind fun _ _ ↦ induct.bind fun e he ↦ Yields.pure (fits_unary _ _ he)
    · exact Yields.advance.bind fun _ _ ↦ Yields.pure (fits_leaf rfl rfl)
    · exact Yields.advance.bind fun _ _ ↦ Yields.pure (fits_leaf rfl rfl)
    · refine Yields.advance.bind fun _ _ ↦ (yields_expressionOf fun _ ↦ induct).bind fun e he ↦ ?_
      exact (Yields.expect _).bind fun _ _ ↦ Yields.pure (fits_parenthesized he)
    · exact Yields.mention.bind fun _ _ ↦ Yields.pure (fits_leaf rfl rfl)
    all_goals exact Yields.unexpected _

theorem yields_expression :
    Yields (At depth) (Fits expressionReach (limit - depth)) (expression limit levels) :=
  yields_expressionOf fun _ ↦ yields_factor

/-! ### Statements and declarations -/

/-- A part of a program, given how it is measured, for which there is room in a block. -/
def Held (room : Nat) (measure : Gauge → Nat) : Prop :=
  measure .right ≤ room ∧ measure .full ≤ reach room

theorem held_zero : Held room fun _ ↦ 0 := ⟨Nat.zero_le _, Nat.zero_le _⟩

theorem Held.max {first second : Gauge → Nat} (hfirst : Held room first)
    (hsecond : Held room second) : Held room fun gauge ↦ max (first gauge) (second gauge) :=
  ⟨Nat.max_le.2 ⟨hfirst.1, hsecond.1⟩, Nat.max_le.2 ⟨hfirst.2, hsecond.2⟩⟩

theorem Held.down {measure : Gauge → Nat} (hheld : Held room measure) :
    Held (room + 1) fun gauge ↦ gauge.down (measure gauge) := by
  have hfull := hheld.2
  constructor
  · exact Nat.add_le_add_right hheld.1 1
  · change measure .full + 1 ≤ reach (room + 1)
    rw [reach]
    omega

/-- A statement for which there is room, be it an assignment or a compound statement. -/
def StatementFits (room : Nat) (s : Statement) : Prop :=
  s.measure .right ≤ room ∧ s.measure .full ≤ max (expressionReach room) (reach room)

theorem held_statements {ss : List Statement} (hss : ∀ s ∈ ss, StatementFits room s) :
    Held (room + 1) fun gauge ↦ gauge.down (Statement.measureAll gauge ss) := by
  have hall : Statement.measureAll .right ss ≤ room ∧
      Statement.measureAll .full ss ≤ max (expressionReach room) (reach room) := by
    induction ss with
    | nil => exact ⟨Nat.zero_le _, Nat.zero_le _⟩
    | cons first others induct =>
      have hfirst := hss first (List.mem_cons_self ..)
      have hothers := induct fun s hs ↦ hss s (List.mem_cons_of_mem _ hs)
      exact ⟨Nat.max_le.2 ⟨hfirst.1, hothers.1⟩, Nat.max_le.2 ⟨hfirst.2, hothers.2⟩⟩
  constructor
  · exact Nat.add_le_add_right hall.1 1
  · change Statement.measureAll .full ss + 1 ≤ reach (room + 1)
    rw [reach]
    exact Nat.add_le_add_right hall.2 1

theorem held_declarations {ds : List Declaration}
    (hds : ∀ d ∈ ds, Held room fun gauge ↦ d.measure gauge) :
    Held room fun gauge ↦ Declaration.measureAll gauge ds := by
  induction ds with
  | nil => exact held_zero
  | cons first others induct =>
    have hothers := induct fun d hd ↦ hds d (List.mem_cons_of_mem _ hd)
    exact (hds first (List.mem_cons_self ..)).max hothers

theorem yields_statementOf {compound : Rule (List Statement)}
    (hcompound : Yields (At depth)
      (fun ss ↦ Held (limit - depth) fun gauge ↦ gauge.down (Statement.measureAll gauge ss))
      compound) :
    Yields (At depth) (StatementFits (limit - depth)) (statementOf limit levels compound) := by
  refine Yields.peek fun token ↦ ?_
  split
  · refine hcompound.bind fun ss hss ↦ Yields.pure ⟨hss.1, ?_⟩
    exact Nat.le_trans hss.2 (Nat.le_max_right _ _)
  · refine Yields.mention.bind fun target _ ↦ (Yields.expect _).bind fun lexeme _ ↦ ?_
    refine yields_expression.bind fun value hvalue ↦ Yields.pure ⟨hvalue.1, ?_⟩
    exact Nat.le_trans hvalue.2 (Nat.le_max_left _ _)
  · exact Yields.pure ⟨Nat.zero_le _, Nat.zero_le _⟩

theorem yields_compound :
    Yields (At depth)
      (fun ss ↦ Held (limit - depth) fun gauge ↦ gauge.down (Statement.measureAll gauge ss))
      (compound limit levels) := by
  induction levels generalizing depth with
  | zero => exact Yields.tooDeep
  | succ levels induct =>
    have hbody : Yields (At (depth + 1)) (fun ss : List Statement ↦ Held (limit - (depth + 1) + 1)
        fun gauge ↦ gauge.down (Statement.measureAll gauge ss)) (do
          let _ ← expect (.keyword .beginBlock)
          let statements ←
            Rule.separated (.mark .semicolon) (statementOf limit levels (compound limit levels))
          if (← peek).kind = .identifier then unexpected .separatorOrEnd
          let _ ← expect (.keyword .endBlock)
          return statements) := by
      refine (Yields.expect _).bind fun _ _ ↦ ?_
      refine (yields_statementOf induct).separated.bind fun ss hss ↦ Yields.peek fun token ↦ ?_
      have hend : Yields (At (depth + 1)) (fun ss : List Statement ↦ Held (limit - (depth + 1) + 1)
          fun gauge ↦ gauge.down (Statement.measureAll gauge ss))
          (expect (.keyword .endBlock) >>= fun _ ↦ pure ss) :=
        (Yields.expect _).bind fun _ _ ↦ Yields.pure (held_statements hss)
      split
      · exact (@Yields.unexpected _ _ (fun _ ↦ True) _).bind fun _ _ ↦ hend
      · exact hend
    rw [compound]
    refine (Yields.nested fun _ ↦ hbody).mono fun ss hss ↦ ?_
    have hroom : limit - (depth + 1) + 1 = limit - depth := by omega
    exact hroom ▸ hss.2

theorem yields_group : Yields (At depth) (fun _ ↦ True) group := by
  have htype : Yields (At depth) (fun _ ↦ True) scalarType := by
    refine Yields.currentLine fun line ↦ Yields.peek fun token ↦ ?_
    split
    · exact Yields.advance.bind fun _ _ ↦ Yields.pure trivial
    · exact Yields.advance.bind fun _ _ ↦ Yields.pure trivial
    · exact Yields.unexpected _
  exact Yields.mention.separated.bind fun _ _ ↦ (Yields.expect _).bind fun _ _ ↦
    htype.bind fun _ _ ↦ Yields.pure trivial

theorem yields_variableSections : Yields (At depth) (fun _ ↦ True) variableSections := by
  have hgroup : Yields (At depth) (fun _ ↦ True) closedGroup :=
    yields_group.bind fun _ _ ↦ (Yields.expect _).bind fun _ _ ↦ Yields.pure trivial
  have hsection : Yields (At depth) (fun _ ↦ True) variableSection :=
    Yields.advance.bind fun _ _ ↦ hgroup.bind fun _ _ ↦
      (Yields.repeatOn fun _ ↦ hgroup).bind fun _ _ ↦ Yields.pure trivial
  exact (Yields.repeatOn fun _ ↦ hsection).bind fun _ _ ↦ Yields.pure trivial

theorem yields_parameters : Yields (At depth) (fun _ ↦ True) parameters := by
  refine Yields.peek fun token ↦ ?_
  split
  · exact Yields.advance.bind fun _ _ ↦ yields_group.separated.bind fun _ _ ↦
      (Yields.expect _).bind fun _ _ ↦ Yields.pure trivial
  · exact Yields.pure trivial

theorem yields_blockOf {procedure : Rule Declaration}
    (hprocedure : Yields (At depth)
      (fun d ↦ Held (limit - depth) fun gauge ↦ d.measure gauge) procedure) :
    Yields (At depth) (fun b ↦ Held (limit - depth) fun gauge ↦ b.measure gauge)
      (blockOf limit levels procedure) := by
  refine yields_variableSections.bind fun declared _ ↦ ?_
  refine (Yields.repeatOn fun _ ↦ hprocedure).bind fun procedures hprocedures ↦ ?_
  refine yields_compound.bind fun body hbody ↦ Yields.pure ?_
  have hall : ∀ d ∈ declared.map Declaration.var ++ procedures,
      Held (limit - depth) fun gauge ↦ d.measure gauge := by
    intro d hd
    rcases List.mem_append.1 hd with hvar | hprocedure
    · obtain ⟨variable', -, rfl⟩ := List.mem_map.1 hvar
      exact held_zero
    · exact hprocedures d hprocedure
  exact (held_declarations hall).max hbody

theorem yields_procedure :
    Yields (At depth) (fun d ↦ Held (limit - depth) fun gauge ↦ d.measure gauge)
      (procedure limit levels) := by
  induction levels generalizing depth with
  | zero => exact Yields.tooDeep
  | succ levels induct =>
    rw [procedure]
    have hroom (hdepth : depth < limit) : limit - (depth + 1) + 1 = limit - depth := by omega
    refine (Yields.nested fun hdepth ↦ ?_).mono fun d hd ↦ hroom hd.1 ▸ hd.2
    refine (Yields.expect _).bind fun keyword _ ↦ Yields.mention.bind fun found _ ↦ ?_
    refine yields_parameters.bind fun declared _ ↦ (Yields.expect _).bind fun _ _ ↦ ?_
    refine (yields_blockOf induct).bind fun b hb ↦ (Yields.expect _).bind fun _ _ ↦ ?_
    exact Yields.pure hb.down

theorem yields_program :
    Yields (At depth) (fun p ↦ Held (limit - depth) fun gauge ↦ p.block.measure gauge)
      (program limit) := by
  refine (Yields.expect _).bind fun keyword _ ↦ Yields.mention.bind fun found _ ↦ ?_
  refine (Yields.expect _).bind fun _ _ ↦ (yields_blockOf yields_procedure).bind fun b hb ↦ ?_
  exact (Yields.expect _).bind fun _ _ ↦ (Yields.expect _).bind fun _ _ ↦ Yields.pure hb

end Rule

/-! ### Programs -/

theorem parse_held {limit : Nat} {text : String} {p : Program} (hparse : parse limit text = .ok p) :
    p.rightDepth ≤ limit ∧ p.depth ≤ reach limit := by
  unfold parse at hparse
  split at hparse
  · cases hparse
  · next cursor hcursor =>
    have hdepth : cursor.depth = 0 := by
      unfold Cursor.ofFeed at hcursor
      split at hcursor <;> cases hcursor <;> rfl
    split at hparse
    · next content later hresult =>
      obtain rfl := Except.ok.inj hparse
      exact (Rule.yields_program cursor content later hdepth hresult).2
    · cases hparse

end MiniPascal
