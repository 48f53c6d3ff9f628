import MiniPascal.Proofs.Grammar.Cursor
import MiniPascal.Proofs.Nesting.Stepwise

/-!
# The depth is balanced

Raising and lowering the depth do not come in pairs. A nested rule lowers what it raised after a
fault, too, but a chain of operators lowers the levels of all its links at once, and only where it
succeeds. `Routine.Stays` follows the depth along a routine, access by access: it never falls below
a base nor rises above the limit, no access takes away more than there is, and where a value is
yielded the depth is the one that is asked for.

A routine is `Routine.Balanced` if it stays so with the depth at which it begins as its base, and
yields at that depth. The ways to build a routine keep this. Inside a chain it does not hold;
`stays_links` is the invariant there, that every link that was read has left one more level open.
`depth_is_balanced` says what follows for the rules of the grammar.
-/

set_option autoImplicit false
set_option relaxedAutoImplicit false

namespace MiniPascal

/-- The access moves the depth neither below zero nor past the limit. -/
def Access.Within (limit depth : Nat) : Access → Prop
  | look | advance => True
  | raise => depth < limit
  | lower levels => levels ≤ depth

theorem Access.depth_advance (cursor : Cursor) :
    (Access.advance.perform cursor).2.depth = cursor.depth := by
  obtain ⟨current, upcoming, ending, depth⟩ := cursor
  cases upcoming with
  | cons next others => rfl
  | nil => cases ending <;> rfl

namespace Routine

variable {α β : Type} {limit base inner : Nat} {post : α → Nat → Prop} {post' : β → Nat → Prop}
  {cursor moment : Cursor}

/-- From the cursor on the depth stays between a base and the limit, and where the routine yields a
value, value and depth are as they should be. -/
def Stays (limit base : Nat) (post : α → Nat → Prop) (routine : Routine α) (cursor : Cursor) :
    Prop :=
  Script.Throughout Access.rule (fun cursor ↦ base ≤ cursor.depth ∧ cursor.depth ≤ limit)
    (fun access cursor ↦ access.Within limit cursor.depth)
    (fun outcome cursor ↦ ∀ value, outcome = .ok value → post value cursor.depth) routine cursor

namespace Stays

variable {first routine rest : Routine α} {second : α → Routine β}

theorem of_reaches (hstays : Stays limit base post routine cursor)
    (hreaches : routine.Reaches cursor rest moment) : Stays limit base post rest moment :=
  Script.Throughout.of_reaches hstays hreaches

theorem bounds (hstays : Stays limit base post routine cursor) :
    base ≤ cursor.depth ∧ cursor.depth ≤ limit := by
  rw [Stays] at hstays
  exact hstays.now

theorem step {access : Access} {next : access.Answer → Routine α} (hbase : base ≤ cursor.depth)
    (hlimit : cursor.depth ≤ limit) (hwithin : access.Within limit cursor.depth)
    (hnext : Stays limit base post (next (access.perform cursor).1) (access.perform cursor).2) :
    Stays limit base post (.step access next) cursor := by
  refine ⟨⟨hbase, hlimit⟩, hwithin, fun answer later hok ↦ ?_⟩
  obtain ⟨rfl, rfl⟩ := EStateM.Result.ok.inj hok
  exact hnext

theorem refuse (fault : ParseFault) (hbase : base ≤ cursor.depth) (hlimit : cursor.depth ≤ limit) :
    Stays limit base post (.done (.error fault)) cursor :=
  ⟨⟨hbase, hlimit⟩, fun _ hvalue ↦ nomatch hvalue⟩

theorem pure {value : α} (hbase : base ≤ cursor.depth) (hlimit : cursor.depth ≤ limit)
    (hpost : post value cursor.depth) : Stays limit base post (Pure.pure value) cursor := by
  refine ⟨⟨hbase, hlimit⟩, fun other hother ↦ ?_⟩
  obtain rfl := Except.ok.inj hother
  exact hpost

theorem mono {wider : α → Nat → Prop} (hle : base ≤ inner)
    (hstays : Stays limit inner post routine cursor)
    (hwider : ∀ value depth, post value depth → wider value depth) :
    Stays limit base wider routine cursor :=
  Script.Throughout.mono hstays (fun _ hbounds ↦ ⟨Nat.le_trans hle hbounds.1, hbounds.2⟩)
    fun _ later hpost value hvalue ↦ hwider value later.depth (hpost value hvalue)

/-- What follows an attempt may go below the base of the attempt. -/
theorem attempt {next : Except ParseFault α → Routine β} (hle : base ≤ inner)
    (hfirst : Stays limit inner post first cursor)
    (hnext : ∀ outcome later, inner ≤ later.depth → later.depth ≤ limit →
      (∀ value, outcome = .ok value → post value later.depth) →
        Stays limit base post' (next outcome) later) :
    Stays limit base post' (first.attempt next) cursor :=
  Script.Throughout.attempt hfirst (fun _ hbounds ↦ ⟨Nat.le_trans hle hbounds.1, hbounds.2⟩)
    fun outcome later hbounds hpost ↦ hnext outcome later hbounds.1 hbounds.2 hpost

theorem bind (hle : base ≤ inner) (hfirst : Stays limit inner post first cursor)
    (hsecond : ∀ value later, later.depth ≤ limit → post value later.depth →
      Stays limit base post' (second value) later) :
    Stays limit base post' (first >>= second) cursor := by
  refine hfirst.attempt hle fun outcome later hbase hlimit hpost ↦ ?_
  cases outcome with
  | ok value => exact hsecond value later hlimit (hpost value rfl)
  | error fault => exact refuse fault (Nat.le_trans hle hbase) hlimit

theorem descend (hbase : base ≤ cursor.depth) (hlimit : cursor.depth ≤ limit) :
    Stays limit base (fun _ depth ↦ depth = cursor.depth + 1) (descend limit) cursor := by
  refine step hbase hlimit trivial ?_
  change Stays limit base _
    (if limit ≤ cursor.depth then tooDeep limit else .step .raise fun _ ↦ Pure.pure ()) cursor
  split
  · exact step hbase hlimit trivial (refuse _ hbase hlimit)
  · next hroom =>
    have hless : cursor.depth < limit := Nat.not_le.1 hroom
    exact step hbase hlimit hless (pure (Nat.le_succ_of_le hbase) hless rfl)

theorem ascend {levels : Nat} (hbase : base + levels = cursor.depth)
    (hlimit : cursor.depth ≤ limit) :
    Stays limit base (fun _ depth ↦ depth = base) (ascend levels) cursor := by
  have hlower : cursor.depth - levels = base := by omega
  have hlevels : levels ≤ cursor.depth := by omega
  refine step (by omega) hlimit hlevels (pure ?_ ?_ hlower)
  · exact Nat.le_of_eq hlower.symm
  · exact Nat.le_trans (Nat.sub_le _ _) hlimit

end Stays

/-! ### Balanced routines -/

/-- The depth never falls below that at which the routine begins, and is the same again where it
yields a value. -/
def Balanced (limit : Nat) (routine : Routine α) : Prop :=
  ∀ cursor : Cursor, cursor.depth ≤ limit →
    Stays limit cursor.depth (fun _ depth ↦ depth = cursor.depth) routine cursor

namespace Balanced

variable {first rule : Routine α} {second : α → Routine β}

theorem pure (value : α) : Balanced limit (Pure.pure value) :=
  fun _ hlimit ↦ Stays.pure (Nat.le_refl _) hlimit rfl

theorem bind (hfirst : Balanced limit first) (hsecond : ∀ value, Balanced limit (second value)) :
    Balanced limit (first >>= second) := by
  intro cursor hlimit
  refine (hfirst cursor hlimit).bind (Nat.le_refl _) fun value later hlater hsame ↦ ?_
  rw [← hsame]
  exact hsecond value later hlater

theorem look {next : Cursor → Routine α} (hnext : ∀ seen, Balanced limit (next seen)) :
    Balanced limit (.step .look next) :=
  fun cursor hlimit ↦ Stays.step (Nat.le_refl _) hlimit trivial (hnext cursor cursor hlimit)

theorem refuse (fault : ParseFault) : Balanced limit (.done (.error fault) : Routine α) :=
  fun _ hlimit ↦ Stays.refuse fault (Nat.le_refl _) hlimit

theorem peek : Balanced limit peek := look fun _ ↦ pure _

theorem currentLine : Balanced limit currentLine := look fun _ ↦ pure _

theorem unexpected (expected : Expectation) :
    Balanced limit (unexpected expected : Routine α) :=
  look fun _ ↦ refuse _

theorem tooDeep : Balanced limit (tooDeep limit : Routine α) := look fun _ ↦ refuse _

theorem advance : Balanced limit advance := by
  intro cursor hlimit
  have hsame := Access.depth_advance cursor
  refine Stays.step (Nat.le_refl _) hlimit trivial ⟨⟨?_, ?_⟩, fun _ _ ↦ hsame⟩
  · exact Nat.le_of_eq hsame.symm
  · exact hsame.symm ▸ hlimit

theorem expect (kind : Token.Kind) : Balanced limit (expect kind) := by
  refine peek.bind fun token ↦ ?_
  split
  · exact advance
  · exact unexpected _

theorem identifier : Balanced limit identifier := by
  refine peek.bind fun token ↦ ?_
  split
  · exact advance.bind fun _ ↦ pure _
  · exact unexpected _

/-- A level is opened below the rule, and closed whatever comes of the rule. -/
theorem nested (hrule : Balanced limit rule) : Balanced limit (nested limit rule) := by
  intro cursor hlimit
  refine (Stays.descend (Nat.le_refl _) hlimit).bind (Nat.le_refl _) fun _ opened hopened hone ↦ ?_
  refine (hrule opened hopened).attempt (by omega) fun outcome later hbase hlater hsame ↦ ?_
  -- After a fault levels of the rule may still be open, but not fewer than the one opened for it.
  have hlower : 1 ≤ later.depth := by omega
  refine Stays.step (by omega) hlater hlower ⟨⟨?_, ?_⟩, fun value hvalue ↦ ?_⟩
  · change cursor.depth ≤ later.depth - 1
    omega
  · exact Nat.le_trans (Nat.sub_le _ _) hlater
  · have hclosed : later.depth = opened.depth := hsame value hvalue
    change later.depth - 1 = cursor.depth
    omega

theorem repeatOn {select : Token → Option β} {item : β → Routine α}
    (hitem : ∀ choice, Balanced limit (item choice)) : Balanced limit (repeatOn select item) := by
  have hloop (bound : List Lexeme) (found : List α) :
      Balanced limit (repeatAtMost select item bound found) := by
    induction bound generalizing found with
    | nil => exact pure _
    | cons lexeme bound induct =>
      refine peek.bind fun token ↦ ?_
      split
      · exact pure _
      · exact (hitem _).bind fun value ↦ induct (value :: found)
  exact look fun _ ↦ hloop _ _

theorem separated {separator : Token.Kind} {item : Routine α} (hitem : Balanced limit item) :
    Balanced limit (separated separator item) :=
  hitem.bind fun _ ↦ (repeatOn fun _ ↦ advance.bind fun _ ↦ hitem).bind fun _ ↦ pure _

end Balanced

/-! ### Chains -/

variable {operand : Routine Expression} {select : Token → Option Operator}

/-- A link leaves one level more open than there was. -/
theorem stays_link (hoperand : Balanced limit operand) (operator : Operator)
    (hbase : base ≤ cursor.depth) (hlimit : cursor.depth ≤ limit) :
    Stays limit base (fun _ depth ↦ depth = cursor.depth + 1) (link limit operand operator)
      cursor := by
  refine (Stays.descend hbase hlimit).bind (Nat.le_refl _) fun _ opened hopened hone ↦ ?_
  have hlink : Balanced limit (do
      let line := (← advance).position.line
      return (⟨operator, line, ← operand⟩ : Rule.Link)) :=
    Balanced.advance.bind fun _ ↦ hoperand.bind fun _ ↦ Balanced.pure _
  refine (hlink opened hopened).mono (by omega) fun _ depth hsame ↦ ?_
  rw [hsame, hone]

/-- As many levels are open above the base as links were read, those already found included. -/
theorem stays_links (hoperand : Balanced limit operand) (bound : List Lexeme)
    (found : List Rule.Link) (hbase : base + found.length = cursor.depth)
    (hlimit : cursor.depth ≤ limit) :
    Stays limit base (fun links depth ↦ depth = base + links.length)
      (repeatAtMost select (link limit operand) bound found) cursor := by
  induction bound generalizing found cursor with
  | nil =>
    refine Stays.pure (by omega) hlimit ?_
    rw [List.length_reverse, hbase]
  | cons lexeme bound induct =>
    refine (Balanced.peek cursor hlimit).bind (by omega) fun token later hlater hsame ↦ ?_
    split
    · refine Stays.pure (by omega) hlater ?_
      rw [List.length_reverse, hsame, hbase]
    · refine (stays_link hoperand _ (by omega) hlater).bind (Nat.le_refl _) ?_
      intro first last hlast hone
      refine induct (first :: found) ?_ hlast
      rw [List.length_cons]
      omega

/-- A chain closes the levels of its links where all of them were read. -/
theorem Balanced.chain (hoperand : Balanced limit operand) :
    Balanced limit (chain limit select operand) := by
  refine hoperand.bind fun first cursor hlimit ↦ ?_
  have hlinks : Stays limit cursor.depth (fun links depth ↦ depth = cursor.depth + links.length)
      (Routine.repeatOn select (link limit operand)) cursor :=
    Stays.step (Nat.le_refl _) hlimit trivial (stays_links hoperand _ [] rfl hlimit)
  refine hlinks.bind (Nat.le_refl _) fun links later hlater hraised ↦ ?_
  refine (Stays.ascend hraised.symm hlater).bind (Nat.le_refl _) fun _ last hlast hsame ↦ ?_
  exact Stays.pure (Nat.le_of_eq hsame.symm) hlast hsame

/-! ### The rules of the grammar -/

variable {levels : Nat}

theorem balanced_mention : Balanced limit mention :=
  Balanced.identifier.bind fun _ ↦ .pure _

theorem balanced_expressionOf {factor : Routine Expression} (hfactor : Balanced limit factor) :
    Balanced limit (expressionOf limit factor) :=
  hfactor.chain.chain

theorem balanced_factor : Balanced limit (factor limit levels) := by
  induction levels with
  | zero => exact .tooDeep
  | succ levels induct =>
    refine Balanced.nested (Balanced.currentLine.bind fun line ↦ Balanced.peek.bind fun token ↦ ?_)
    split
    · exact Balanced.advance.bind fun _ ↦ induct.bind fun _ ↦ .pure _
    · exact Balanced.advance.bind fun _ ↦ induct.bind fun _ ↦ .pure _
    · exact Balanced.advance.bind fun _ ↦ .pure _
    · exact Balanced.advance.bind fun _ ↦ .pure _
    · exact Balanced.advance.bind fun _ ↦ (balanced_expressionOf induct).bind fun _ ↦
        (Balanced.expect _).bind fun _ ↦ .pure _
    · exact balanced_mention.bind fun _ ↦ .pure _
    all_goals exact .unexpected _

theorem balanced_assignment : Balanced limit (assignment limit levels) :=
  balanced_mention.bind fun _ ↦ (Balanced.expect _).bind fun _ ↦
    (balanced_expressionOf balanced_factor).bind fun _ ↦ .pure _

theorem balanced_statementOf {compound : Routine (List Statement)}
    (hcompound : Balanced limit compound) :
    Balanced limit (statementOf limit levels compound) := by
  refine Balanced.peek.bind fun token ↦ ?_
  split
  · exact hcompound.bind fun _ ↦ .pure _
  · exact balanced_assignment
  · exact .pure _

theorem balanced_compound : Balanced limit (compound limit levels) := by
  induction levels with
  | zero => exact .tooDeep
  | succ levels induct =>
    refine Balanced.nested ((Balanced.expect _).bind fun _ ↦ ?_)
    refine (balanced_statementOf induct).separated.bind fun _ ↦ Balanced.peek.bind fun token ↦ ?_
    split
    · exact (Balanced.unexpected _).bind fun _ ↦ (Balanced.expect _).bind fun _ ↦ .pure _
    · exact (Balanced.expect _).bind fun _ ↦ .pure _

theorem balanced_scalarType : Balanced limit scalarType := by
  refine Balanced.currentLine.bind fun line ↦ Balanced.peek.bind fun token ↦ ?_
  split
  · exact Balanced.advance.bind fun _ ↦ .pure _
  · exact Balanced.advance.bind fun _ ↦ .pure _
  · exact .unexpected _

theorem balanced_group : Balanced limit group :=
  balanced_mention.separated.bind fun _ ↦ (Balanced.expect _).bind fun _ ↦
    balanced_scalarType.bind fun _ ↦ .pure _

theorem balanced_closedGroup : Balanced limit closedGroup :=
  balanced_group.bind fun _ ↦ (Balanced.expect _).bind fun _ ↦ .pure _

theorem balanced_variableSection : Balanced limit variableSection :=
  Balanced.advance.bind fun _ ↦ balanced_closedGroup.bind fun _ ↦
    (Balanced.repeatOn fun _ ↦ balanced_closedGroup).bind fun _ ↦ .pure _

theorem balanced_variableSections : Balanced limit variableSections :=
  (Balanced.repeatOn fun _ ↦ balanced_variableSection).bind fun _ ↦ .pure _

theorem balanced_parameters : Balanced limit parameters := by
  refine Balanced.peek.bind fun token ↦ ?_
  split
  · exact Balanced.advance.bind fun _ ↦ balanced_group.separated.bind fun _ ↦
      (Balanced.expect _).bind fun _ ↦ .pure _
  · exact .pure _

theorem balanced_blockOf {procedure : Routine Declaration} (hprocedure : Balanced limit procedure) :
    Balanced limit (blockOf limit levels procedure) :=
  balanced_variableSections.bind fun _ ↦ (Balanced.repeatOn fun _ ↦ hprocedure).bind fun _ ↦
    balanced_compound.bind fun _ ↦ .pure _

theorem balanced_procedure : Balanced limit (procedure limit levels) := by
  induction levels with
  | zero => exact .tooDeep
  | succ levels induct =>
    refine Balanced.nested ((Balanced.expect _).bind fun _ ↦ balanced_mention.bind fun _ ↦ ?_)
    refine balanced_parameters.bind fun _ ↦ (Balanced.expect _).bind fun _ ↦ ?_
    exact (balanced_blockOf induct).bind fun _ ↦ (Balanced.expect _).bind fun _ ↦ .pure _

theorem balanced_program : Balanced limit (program limit) := by
  refine (Balanced.expect _).bind fun _ ↦ balanced_mention.bind fun _ ↦ ?_
  refine (Balanced.expect _).bind fun _ ↦ (balanced_blockOf balanced_procedure).bind fun _ ↦ ?_
  exact (Balanced.expect _).bind fun _ ↦ (Balanced.expect _).bind fun _ ↦ .pure _

end Routine

open Routine in
theorem Part.balanced {α : Type} (part : Part α) (limit levels : Nat) :
    Balanced limit (part.routine limit levels) := by
  cases part with
  | program => exact balanced_program
  | block => exact balanced_blockOf balanced_procedure
  | declarations =>
    exact balanced_variableSections.bind fun _ ↦
      (Balanced.repeatOn fun _ ↦ balanced_procedure).bind fun _ ↦ .pure _
  | variableSections => exact balanced_variableSections
  | variableSection => exact balanced_variableSection
  | closedGroup => exact balanced_closedGroup
  | group => exact balanced_group
  | names => exact balanced_mention.separated
  | typeName => exact balanced_scalarType
  | procedure => exact balanced_procedure
  | parameters => exact balanced_parameters
  | groups => exact balanced_group.separated
  | compound => exact balanced_compound
  | statement => exact balanced_statementOf balanced_compound
  | assignment => exact balanced_assignment
  | mention => exact balanced_mention
  | expression => exact balanced_expressionOf balanced_factor
  | term => exact balanced_factor.chain
  | factor => exact balanced_factor

/-! ### Reachable cursors -/

/-- The cursors at which reading a text can stand: the first one, and all by which a rule comes, or
at which it ends, that starts from one of them. -/
inductive Cursor.Reachable (limit : Nat) (text : String) : Cursor → Prop
  | first {cursor : Cursor} :
      Cursor.ofFeed (Feed.ofText text) = .ok cursor → Reachable limit text cursor
  | further {α : Type} {part : Part α} {levels : Nat} {rest : Routine α} {cursor moment : Cursor} :
      Reachable limit text cursor → (part.routine limit levels).Reaches cursor rest moment →
        Reachable limit text moment

namespace Cursor.Reachable

variable {limit : Nat} {text : String} {cursor later : Cursor}

theorem depth_le (hreachable : cursor.Reachable limit text) : cursor.depth ≤ limit := by
  induction hreachable with
  | @first cursor hcursor =>
    rcases Cursor.ofFeed_cases text with ⟨other, hother, -, hdepth, -⟩ | ⟨fault, hfault, -⟩
    · obtain rfl := Except.ok.inj (hcursor.symm.trans hother)
      exact hdepth ▸ Nat.zero_le limit
    · cases hcursor.symm.trans hfault
  | @further α part levels rest cursor moment hbefore hreaches induct =>
    exact ((part.balanced limit levels cursor induct).of_reaches hreaches).bounds.2

theorem of_error {α : Type} {part : Part α} {levels : Nat} {fault : ParseFault}
    (hreachable : cursor.Reachable limit text)
    (herror : part.rule limit levels cursor = .error fault later) :
    later.Reachable limit text := by
  rw [← part.perform_routine] at herror
  exact hreachable.further (Routine.reaches_of_error herror)

end Cursor.Reachable

/-- Where a rule fails. -/
def Rule.failure? {α : Type} (rule : Rule α) (cursor : Cursor) : Option Cursor :=
  match rule cursor with
  | .ok _ _ => none
  | .error _ later => some later

theorem Rule.error_of_failure? {α : Type} {rule : Rule α} {cursor later : Cursor}
    (hfailure : rule.failure? cursor = some later) : ∃ fault, rule cursor = .error fault later := by
  rw [failure?] at hfailure
  split at hfailure
  · cases hfailure
  · next fault last hrule =>
    obtain rfl := Option.some.inj hfailure
    exact ⟨fault, hrule⟩

/-- A rule that starts at a reachable cursor leaves the depth as it found it if it succeeds, and at
least as large if it fails. On the way the depth is never smaller and never beyond the limit, so a
counter of 64 bits neither overflows where it is raised nor falls below zero where it is lowered. -/
theorem depth_is_balanced {limit : Nat} (hlimit : limit < UInt64.size) {text : String}
    {cursor : Cursor} (hreachable : cursor.Reachable limit text) {α : Type} (part : Part α)
    (levels : Nat) :
    (∀ value later, part.rule limit levels cursor = .ok value later →
      later.depth = cursor.depth) ∧
    (∀ fault later, part.rule limit levels cursor = .error fault later →
      cursor.depth ≤ later.depth) ∧
    (part.routine limit levels).perform = part.rule limit levels ∧
    ∀ rest moment, (part.routine limit levels).Reaches cursor rest moment →
      (cursor.depth ≤ moment.depth ∧ moment.depth ≤ limit) ∧
      (∀ next, rest = .step .raise next → moment.depth + 1 < UInt64.size) ∧
      ∀ count next, rest = .step (.lower count) next → count ≤ moment.depth := by
  have hperform := part.perform_routine limit levels
  have hstays := part.balanced limit levels cursor hreachable.depth_le
  refine ⟨fun value later hok ↦ ?_, fun fault later herror ↦ ?_, hperform,
    fun rest moment hreaches ↦ ?_⟩
  · rw [← hperform] at hok
    exact (hstays.of_reaches (Routine.reaches_of_ok hok)).2 value rfl
  · rw [← hperform] at herror
    exact (hstays.of_reaches (Routine.reaches_of_error herror)).bounds.1
  · have hmoment := hstays.of_reaches hreaches
    refine ⟨hmoment.bounds, fun next hrest ↦ ?_, fun count next hrest ↦ ?_⟩
    · subst hrest
      have hroom : moment.depth < limit := hmoment.2.1
      omega
    · subst hrest
      exact hmoment.2.1

/-- A sum that breaks off leaves two levels open, and a compound statement that starts there and
breaks off in a sum of its own leaves a third. -/
theorem depth_is_balanced_unfinished :
    ∃ cursor fault later, cursor.Reachable 5 "1 + 2 + begin x := 3 + end" ∧ cursor.depth = 2 ∧
      Part.compound.rule 5 5 cursor = .error fault later ∧ later.depth = 3 ∧
      cursor.depth ≤ later.depth ∧
      ∀ rest moment, (Part.compound.routine 5 5).Reaches cursor rest moment →
        (cursor.depth ≤ moment.depth ∧ moment.depth ≤ 5) ∧
        (∀ next, rest = .step .raise next → moment.depth + 1 < UInt64.size) ∧
        ∀ count next, rest = .step (.lower count) next → count ≤ moment.depth := by
  obtain ⟨first, hfirst, hbroken⟩ : ∃ first,
      Cursor.ofFeed (Feed.ofText "1 + 2 + begin x := 3 + end") = .ok first ∧
        ((Part.expression.rule 5 5).failure? first).any (fun cursor ↦
          cursor.depth == 2 && ((Part.compound.rule 5 5).failure? cursor).any
            (·.depth == 3)) = true := exists_of_any (by decide +kernel)
  obtain ⟨cursor, hcursor, htwo⟩ := (Option.any_eq_true _ _).1 hbroken
  obtain ⟨hdepth, hcompound⟩ := (Bool.and_eq_true_iff).1 htwo
  obtain ⟨later, hlater, hthree⟩ := (Option.any_eq_true _ _).1 hcompound
  obtain ⟨fault, herror⟩ := Rule.error_of_failure? hlater
  obtain ⟨_, hsum⟩ := Rule.error_of_failure? hcursor
  have hreachable : cursor.Reachable 5 "1 + 2 + begin x := 3 + end" :=
    (Cursor.Reachable.first hfirst).of_error hsum
  obtain ⟨-, hfails, -, hway⟩ :=
    depth_is_balanced (by decide) hreachable Part.compound 5
  exact ⟨cursor, fault, later, hreachable, beq_iff_eq.1 hdepth, herror, beq_iff_eq.1 hthree,
    hfails fault later herror, hway⟩

end MiniPascal
