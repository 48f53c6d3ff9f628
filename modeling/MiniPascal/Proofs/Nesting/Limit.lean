import MiniPascal.Proofs.Grammar.Parsing
import Mathlib.Data.Nat.Find
import Mathlib.Logic.ExistsUnique

/-!
# The limit of nesting

A limit refuses programs and does nothing else. `Relaxes` compares a rule at one limit with the same
rule at a wider one: unless the first runs into its limit, both do the same at every cursor, whether
they succeed or fail. The ways to build a rule keep this, so it holds of the rule for programs.

`parse_threshold` puts together what follows for a text: from some limit on the answer of `parse` is
always the same, and below it the limit is what `parse` reports.
-/

set_option autoImplicit false
set_option relaxedAutoImplicit false

namespace MiniPascal

variable {α β : Type} {limit wider : Nat}

/-- The strict rule runs into its limit, or the lax one does just what it does. -/
def Relaxes (limit : Nat) (strict lax : Rule α) : Prop :=
  ∀ cursor : Cursor, (∃ line later, strict cursor = .error (.tooDeep limit line) later) ∨
    lax cursor = strict cursor

namespace Relaxes

variable {strict lax : Rule α}

theorem refl (rule : Rule α) : Relaxes limit rule rule := fun _ ↦ .inr rfl

theorem tooDeep (lax : Rule α) : Relaxes limit (Rule.tooDeep limit) lax :=
  fun cursor ↦ .inl ⟨cursor.current.position.line, cursor, rfl⟩

theorem bind {next next' : α → Rule β} (hfirst : Relaxes limit strict lax)
    (hnext : ∀ v, Relaxes limit (next v) (next' v)) :
    Relaxes limit (strict >>= next) (lax >>= next') := by
  intro cursor
  rcases hfirst cursor with ⟨line, later, hdeep⟩ | hsame
  · exact .inl ⟨line, later, bind_of_error hdeep⟩
  · cases hstrict : strict cursor with
    | ok v later =>
      rw [bind_of_ok hstrict, bind_of_ok (hsame.trans hstrict)]
      exact hnext v later
    | error fault later =>
      rw [bind_of_error hstrict, bind_of_error (hsame.trans hstrict)]
      exact .inr rfl

/-- A rule that meets no limit, in front of another. -/
theorem after (first : Rule α) {next next' : α → Rule β}
    (hnext : ∀ v, Relaxes limit (next v) (next' v)) :
    Relaxes limit (first >>= next) (first >>= next') :=
  (refl first).bind hnext

/-- A rule that meets no limit, behind another. -/
theorem followed (hfirst : Relaxes limit strict lax) (next : α → Rule β) :
    Relaxes limit (strict >>= next) (lax >>= next) :=
  hfirst.bind fun v ↦ refl (next v)

/-! ### Levels -/

theorem descend (hle : limit ≤ wider) :
    Relaxes limit (Rule.descend limit) (Rule.descend wider) := by
  intro cursor
  by_cases hdepth : cursor.depth < limit
  · rw [Rule.descend_of_lt hdepth, Rule.descend_of_lt (Nat.lt_of_lt_of_le hdepth hle)]
    exact .inr rfl
  · exact .inl ⟨_, _, Rule.descend_of_le (Nat.not_lt.1 hdepth)⟩

theorem nested (hle : limit ≤ wider) (hrule : Relaxes limit strict lax) :
    Relaxes limit (Rule.nested limit strict) (Rule.nested wider lax) := by
  refine (descend hle).bind fun _ cursor ↦ ?_
  rcases hrule cursor with ⟨line, later, hdeep⟩ | hsame
  · refine .inl ⟨line, { later with depth := later.depth - 1 }, ?_⟩
    simp only [hdeep]
  · right
    simp only [hsame]

/-! ### Repetition -/

theorem repeatOn (select : Token → Option β) {item item' : β → Rule α}
    (hitem : ∀ choice, Relaxes limit (item choice) (item' choice)) :
    Relaxes limit (Rule.repeatOn select item) (Rule.repeatOn select item') := by
  have hloop (bound : List Lexeme) (done : List α) : Relaxes limit
      (Rule.repeatAtMost select item bound done) (Rule.repeatAtMost select item' bound done) := by
    induction bound generalizing done with
    | nil => exact refl _
    | cons lexeme bound induct =>
      rw [Rule.repeatAtMost, Rule.repeatAtMost]
      refine after _ fun token ↦ ?_
      cases select token with
      | none => exact refl _
      | some choice => exact (hitem choice).bind fun v ↦ induct (v :: done)
  exact fun cursor ↦ hloop (cursor.current :: cursor.upcoming) [] cursor

theorem separated (separator : Token.Kind) (hitem : Relaxes limit strict lax) :
    Relaxes limit (Rule.separated separator strict) (Rule.separated separator lax) :=
  hitem.bind fun _ ↦ (repeatOn _ fun _ ↦ after _ fun _ ↦ hitem).followed _

theorem chain (hle : limit ≤ wider) (select : Token → Option Operator)
    {operand operand' : Rule Expression} (hoperand : Relaxes limit operand operand') :
    Relaxes limit (Rule.chain limit select operand) (Rule.chain wider select operand') := by
  refine hoperand.bind fun first ↦ (repeatOn select fun operator ↦ ?_).followed _
  exact (descend hle).bind fun _ ↦ after _ fun lexeme ↦ hoperand.followed _

/-- Rules that call themselves with one level less, and give up where no level is left. -/
theorem ofLevels (strict lax : Nat → Rule α) {levels more : Nat} (hlevels : levels ≤ more)
    (hzero : strict 0 = Rule.tooDeep limit)
    (hsucc : ∀ levels more, levels ≤ more → Relaxes limit (strict levels) (lax more) →
      Relaxes limit (strict (levels + 1)) (lax (more + 1))) :
    Relaxes limit (strict levels) (lax more) := by
  induction levels generalizing more with
  | zero =>
    rw [hzero]
    exact .tooDeep _
  | succ levels induct =>
    obtain ⟨more, rfl⟩ := Nat.exists_eq_add_of_le' (Nat.zero_lt_of_lt hlevels)
    have hless := Nat.le_of_succ_le_succ hlevels
    exact hsucc levels more hless (induct hless)

end Relaxes

/-! ### The rules of the grammar -/

namespace Rule

variable {levels more : Nat}

theorem relaxes_expressionOf (hle : limit ≤ wider) {factor factor' : Rule Expression}
    (hfactor : Relaxes limit factor factor') :
    Relaxes limit (expressionOf limit factor) (expressionOf wider factor') :=
  (hfactor.chain hle multiplicative).chain hle additive

theorem relaxes_factor (hle : limit ≤ wider) (hlevels : levels ≤ more) :
    Relaxes limit (factor limit levels) (factor wider more) := by
  refine Relaxes.ofLevels (factor limit) (factor wider) hlevels rfl
    fun levels more _ hfactor ↦ ?_
  refine Relaxes.nested hle (.after _ fun line ↦ .after _ fun token ↦ ?_)
  split
  · exact .after _ fun _ ↦ hfactor.followed _
  · exact .after _ fun _ ↦ hfactor.followed _
  · exact .refl _
  · exact .refl _
  · exact .after _ fun _ ↦ (relaxes_expressionOf hle hfactor).followed _
  all_goals exact .refl _

theorem relaxes_compound (hle : limit ≤ wider) (hlevels : levels ≤ more) :
    Relaxes limit (compound limit levels) (compound wider more) := by
  refine Relaxes.ofLevels (compound limit) (compound wider) hlevels rfl
    fun levels more hless hcompound ↦ ?_
  have hstatement : Relaxes limit (statementOf limit levels (compound limit levels))
      (statementOf wider more (compound wider more)) := by
    refine .after _ fun token ↦ ?_
    split
    · exact hcompound.followed _
    · refine .after _ fun target ↦ .after _ fun lexeme ↦ ?_
      exact (relaxes_expressionOf hle (relaxes_factor hle hless)).followed _
    · exact .refl _
  refine Relaxes.nested hle (.after _ fun _ ↦ ?_)
  exact (hstatement.separated _).followed _

theorem relaxes_procedure (hle : limit ≤ wider) (hlevels : levels ≤ more) :
    Relaxes limit (procedure limit levels) (procedure wider more) := by
  refine Relaxes.ofLevels (procedure limit) (procedure wider) hlevels rfl
    fun levels more hless hprocedure ↦ ?_
  refine Relaxes.nested hle (.after _ fun lexeme ↦ .after _ fun found ↦ .after _ fun declared ↦
    .after _ fun _ ↦ Relaxes.followed (.after _ fun vars ↦ ?_) _)
  refine (Relaxes.repeatOn _ fun _ ↦ hprocedure).bind fun procedures ↦ ?_
  exact (relaxes_compound hle hless).followed _

theorem relaxes_block (hle : limit ≤ wider) :
    Relaxes limit (block limit limit) (block wider wider) :=
  .after _ fun _ ↦ (Relaxes.repeatOn _ fun _ ↦ relaxes_procedure hle hle).bind fun _ ↦
    (relaxes_compound hle hle).followed _

theorem relaxes_program (hle : limit ≤ wider) : Relaxes limit (program limit) (program wider) :=
  .after _ fun _ ↦ .after _ fun _ ↦ .after _ fun _ ↦ (relaxes_block hle).followed _

end Rule

/-! ### Answers -/

variable {text : String}

/-- The limit of nesting is what `parse` reports. -/
def MeetsLimit (limit : Nat) (text : String) : Prop :=
  ∃ line, parse limit text = .error (.tooDeep limit line)

/-- No other limit than the one that is given is reported. -/
theorem meetsLimit_of_tooDeep {other line : Nat}
    (hparse : parse limit text = .error (.tooDeep other line)) : MeetsLimit limit text := by
  rcases Cursor.ofFeed_cases text with ⟨cursor, hcursor, hsound, -⟩ | ⟨fault, hfault, -⟩
  · rw [parse_of_ofFeed hcursor] at hparse
    cases @Rule.reads_program limit cursor hsound with
    | read result | refused result | broken result =>
      rw [result] at hparse
      cases hparse
    | @tooDeep line' later x result =>
      refine ⟨line', ?_⟩
      rw [parse_of_ofFeed hcursor, result]
  · rw [parse, hfault] at hparse
    cases hparse

theorem parse_eq_of_not_meetsLimit (hle : limit ≤ wider) (hfits : ¬ MeetsLimit limit text) :
    parse wider text = parse limit text := by
  rcases Cursor.ofFeed_cases text with ⟨cursor, hcursor, -⟩ | ⟨fault, hfault, -⟩
  · rcases Rule.relaxes_program hle cursor with ⟨line, later, hdeep⟩ | hsame
    · refine absurd ⟨line, ?_⟩ hfits
      rw [parse_of_ofFeed hcursor, hdeep]
    · rw [parse_of_ofFeed hcursor, parse_of_ofFeed hcursor, hsame]
  · rw [parse, parse, hfault]

theorem not_meetsLimit_of_length_lt (hlimit : text.length < limit) : ¬ MeetsLimit limit text := by
  rintro ⟨line, hparse⟩
  cases parsed hlimit with
  | found result | broken result | refused result =>
    rw [result] at hparse
    cases hparse

/-- The least limit that a text does not meet. -/
theorem exists_threshold (text : String) :
    ∃ threshold, ¬ MeetsLimit threshold text ∧ ∀ limit < threshold, MeetsLimit limit text := by
  classical
  have hexists : ∃ limit, ¬ MeetsLimit limit text :=
    ⟨text.length + 1, not_meetsLimit_of_length_lt (Nat.lt_succ_self _)⟩
  refine ⟨Nat.find hexists, Nat.find_spec hexists, fun limit hless ↦ ?_⟩
  exact Classical.not_not.1 (Nat.find_min hexists hless)

/-- A wider limit answers as a narrower one that is not met, and a limit above the number of
characters is never met. So there is one threshold for each text: from there on the answer is the
one without a limit, and below it the limit that was given is reported. -/
theorem parse_threshold (text : String) :
    (∀ limit wider, limit ≤ wider →
      (∀ reported line, parse limit text ≠ .error (.tooDeep reported line)) →
        parse wider text = parse limit text) ∧
    (∀ limit, text.length < limit →
      ∀ reported line, parse limit text ≠ .error (.tooDeep reported line)) ∧
    ∃! threshold,
      (∀ limit, threshold ≤ limit → parse limit text = parse (text.length + 1) text) ∧
        ∀ limit, limit < threshold → ∃ line, parse limit text = .error (.tooDeep limit line) := by
  have hlong : ¬ MeetsLimit (text.length + 1) text :=
    not_meetsLimit_of_length_lt (Nat.lt_succ_self _)
  refine ⟨?_, ?_, ?_⟩
  · intro limit wider hle hother
    refine parse_eq_of_not_meetsLimit hle ?_
    rintro ⟨line, hparse⟩
    exact hother limit line hparse
  · intro limit hlimit reported line hparse
    exact not_meetsLimit_of_length_lt hlimit (meetsLimit_of_tooDeep hparse)
  · obtain ⟨threshold, hfits, hbelow⟩ := exists_threshold text
    have hshort : threshold ≤ text.length + 1 :=
      Nat.le_of_not_lt fun hless ↦ hlong (hbelow _ hless)
    have hunlimited : parse (text.length + 1) text = parse threshold text :=
      parse_eq_of_not_meetsLimit hshort hfits
    refine ⟨threshold, ⟨fun limit hle ↦ ?_, hbelow⟩, ?_⟩
    · rw [hunlimited]
      exact parse_eq_of_not_meetsLimit hle hfits
    · rintro other ⟨hfrom, hunder⟩
      rcases Nat.lt_trichotomy other threshold with hless | rfl | hmore
      · obtain ⟨line, hdeep⟩ := hbelow other hless
        rw [hfrom other (Nat.le_refl _)] at hdeep
        exact absurd (meetsLimit_of_tooDeep hdeep) hlong
      · rfl
      · exact absurd (hunder threshold hmore) hfits

end MiniPascal
