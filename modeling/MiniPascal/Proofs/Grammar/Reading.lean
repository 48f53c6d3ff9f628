import MiniPascal.Proofs.Action
import MiniPascal.Proofs.Grammar.Cursor
import MiniPascal.Proofs.Grammar.Wording

/-!
# What a rule does with what lies ahead

`Rule.Reads` is the whole contract between a rule and a wording, at one cursor. A rule that succeeds
has consumed lexemes that write its value, and no other beginning of the text would do: behind a
wording stands no lexeme that could prolong it (`Stops`). A rule that refuses a lexeme has consumed
a beginning of some wording, and no wording goes on with that lexeme, neither inside nor behind. A
lexical fault surfaces only where all lexemes ahead begin some wording, and a rule that runs out of
levels has consumed as many lexemes as it had levels left. Both a success and a refusal depend on
nothing behind the current lexeme of the cursor they end at.

Each way to build a rule keeps the contract: `Reads.bind`, `Reads.nested`, `Reads.repeatOn` and
their like. The rules of the grammar are put together from these alone.
-/

set_option autoImplicit false
set_option relaxedAutoImplicit false

namespace MiniPascal

/-- The lexemes do not begin with one that prolongs what stands before them. -/
def Stops (more : Token → Prop) (lexemes : List Lexeme) : Prop :=
  ∀ lexeme ∈ lexemes.head?, ¬ more lexeme.token

theorem Token.eq_eof_of_kind {token : Token} (hkind : token.kind = .eof) : token = .eof := by
  cases token <;> simp_all [Token.kind]

theorem Token.ne_eof_of_kind {token : Token} {kind : Token.Kind} (hkind : token.kind = kind)
    (hne : kind ≠ .eof) : token ≠ .eof := by
  rintro rfl
  exact hne hkind.symm

theorem Token.eq_mark_of_kind {token : Token} {sign : Mark} (hkind : token.kind = .mark sign) :
    token = .mark sign := by
  cases token <;> simp_all [Token.kind]

theorem Token.eq_keyword_of_kind {token : Token} {word : Keyword}
    (hkind : token.kind = .keyword word) : token = .keyword word := by
  cases token <;> simp_all [Token.kind]

namespace Wording

variable {α β : Type}

/-- Some wording begins with the lexemes. -/
def Begins (wording : Wording α) (x : List Lexeme) : Prop := ∃ y v, wording y v ∧ x <+: y

/-- Where the lexemes and then `next` lie ahead, they write the value and nothing else is
written. -/
def Only (wording : Wording α) (more : Token → Prop) (x : List Lexeme) (next : Lexeme) (v : α) :
    Prop :=
  ∀ y w z, wording y w → Stops more z → x ++ [next] <+: y ++ z → y = x ∧ w = v

/-- Where the lexemes and then `next` lie ahead, nothing is written. -/
def Never (wording : Wording α) (more : Token → Prop) (x : List Lexeme) (next : Lexeme) : Prop :=
  ∀ y w z, wording y w → Stops more z → ¬ x ++ [next] <+: y ++ z

/-- One wording and then another, which may depend on the value of the first. -/
def Then (first : Wording α) (second : α → Wording β) : Wording β :=
  fun z w ↦ ∃ x v y, first x v ∧ second v y w ∧ z = x ++ y

/-- No lexemes at all. -/
def Done (value : α) : Wording α := fun x v ↦ x = [] ∧ v = value

/-- One lexeme. -/
def Single (allowed : Lexeme → Prop) : Wording Lexeme := fun x l ↦ x = [l] ∧ allowed l

/-- One lexeme of a kind behind what has the value already. -/
def Closing (kind : Token.Kind) (value : α) : Wording α :=
  fun x v ↦ v = value ∧ ∃ lexeme : Lexeme, lexeme.token.kind = kind ∧ x = [lexeme]

/-- The wording, with what is made of its value. -/
def Map (f : α → β) (wording : Wording α) : Wording β := fun x w ↦ ∃ v, wording x v ∧ w = f v

theorem map_begins (f : α → β) {wording : Wording α} {x : List Lexeme}
    (hbegins : wording.Begins x) :
    (wording.Map f).Begins x := by
  obtain ⟨y, v, hwritten, hstarts⟩ := hbegins
  exact ⟨y, f v, ⟨v, hwritten, rfl⟩, hstarts⟩

theorem then_begins {first : Wording α} {second : α → Wording β} {x : List Lexeme}
    (hfirst : first.Begins x) (hsecond : ∀ y v, first y v → (second v).Begins []) :
    (first.Then second).Begins x := by
  obtain ⟨y, v, hwritten, hstarts⟩ := hfirst
  obtain ⟨z, w, hwritten', -⟩ := hsecond y v hwritten
  exact ⟨y ++ z, w, ⟨y, v, z, hwritten, hwritten', rfl⟩, hstarts.trans (List.prefix_append _ _)⟩

theorem then_begins_behind {first : Wording α} {second : α → Wording β} {x y : List Lexeme} {v : α}
    (hfirst : first x v) (hsecond : (second v).Begins y) : (first.Then second).Begins (x ++ y) := by
  obtain ⟨z, w, hwritten, hstarts⟩ := hsecond
  exact ⟨x ++ z, w, ⟨x, v, z, hfirst, hwritten, rfl⟩, (List.prefix_append_right_inj x).2 hstarts⟩

/-- Some lexeme has the kind. -/
theorem exists_kind (kind : Token.Kind) : ∃ lexeme : Lexeme, lexeme.token.kind = kind := by
  cases kind with
  | keyword word => exact ⟨⟨.keyword word, Position.start⟩, rfl⟩
  | mark sign => exact ⟨⟨.mark sign, Position.start⟩, rfl⟩
  | identifier => exact ⟨⟨.identifier "", Position.start⟩, rfl⟩
  | integer => exact ⟨⟨.integer 0, Position.start⟩, rfl⟩
  | real => exact ⟨⟨.real 0, Position.start⟩, rfl⟩
  | eof => exact ⟨⟨.eof, Position.start⟩, rfl⟩

theorem single_begins (kind : Token.Kind) : (Single (·.token.kind = kind)).Begins [] := by
  obtain ⟨lexeme, hlexeme⟩ := exists_kind kind
  exact ⟨[lexeme], lexeme, ⟨rfl, hlexeme⟩, List.nil_prefix⟩

theorem name_begins : Name.Begins [] := ⟨_, _, .mk "" Position.start, List.nil_prefix⟩

theorem closing_begins (kind : Token.Kind) (value : α) : (Closing kind value).Begins [] := by
  obtain ⟨lexeme, hlexeme⟩ := exists_kind kind
  exact ⟨[lexeme], value, ⟨rfl, lexeme, hlexeme, rfl⟩, List.nil_prefix⟩

end Wording

/-- Nothing prolongs what stands before. -/
def nothing (_ : Token) : Prop := False

theorem stops_nothing (lexemes : List Lexeme) : Stops nothing lexemes := fun _ _ h ↦ h

theorem Stops.mono {more fewer : Token → Prop} {lexemes : List Lexeme} (hstops : Stops more lexemes)
    (hfewer : ∀ token, fewer token → more token) : Stops fewer lexemes :=
  fun lexeme hmem hmore ↦ hstops lexeme hmem (hfewer _ hmore)

@[simp] theorem stops_cons (more : Token → Prop) (lexeme : Lexeme) (others : List Lexeme) :
    Stops more (lexeme :: others) ↔ ¬ more lexeme.token := by simp [Stops]

/-- A wording that is the only one is also the first of any two, and what lies ahead behind it
starts the second. -/
theorem Wording.Only.first {α : Type} {wording : Wording α} {more : Token → Prop} {v v' : α}
    {x y x' z : List Lexeme} {next last : Lexeme} (honly : wording.Only more x next v)
    (hshared : [next] <+: y ++ [last]) (hwritten : wording x' v') (hstops : Stops more z)
    (hstarts : x ++ y ++ [last] <+: x' ++ z) : (x' = x ∧ v' = v) ∧ y ++ [last] <+: z := by
  rw [List.append_assoc] at hstarts
  have hnext : x ++ [next] <+: x' ++ z :=
    ((List.prefix_append_right_inj x).2 hshared).trans hstarts
  obtain ⟨rfl, rfl⟩ := honly x' v' z hwritten hstops hnext
  exact ⟨⟨rfl, rfl⟩, (List.prefix_append_right_inj x').1 hstarts⟩

theorem Wording.Closing.stops {α : Type} {kind : Token.Kind} {value v : α} {x z : List Lexeme}
    {more : Token → Prop} (hwritten : Wording.Closing kind value x v)
    (hmore : ∀ token : Token, token.kind = kind → ¬ more token) : Stops more (x ++ z) := by
  obtain ⟨-, lexeme, hlexeme, rfl⟩ := hwritten
  exact (stops_cons more lexeme z).2 (hmore lexeme.token hlexeme)

namespace Rule

variable {α β : Type}

theorem peek_bind (next : Token → Rule α) (cursor : Cursor) :
    (peek >>= next) cursor = next cursor.current.token cursor := rfl

theorem descend_of_lt {limit : Nat} {cursor : Cursor} (hdepth : cursor.depth < limit) :
    descend limit cursor = .ok () { cursor with depth := cursor.depth + 1 } :=
  if_neg (Nat.not_le.2 hdepth)

theorem descend_of_le {limit : Nat} {cursor : Cursor} (hdepth : limit ≤ cursor.depth) :
    descend limit cursor = .error (.tooDeep limit cursor.current.position.line) cursor :=
  if_pos hdepth

theorem nested_of_ok {limit : Nat} {rule : Rule α} {cursor last : Cursor} {v : α}
    (hdepth : cursor.depth < limit)
    (hrule : rule { cursor with depth := cursor.depth + 1 } = .ok v last) :
    nested limit rule cursor = .ok v { last with depth := last.depth - 1 } := by
  refine (bind_of_ok (descend_of_lt hdepth)).trans ?_
  simp only [hrule]

theorem nested_of_error {limit : Nat} {rule : Rule α} {cursor last : Cursor} {fault : ParseFault}
    (hdepth : cursor.depth < limit)
    (hrule : rule { cursor with depth := cursor.depth + 1 } = .error fault last) :
    nested limit rule cursor = .error fault { last with depth := last.depth - 1 } := by
  refine (bind_of_ok (descend_of_lt hdepth)).trans ?_
  simp only [hrule]

/-- What a rule does at a cursor, said by a wording. No lexeme of `more` follows the wording. A rule
that runs out of levels has consumed `slack` lexemes more than it had levels left. -/
inductive Reads (limit slack : Nat) (more : Token → Prop) (wording : Wording α) (rule : Rule α)
    (cursor : Cursor) : Prop
  | read {v : α} {later : Cursor} {x : List Lexeme} (hresult : rule cursor = .ok v later)
      (hmoves : cursor.Moves x later) (hdepth : later.depth = cursor.depth) (hwritten : wording x v)
      (honly : wording.Only more x later.current v)
      (hsame : ∀ other : Cursor, other.Sound → other.depth = cursor.depth →
        x ++ [later.current] <+: other.ahead →
          ∃ end', rule other = .ok v end' ∧ other.Moves x end' ∧ end'.depth = other.depth)
  | refused {expected : Expectation} {later : Cursor} {x : List Lexeme}
      (hresult : rule cursor =
        .error (.unexpected expected later.current.token later.current.position.line) later)
      (hmoves : cursor.Moves x later) (hbegun : wording.Begins x)
      (hnever : wording.Never more x later.current)
      (hsame : ∀ other : Cursor, other.Sound → other.depth = cursor.depth →
        x ++ [later.current] <+: other.ahead →
          ∃ end', rule other =
            .error (.unexpected expected later.current.token later.current.position.line) end')
  | broken {fault : LexFault} {later : Cursor}
      (hresult : rule cursor = .error (.lexical fault) later)
      (hending : cursor.ending = .broken fault) (hbegun : wording.Begins cursor.ahead)
  | tooDeep {line : Nat} {later : Cursor} {x : List Lexeme}
      (hresult : rule cursor = .error (.tooDeep limit line) later) (hmoves : cursor.Moves x later)
      (hdeep : limit + slack ≤ cursor.depth + x.length)

namespace Reads

variable {limit slack slack' : Nat} {more more' : Token → Prop} {wording : Wording α}
  {wording' : Wording β} {rule : Rule α} {cursor : Cursor}

/-- A rule that does the same wherever the current lexeme is the same. -/
theorem congr {rule' : Rule α} (hsound : cursor.Sound)
    (heq : ∀ other : Cursor, other.Sound → other.depth = cursor.depth →
      other.current = cursor.current → rule' other = rule other)
    (hreads : Reads limit slack more wording rule cursor) :
    Reads limit slack more wording rule' cursor := by
  have hhere : rule' cursor = rule cursor := heq cursor hsound rfl rfl
  have hcurrent {x : List Lexeme} {later other : Cursor} (hmoves : cursor.Moves x later)
      (hstarts : x ++ [later.current] <+: other.ahead) : other.current = cursor.current :=
    Cursor.current_eq_of_starts (hmoves.singleton_starts.trans hstarts)
  cases hreads with
  | read hresult hmoves hdepth hwritten honly hsame =>
    refine .read (hhere.trans hresult) hmoves hdepth hwritten honly ?_
    intro other hother hdepth hstarts
    rw [heq other hother hdepth (hcurrent hmoves hstarts)]
    exact hsame other hother hdepth hstarts
  | refused hresult hmoves hbegun hnever hsame =>
    refine .refused (hhere.trans hresult) hmoves hbegun hnever ?_
    intro other hother hdepth hstarts
    rw [heq other hother hdepth (hcurrent hmoves hstarts)]
    exact hsame other hother hdepth hstarts
  | broken hresult hending hbegun => exact .broken (hhere.trans hresult) hending hbegun
  | tooDeep hresult hmoves hdeep => exact .tooDeep (hhere.trans hresult) hmoves hdeep

theorem peek {next : Token → Rule α} (hsound : cursor.Sound)
    (hreads : Reads limit slack more wording (next cursor.current.token) cursor) :
    Reads limit slack more wording (Rule.peek >>= next) cursor :=
  congr hsound (fun other _ _ hcurrent ↦ by rw [← hcurrent]; rfl) hreads

theorem currentLine {next : Nat → Rule α} (hsound : cursor.Sound)
    (hreads : Reads limit slack more wording (next cursor.current.position.line) cursor) :
    Reads limit slack more wording (Rule.currentLine >>= next) cursor :=
  congr hsound (fun other _ _ hcurrent ↦ by rw [← hcurrent]; rfl) hreads

/-- A wording may be replaced by one that agrees with it on all that begins with the current
lexeme. -/
theorem of_agrees {wide : Wording α} {wider : Token → Prop}
    (hwide : ∀ x v, wording x v → wide x v) (hmore : ∀ token, more token → wider token)
    (hnarrow : ∀ y w z, wide y w → Stops wider z → (y ++ z).head? = some cursor.current →
      wording y w)
    (hreads : Reads limit slack more wording rule cursor) :
    Reads limit slack wider wide rule cursor := by
  have hhead {x y z : List Lexeme} {later : Cursor} (hmoves : cursor.Moves x later)
      (hstarts : x ++ [later.current] <+: y ++ z) : (y ++ z).head? = some cursor.current := by
    obtain ⟨tail, htail⟩ := hmoves.singleton_starts.trans hstarts
    rw [← htail]
    rfl
  have hbegins {x : List Lexeme} : wording.Begins x → wide.Begins x :=
    fun ⟨y, v, hwritten, hstarts⟩ ↦ ⟨y, v, hwide y v hwritten, hstarts⟩
  cases hreads with
  | read hresult hmoves hdepth hwritten honly hsame =>
    refine .read hresult hmoves hdepth (hwide _ _ hwritten) ?_ hsame
    intro y w z hwritten hstops hstarts
    exact honly y w z (hnarrow y w z hwritten hstops (hhead hmoves hstarts)) (hstops.mono hmore)
      hstarts
  | refused hresult hmoves hbegun hnever hsame =>
    refine .refused hresult hmoves (hbegins hbegun) ?_ hsame
    intro y w z hwritten hstops hstarts
    exact hnever y w z (hnarrow y w z hwritten hstops (hhead hmoves hstarts)) (hstops.mono hmore)
      hstarts
  | broken hresult hending hbegun => exact .broken hresult hending (hbegins hbegun)
  | tooDeep hresult hmoves hdeep => exact .tooDeep hresult hmoves hdeep

theorem of_iff {wide : Wording α} (hiff : ∀ x v, wording x v ↔ wide x v)
    (hreads : Reads limit slack more wording rule cursor) :
    Reads limit slack more wide rule cursor :=
  of_agrees (fun x v ↦ (hiff x v).1) (fun _ h ↦ h) (fun y w _ hwritten _ _ ↦ (hiff y w).2 hwritten)
    hreads

theorem weaken (hslack : slack' ≤ slack) (hreads : Reads limit slack more wording rule cursor) :
    Reads limit slack' more wording rule cursor := by
  cases hreads with
  | read hresult hmoves hdepth hwritten honly hsame =>
    exact .read hresult hmoves hdepth hwritten honly hsame
  | refused hresult hmoves hbegun hnever hsame => exact .refused hresult hmoves hbegun hnever hsame
  | broken hresult hending hbegun => exact .broken hresult hending hbegun
  | tooDeep hresult hmoves hdeep => exact .tooDeep hresult hmoves (by omega)

/-! ### Single steps -/

theorem pure (hsound : cursor.Sound) (v : α) :
    Reads limit slack more (Wording.Done v) (Pure.pure v) cursor := by
  refine .read rfl (Cursor.Moves.refl hsound) rfl ⟨rfl, rfl⟩ ?_ ?_
  · rintro y w z ⟨rfl, rfl⟩ - -
    exact ⟨rfl, rfl⟩
  · intro other hother _ _
    exact ⟨other, rfl, Cursor.Moves.refl hother, rfl⟩

/-- Consuming the current lexeme, which is one of those that are allowed. -/
theorem advance {allowed : Lexeme → Prop} (hsound : cursor.Sound)
    (hgoing : cursor.current.token ≠ .eof) (hallowed : allowed cursor.current) :
    Reads limit slack more (Wording.Single allowed) Rule.advance cursor := by
  rcases advance_cases hsound hgoing with ⟨later, hresult, hmoves, hdepth⟩ | ⟨fault, hresult, h⟩
  · refine .read hresult hmoves hdepth ⟨rfl, hallowed⟩ ?_ ?_
    · rintro y w z ⟨rfl, -⟩ - hstarts
      rw [List.singleton_append, List.singleton_append, List.cons_prefix_cons] at hstarts
      rw [hstarts.1]
      exact ⟨rfl, rfl⟩
    · intro other hother _ hstarts
      have hcurrent : other.current = cursor.current :=
        Cursor.current_eq_of_starts ((List.prefix_append _ _).trans hstarts)
      rcases advance_cases hother (by rw [hcurrent]; exact hgoing) with
        ⟨end', hresult', hmoves', hdepth'⟩ | ⟨fault, -, -, hahead⟩
      · rw [hcurrent] at hresult' hmoves'
        exact ⟨end', hresult', hmoves', hdepth'⟩
      · rw [hahead] at hstarts
        exact absurd hstarts.length_le (by simp)
  · refine .broken hresult h.1 ⟨[cursor.current], cursor.current, ⟨rfl, hallowed⟩, ?_⟩
    exact h.2 ▸ List.prefix_refl _

/-- Refusing the current lexeme, with which no wording begins. -/
theorem unexpected (hsound : cursor.Sound) (expected : Expectation) (hbegins : wording.Begins [])
    (hnever : wording.Never more [] cursor.current) :
    Reads limit slack more wording (Rule.unexpected expected) cursor := by
  have hresult : (Rule.unexpected expected : Rule α) cursor = .error (.unexpected expected
    cursor.current.token cursor.current.position.line) cursor := rfl
  refine .refused hresult (Cursor.Moves.refl hsound) hbegins hnever ?_
  intro other _ _ hstarts
  have hcurrent := Cursor.current_eq_of_starts hstarts
  refine ⟨other, ?_⟩
  change EStateM.Result.error _ other = _
  rw [hcurrent]

/-! ### Rules behind rules -/

/-- What the second wording writes, with what follows it, must not prolong the first. -/
theorem bind (slack' : Nat) {wording' : α → Wording β} {first : Rule α} {second : α → Rule β}
    (hfirst : Reads limit slack more wording first cursor)
    (hsecond : ∀ x v later, cursor.Moves x later → later.depth = cursor.depth → wording x v →
      Reads limit slack' more' (wording' v) (second v) later)
    (hbegins : ∀ x v, wording x v → (wording' v).Begins [])
    (hmeets : ∀ v y w z, wording' v y w → Stops more' z → Stops more (y ++ z))
    (hpace : ∀ x v, wording x v → slack ≤ x.length + slack') :
    Reads limit slack more' (wording.Then wording') (first >>= second) cursor := by
  cases hfirst with
  | refused hresult hmoves hbegun hnever hsame =>
    refine .refused (bind_of_error hresult) hmoves (Wording.then_begins hbegun hbegins) ?_ ?_
    · rintro y w z ⟨y₁, v, y₂, hwritten, hwritten', rfl⟩ hstops hstarts
      rw [List.append_assoc] at hstarts
      exact hnever y₁ v (y₂ ++ z) hwritten (hmeets v y₂ w z hwritten' hstops) hstarts
    · intro other hother hdepth hstarts
      obtain ⟨last, hlast⟩ := hsame other hother hdepth hstarts
      exact ⟨last, bind_of_error hlast⟩
  | broken hresult hending hbegun =>
    exact .broken (bind_of_error hresult) hending (Wording.then_begins hbegun hbegins)
  | tooDeep hresult hmoves hdeep => exact .tooDeep (bind_of_error hresult) hmoves hdeep
  | @read v later x hresult hmoves hdepth hwritten honly hsame =>
    -- Both results fix the lexemes up to the one where the second rule ends.
    have hfollow {y y₁ y₂ z : List Lexeme} {last : Cursor} {v₁ : α} {w : β}
        (hmoves : later.Moves y last) (hwritten : wording y₁ v₁) (hwritten' : wording' v₁ y₂ w)
        (hstops : Stops more' z) (hstarts : x ++ y ++ [last.current] <+: y₁ ++ y₂ ++ z) :
        (y₁ = x ∧ v₁ = v) ∧ y ++ [last.current] <+: y₂ ++ z := by
      rw [List.append_assoc y₁] at hstarts
      exact honly.first hmoves.singleton_starts hwritten (hmeets v₁ y₂ w z hwritten' hstops) hstarts
    have hresume {y : List Lexeme} {last other : Cursor} (hmoves : later.Moves y last)
        (hother : other.Sound) (hdepth : other.depth = cursor.depth)
        (hstarts : x ++ y ++ [last.current] <+: other.ahead) :
        ∃ middle, first other = .ok v middle ∧ other.Moves x middle ∧
          middle.depth = later.depth ∧ middle.depth = other.depth ∧
          y ++ [last.current] <+: middle.ahead := by
      rw [List.append_assoc] at hstarts
      have hshared := (List.prefix_append_right_inj x).2 hmoves.singleton_starts
      obtain ⟨middle, hresult, hmoves', hmiddle⟩ :=
        hsame other hother hdepth (hshared.trans hstarts)
      rw [hmoves'.ahead, List.prefix_append_right_inj] at hstarts
      exact ⟨middle, hresult, hmoves', by omega, hmiddle, hstarts⟩
    cases hsecond x v later hmoves hdepth hwritten with
    | @read w last y hresult' hmoves' hdepth' hwritten' honly' hsame' =>
      refine .read ((bind_of_ok hresult).trans hresult') (hmoves.trans hmoves')
        (hdepth'.trans hdepth) ⟨x, v, y, hwritten, hwritten', rfl⟩ ?_ ?_
      · rintro z w' z' ⟨y₁, v₁, y₂, hleft, hright, rfl⟩ hstops hstarts
        obtain ⟨⟨rfl, rfl⟩, hrest⟩ := hfollow hmoves' hleft hright hstops hstarts
        obtain ⟨rfl, rfl⟩ := honly' y₂ w' z' hright hstops hrest
        exact ⟨rfl, rfl⟩
      · intro other hother hdepth hstarts
        obtain ⟨middle, hresult, hmoves, hmiddle, hback, hstarts⟩ :=
          hresume hmoves' hother hdepth hstarts
        obtain ⟨end', hresult', hmoves', hend⟩ := hsame' middle hmoves.sound hmiddle hstarts
        exact ⟨end', (bind_of_ok hresult).trans hresult', hmoves.trans hmoves', hend.trans hback⟩
    | @refused expected last y hresult' hmoves' hbegun' hnever' hsame' =>
      refine .refused ((bind_of_ok hresult).trans hresult') (hmoves.trans hmoves')
        (Wording.then_begins_behind hwritten hbegun') ?_ ?_
      · rintro z w' z' ⟨y₁, v₁, y₂, hleft, hright, rfl⟩ hstops hstarts
        obtain ⟨⟨rfl, rfl⟩, hrest⟩ := hfollow hmoves' hleft hright hstops hstarts
        exact hnever' y₂ w' z' hright hstops hrest
      · intro other hother hdepth hstarts
        obtain ⟨middle, hresult, hmoves, hmiddle, -, hstarts⟩ :=
          hresume hmoves' hother hdepth hstarts
        obtain ⟨end', hresult'⟩ := hsame' middle hmoves.sound hmiddle hstarts
        exact ⟨end', (bind_of_ok hresult).trans hresult'⟩
    | broken hresult' hending' hbegun' =>
      refine .broken ((bind_of_ok hresult).trans hresult') (hmoves.ending ▸ hending') ?_
      rw [hmoves.ahead]
      exact Wording.then_begins_behind hwritten hbegun'
    | tooDeep hresult' hmoves' hdeep' =>
      refine .tooDeep ((bind_of_ok hresult).trans hresult') (hmoves.trans hmoves') ?_
      have hpaced := hpace x v hwritten
      rw [List.length_append]
      omega

/-- A rule behind one that nothing prolongs. -/
theorem andThen {wording' : α → Wording β} {first : Rule α} {second : α → Rule β}
    (hfirst : Reads limit slack nothing wording first cursor)
    (hsecond : ∀ x v later, cursor.Moves x later → later.depth = cursor.depth → wording x v →
      Reads limit 0 more (wording' v) (second v) later)
    (hbegins : ∀ x v, wording x v → (wording' v).Begins [])
    (hpace : ∀ x v, wording x v → slack ≤ x.length) :
    Reads limit slack more (wording.Then wording') (first >>= second) cursor :=
  bind 0 hfirst hsecond hbegins (fun _ y _ z _ _ ↦ stops_nothing (y ++ z)) hpace

/-- Consuming the current lexeme before another rule. It makes up for a level. -/
theorem afterCurrent {next : Rule α}
    (hsound : cursor.Sound) (hgoing : cursor.current.token ≠ .eof) (hbegins : wording.Begins [])
    (hnext : ∀ later : Cursor, later.Sound → later.depth = cursor.depth →
      Reads limit 0 more wording next later) :
    Reads limit 1 more (fun x v ↦ ∃ y, x = cursor.current :: y ∧ wording y v)
      (Rule.advance >>= fun _ ↦ next) cursor := by
  have hthen : Reads limit 1 more
      ((Wording.Single (· = cursor.current)).Then fun _ ↦ wording)
      (Rule.advance >>= fun _ ↦ next) cursor := by
    refine andThen (advance hsound hgoing rfl) ?_ (fun _ _ _ ↦ hbegins) ?_
    · intro x lexeme later hmoves hsame _
      exact hnext later hmoves.sound hsame
    · rintro x lexeme ⟨rfl, -⟩
      exact Nat.le_refl 1
  refine of_iff (fun x v ↦ ?_) hthen
  constructor
  · rintro ⟨_, lexeme, y, ⟨rfl, rfl⟩, hwritten, rfl⟩
    exact ⟨y, rfl, hwritten⟩
  · rintro ⟨y, rfl, hwritten⟩
    exact ⟨_, _, y, ⟨rfl, rfl⟩, hwritten, rfl⟩

/-- A rule whose value is only renamed. -/
theorem map (f : α → β) (hrule : Reads limit slack more wording rule cursor) :
    Reads limit slack more (wording.Map f) (rule >>= fun v ↦ Pure.pure (f v)) cursor := by
  have hthen : Reads limit slack more (wording.Then fun v ↦ Wording.Done (f v))
      (rule >>= fun v ↦ Pure.pure (f v)) cursor := by
    refine bind slack hrule (fun x v later hmoves _ _ ↦ pure hmoves.sound (f v))
      (fun x v _ ↦ ⟨[], f v, ⟨rfl, rfl⟩, List.prefix_refl _⟩) ?_ (fun _ _ _ ↦ Nat.le_add_left _ _)
    rintro v y w z ⟨rfl, -⟩ hstops
    exact hstops
  refine of_iff (fun x w ↦ ?_) hthen
  constructor
  · rintro ⟨x, v, y, hwritten, ⟨rfl, rfl⟩, rfl⟩
    exact ⟨v, by simpa using hwritten, rfl⟩
  · rintro ⟨v, hwritten, rfl⟩
    exact ⟨x, v, [], hwritten, ⟨rfl, rfl⟩, by simp⟩

/-! ### Levels -/

/-- A rule that gives up at once where no level is left. -/
theorem atLimit {line : Nat} (hsound : cursor.Sound) (hlevels : limit ≤ cursor.depth)
    (hrule : rule cursor = .error (.tooDeep limit line) cursor) :
    Reads limit 0 more wording rule cursor := by
  refine .tooDeep hrule (Cursor.Moves.refl hsound) ?_
  simpa using hlevels

/-- A rule that runs another one a level deeper. The level counts for one of the lexemes that the
other rule consumes; what becomes of the depth after a fault does not matter. -/
theorem level {rule' : Rule α} (lower : Nat → Nat) (hsound : cursor.Sound)
    (hrun : ∀ c : Cursor, c.depth < limit → rule' c =
      match rule { c with depth := c.depth + 1 } with
      | .ok v later => .ok v { later with depth := later.depth - 1 }
      | .error fault later => .error fault { later with depth := lower later.depth })
    (hfull : ∀ c : Cursor, limit ≤ c.depth →
      rule' c = .error (.tooDeep limit c.current.position.line) c)
    (hrule : cursor.depth < limit →
      Reads limit 1 more wording rule { cursor with depth := cursor.depth + 1 }) :
    Reads limit 0 more wording rule' cursor := by
  by_cases hroom : cursor.depth < limit
  · cases hrule hroom with
    | @read v later x hresult hmoves hdepth hwritten honly hsame =>
      have houter : rule' cursor = .ok v { later with depth := later.depth - 1 } := by
        rw [hrun cursor hroom, hresult]
      refine .read houter (hmoves.withDepth cursor.depth _) ?_ hwritten honly ?_
      · simp only [hdepth, Nat.add_sub_cancel]
      · intro other hother hequal hstarts
        obtain ⟨end', hresult, hmoves, hend⟩ := hsame { other with depth := other.depth + 1 }
          (hother.withDepth _) (by simp only [hequal]) hstarts
        refine ⟨{ end' with depth := end'.depth - 1 }, ?_, hmoves.withDepth other.depth _, ?_⟩
        · rw [hrun other (hequal ▸ hroom), hresult]
        · simp only [hend, Nat.add_sub_cancel]
    | @refused expected later x hresult hmoves hbegun hnever hsame =>
      have houter : rule' cursor =
          .error (.unexpected expected later.current.token later.current.position.line)
            { later with depth := lower later.depth } := by rw [hrun cursor hroom, hresult]
      refine @Reads.refused _ _ _ _ _ _ _ expected { later with depth := lower later.depth } x
        houter (hmoves.withDepth cursor.depth _) hbegun hnever ?_
      intro other hother hequal hstarts
      obtain ⟨end', hresult⟩ := hsame { other with depth := other.depth + 1 }
        (hother.withDepth _) (by simp only [hequal]) hstarts
      refine ⟨{ end' with depth := lower end'.depth }, ?_⟩
      rw [hrun other (hequal ▸ hroom), hresult]
    | @broken fault later hresult hending hbegun =>
      have houter : rule' cursor =
          .error (.lexical fault) { later with depth := lower later.depth } := by
        rw [hrun cursor hroom, hresult]
      exact .broken houter hending hbegun
    | @tooDeep line later x hresult hmoves hdeep =>
      have houter : rule' cursor =
          .error (.tooDeep limit line) { later with depth := lower later.depth } := by
        rw [hrun cursor hroom, hresult]
      refine .tooDeep houter (hmoves.withDepth cursor.depth _) ?_
      simp only at hdeep
      omega
  · have hlevels := Nat.not_lt.1 hroom
    exact atLimit hsound hlevels (hfull cursor hlevels)

theorem nested (hsound : cursor.Sound)
    (hrule : cursor.depth < limit →
      Reads limit 1 more wording rule { cursor with depth := cursor.depth + 1 }) :
    Reads limit 0 more wording (Rule.nested limit rule) cursor :=
  level (· - 1) hsound (fun _ hdepth ↦ bind_of_ok (descend_of_lt hdepth))
    (fun _ hdepth ↦ bind_of_error (descend_of_le hdepth)) hrule

/-! ### Tokens -/

theorem expect {kind : Token.Kind} (hsound : cursor.Sound) (hkind : kind ≠ .eof) :
    Reads limit slack more (Wording.Single (·.token.kind = kind)) (Rule.expect kind) cursor := by
  refine peek hsound ?_
  by_cases hcurrent : cursor.current.token.kind = kind
  · rw [if_pos hcurrent]
    exact advance hsound (Token.ne_eof_of_kind hcurrent hkind) hcurrent
  · rw [if_neg hcurrent]
    obtain ⟨lexeme, hlexeme⟩ := Wording.exists_kind kind
    refine unexpected hsound _ ⟨[lexeme], lexeme, ⟨rfl, hlexeme⟩, List.nil_prefix⟩ ?_
    rintro y w z ⟨rfl, hw⟩ - hstarts
    rw [List.nil_append, List.singleton_append, List.cons_prefix_cons] at hstarts
    rw [hstarts.1] at hcurrent
    exact hcurrent hw

/-- A lexeme of a kind and then another rule. It makes up for a level. -/
theorem afterKind {kind : Token.Kind} {wording' : Lexeme → Wording β} {next : Lexeme → Rule β}
    (hsound : cursor.Sound) (hkind : kind ≠ .eof) (hbegins : ∀ lexeme, (wording' lexeme).Begins [])
    (hnext : ∀ (lexeme : Lexeme) (later : Cursor), later.Sound → later.depth = cursor.depth →
      Reads limit 0 more (wording' lexeme) (next lexeme) later) :
    Reads limit 1 more ((Wording.Single (·.token.kind = kind)).Then wording')
      (Rule.expect kind >>= next) cursor := by
  refine andThen (expect hsound hkind) ?_ (fun _ lexeme _ ↦ hbegins lexeme) ?_
  · intro x lexeme later hmoves hsame _
    exact hnext lexeme later hmoves.sound hsame
  · rintro x lexeme ⟨rfl, -⟩
    exact Nat.le_refl 1

/-- Consuming a lexeme that closes what stands before it. -/
theorem closing {kind : Token.Kind} (hsound : cursor.Sound) (hkind : kind ≠ .eof) (v : α) :
    Reads limit 0 more (Wording.Closing kind v) (Rule.expect kind >>= fun _ ↦ Pure.pure v)
      cursor := by
  have hthen : Reads limit 1 more
      ((Wording.Single (·.token.kind = kind)).Then fun _ ↦ Wording.Done v)
      (Rule.expect kind >>= fun _ ↦ Pure.pure v) cursor :=
    afterKind hsound hkind (fun _ ↦ ⟨[], v, ⟨rfl, rfl⟩, List.nil_prefix⟩)
      fun _ _ hlater _ ↦ pure hlater v
  refine weaken (Nat.zero_le 1) (of_iff (fun x w ↦ ?_) hthen)
  constructor
  · rintro ⟨_, lexeme, _, ⟨rfl, hlexeme⟩, ⟨rfl, rfl⟩, rfl⟩
    exact ⟨rfl, lexeme, hlexeme, rfl⟩
  · rintro ⟨rfl, lexeme, hlexeme, rfl⟩
    exact ⟨_, lexeme, [], ⟨rfl, hlexeme⟩, ⟨rfl, rfl⟩, rfl⟩

theorem closed {kind : Token.Kind} (f : α → β) (hrule : Reads limit 0 more wording rule cursor)
    (hkind : kind ≠ .eof) (hmore : ∀ token : Token, token.kind = kind → ¬ more token) :
    Reads limit 0 more' (wording.Then fun v ↦ Wording.Closing kind (f v))
      (rule >>= fun v ↦ Rule.expect kind >>= fun _ ↦ Pure.pure (f v)) cursor := by
  refine bind 0 hrule ?_ (fun _ v _ ↦ Wording.closing_begins kind (f v)) ?_
    (fun _ _ _ ↦ Nat.zero_le _)
  · intro x v later hmoves _ _
    exact closing hmoves.sound hkind (f v)
  · intro v y w z hwritten _
    exact hwritten.stops hmore

/-- Reading a name is consuming an identifier. -/
theorem mention_eq : Rule.mention = Rule.peek >>= fun token ↦
    match token with
    | .identifier name => Rule.advance >>= fun lexeme ↦ Pure.pure ⟨name, lexeme.position.line⟩
    | _ => Rule.unexpected (.token .identifier) := by
  funext cursor
  obtain ⟨⟨token, position⟩, upcoming, ending, depth⟩ := cursor
  cases token with
  | identifier name =>
    cases upcoming with
    | nil => cases ending <;> rfl
    | cons next others => rfl
  | keyword | mark | integer | real | eof => rfl

theorem mention (hsound : cursor.Sound) :
    Reads limit slack more Wording.Name Rule.mention cursor := by
  rw [mention_eq]
  refine peek hsound ?_
  have hnever (hother : ∀ name, cursor.current.token ≠ .identifier name) :
      Reads limit slack more Wording.Name (Rule.unexpected (.token .identifier)) cursor := by
    refine unexpected hsound _
      ⟨[⟨.identifier "", Position.start⟩], _, .mk "" Position.start, List.nil_prefix⟩ ?_
    rintro y w z ⟨name, p⟩ - hstarts
    rw [List.nil_append, List.singleton_append, List.cons_prefix_cons] at hstarts
    exact hother name (by rw [hstarts.1])
  cases htoken : cursor.current.token with
  | identifier name =>
    have hadvance : Reads limit slack more (Wording.Single (·.token = .identifier name))
        Rule.advance cursor := advance hsound (by rw [htoken]; simp) htoken
    refine of_agrees ?_ (fun _ h ↦ h) ?_
      (map (fun lexeme : Lexeme ↦ (⟨name, lexeme.position.line⟩ : Mention)) hadvance)
    · rintro x v ⟨⟨token, p⟩, ⟨rfl, rfl⟩, rfl⟩
      exact .mk name p
    · rintro y w z ⟨other, p⟩ - hhead
      have hcurrent : (⟨.identifier other, p⟩ : Lexeme) = cursor.current := Option.some.inj hhead
      rw [← hcurrent] at htoken
      cases htoken
      exact ⟨_, ⟨rfl, rfl⟩, rfl⟩
  | keyword | mark | integer | real | eof => exact hnever (by rw [htoken]; simp)

/-- A name and then another rule. -/
theorem afterName {wording' : Mention → Wording β} {next : Mention → Rule β}
    (hsound : cursor.Sound) (hbegins : ∀ found, (wording' found).Begins [])
    (hnext : ∀ (found : Mention) (later : Cursor), later.Sound → later.depth = cursor.depth →
      Reads limit 0 more (wording' found) (next found) later) :
    Reads limit 0 more (Wording.Name.Then wording') (Rule.mention >>= next) cursor := by
  refine andThen (mention hsound) ?_ (fun _ found _ ↦ hbegins found) (fun _ _ _ ↦ Nat.zero_le _)
  intro x found later hmoves hsame _
  exact hnext found later hmoves.sound hsame

theorem finish_of_eof (hsound : cursor.Sound) (hend : cursor.current.token = .eof) (v : α) :
    (Rule.expect .eof >>= fun _ ↦ (Pure.pure v : Rule α)) cursor = .ok v cursor := by
  refine bind_of_ok (?_ : Rule.expect .eof cursor = .ok cursor.current cursor)
  refine (peek_bind _ _).trans ?_
  rw [if_pos (by rw [hend]; rfl), advance_of_eof hsound hend]

theorem finish_of_ne (hgoing : cursor.current.token ≠ .eof) (v : α) :
    (Rule.expect .eof >>= fun _ ↦ (Pure.pure v : Rule α)) cursor =
      Rule.unexpected (.token .eof) cursor := by
  refine bind_of_error (?_ : Rule.expect .eof cursor = .error _ cursor)
  refine (peek_bind _ _).trans (congrFun (if_neg ?_) cursor)
  intro hkind
  exact hgoing (Token.eq_eof_of_kind hkind)

/-- Nothing is left but the end of the text. -/
theorem finish (hsound : cursor.Sound) (v : α) :
    Reads limit slack (· ≠ .eof) (Wording.Done v) (Rule.expect .eof >>= fun _ ↦ Pure.pure v)
      cursor := by
  by_cases hend : cursor.current.token = .eof
  · refine .read (finish_of_eof hsound hend v) (Cursor.Moves.refl hsound) rfl ⟨rfl, rfl⟩ ?_ ?_
    · rintro y w z ⟨rfl, rfl⟩ - -
      exact ⟨rfl, rfl⟩
    · intro other hother _ hstarts
      rw [List.nil_append] at hstarts
      refine ⟨other, finish_of_eof hother ?_ v, Cursor.Moves.refl hother, rfl⟩
      rw [Cursor.current_eq_of_starts hstarts, hend]
  · refine congr hsound (fun other _ _ hcurrent ↦ finish_of_ne (hcurrent ▸ hend) v) ?_
    refine unexpected hsound _ ⟨[], v, ⟨rfl, rfl⟩, List.prefix_refl _⟩ ?_
    rintro y w z ⟨rfl, rfl⟩ hstops hstarts
    obtain ⟨tail, htail⟩ := hstarts
    rw [List.nil_append, List.nil_append, List.singleton_append] at htail
    rw [← htail] at hstops
    exact (stops_cons _ _ _).1 hstops hend

end Reads

end Rule

end MiniPascal
