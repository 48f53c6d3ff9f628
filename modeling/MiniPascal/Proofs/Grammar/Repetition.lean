import MiniPascal.Proofs.Grammar.Reading

/-!
# Loops and chains

`Rule.repeatOn` bounds its loop by the lexemes in sight. `repeatOn_eq` says that the bound never
bites where each item consumes a lexeme, which leaves the loop as a plain recursion, and with it
`Reads.repeatOn` reads `Wording.Many` items and `Reads.separated` items with marks between them.

The links of an operator chain each open a level and leave it open for the links behind them.
`Rule.links_eq` turns this around: what the first operator begins is read one level deeper, and all
of it is closed at once. `Reads.links` is the induction over that recursion.

Both inductions take the same step, `Reads.loop`: where nothing is selected the loop ends, and
elsewhere it reads an item and then what `Reads.followed` says of a rule with many items behind it.
-/

set_option autoImplicit false
set_option relaxedAutoImplicit false

namespace MiniPascal

/-- How many lexemes are left before the end of the text. -/
def Cursor.left (cursor : Cursor) : Nat :=
  if cursor.current.token = .eof then 0 else cursor.upcoming.length + 1

theorem Cursor.left_le (cursor : Cursor) :
    cursor.left ≤ (cursor.current :: cursor.upcoming).length := by
  unfold left
  split <;> simp

theorem Cursor.token_eq_eof_of_left {cursor : Cursor} (hleft : cursor.left = 0) :
    cursor.current.token = .eof := by
  unfold left at hleft
  split at hleft
  · assumption
  · omega

theorem Cursor.Sound.length_ahead {cursor : Cursor} (hsound : cursor.Sound) :
    cursor.ahead.length = cursor.left +
      match cursor.ending with
      | .eof _ => 1
      | .broken _ => 0 := by
  by_cases hend : cursor.current.token = .eof
  · rw [hsound.ahead_of_eof hend, (hsound.last hend).2]
    simp [left, hend]
  · cases hending : cursor.ending <;> simp [ahead, left, hend, hending]

theorem Cursor.Moves.left_lt {cursor later : Cursor} {x : List Lexeme} (hsound : cursor.Sound)
    (hmoves : cursor.Moves x later) (hx : x ≠ []) : later.left < cursor.left := by
  have hbefore := hsound.length_ahead
  have hafter := hmoves.sound.length_ahead
  have hlength := congrArg List.length hmoves.ahead
  have hpos := List.length_pos_iff.2 hx
  rw [List.length_append] at hlength
  rw [hmoves.ending] at hafter
  omega

namespace Rule

variable {α β : Type}

theorem repeatAtMost_cons (select : Token → Option β) (item : β → Rule α) (lexeme : Lexeme)
    (bound : List Lexeme) (done : List α) (cursor : Cursor) :
    repeatAtMost select item (lexeme :: bound) done cursor =
      match select cursor.current.token with
      | none => .ok done.reverse cursor
      | some choice =>
        (item choice >>= fun v ↦ repeatAtMost select item bound (v :: done)) cursor := by
  change (peek >>= _) cursor = _
  rw [peek_bind]
  cases select cursor.current.token <;> rfl

/-- Items already read stand before those still to be read. -/
theorem repeatAtMost_done (select : Token → Option β) (item : β → Rule α) (bound : List Lexeme)
    (done : List α) (cursor : Cursor) :
    repeatAtMost select item bound done cursor =
      (repeatAtMost select item bound [] >>= fun vs ↦ pure (done.reverse ++ vs)) cursor := by
  induction bound generalizing done cursor with
  | nil => simp [repeatAtMost]
  | cons lexeme bound induct =>
    rw [repeatAtMost_cons]
    cases hselect : select cursor.current.token with
    | none =>
      have hstop : repeatAtMost select item (lexeme :: bound) [] cursor = .ok [] cursor := by
        rw [repeatAtMost_cons, hselect]
        rfl
      rw [bind_of_ok hstop]
      simp [pure, EStateM.pure]
    | some choice =>
      cases hitem : item choice cursor with
      | error fault later =>
        rw [bind_of_error (by rw [repeatAtMost_cons, hselect]; exact bind_of_error hitem)]
        exact bind_of_error hitem
      | ok v later =>
        have hhead : repeatAtMost select item (lexeme :: bound) [] cursor =
            repeatAtMost select item bound [v] later := by
          rw [repeatAtMost_cons, hselect]
          exact bind_of_ok hitem
        change (item choice >>= fun v ↦ repeatAtMost select item bound (v :: done)) cursor = _
        rw [bind_of_ok hitem, induct (v :: done) later]
        have hone := induct [v] later
        cases hrest : repeatAtMost select item bound [] later with
        | ok vs last =>
          rw [bind_of_ok hrest] at hone ⊢
          rw [bind_of_ok (hhead.trans hone)]
          simp
        | error fault last =>
          rw [bind_of_error hrest] at hone ⊢
          rw [bind_of_error (hhead.trans hone)]

/-- An item that consumes a lexeme wherever the loop goes on: from a depth on, and not at the end
of the text. -/
structure Advances (depth : Nat) (select : Token → Option β) (item : β → Rule α) : Prop where
  not_at_end : select .eof = none
  further : ∀ (cursor : Cursor) (choice : β) (v : α) (later : Cursor), cursor.Sound →
    depth ≤ cursor.depth → select cursor.current.token = some choice →
    item choice cursor = .ok v later →
      later.Sound ∧ depth ≤ later.depth ∧ later.left < cursor.left

/-- At the end of the text the loop is over, whatever its bound. -/
theorem repeatAtMost_of_left {select : Token → Option β} (hend : select .eof = none)
    (item : β → Rule α) (bound : List Lexeme) (done : List α) {cursor : Cursor}
    (hleft : cursor.left = 0) :
    repeatAtMost select item bound done cursor = .ok done.reverse cursor := by
  cases bound with
  | nil => rfl
  | cons lexeme bound => rw [repeatAtMost_cons, Cursor.token_eq_eof_of_left hleft, hend]

/-- All bounds are the same that are not less than the number of lexemes left. -/
theorem repeatAtMost_bound {depth : Nat} {select : Token → Option β} {item : β → Rule α}
    (hadvances : Advances depth select item) (bound bound' : List Lexeme) (done : List α)
    (cursor : Cursor) (hsound : cursor.Sound) (hdepth : depth ≤ cursor.depth)
    (hbound : cursor.left ≤ bound.length) (hbound' : cursor.left ≤ bound'.length) :
    repeatAtMost select item bound done cursor = repeatAtMost select item bound' done cursor := by
  have hstop := repeatAtMost_of_left hadvances.not_at_end item
  induction bound generalizing bound' done cursor with
  | nil =>
    have hleft : cursor.left = 0 := by simpa using hbound
    rw [hstop _ _ hleft, hstop _ _ hleft]
  | cons lexeme bound induct =>
    cases bound' with
    | nil =>
      have hleft : cursor.left = 0 := by simpa using hbound'
      rw [hstop _ _ hleft, hstop _ _ hleft]
    | cons lexeme' bound' =>
      rw [repeatAtMost_cons, repeatAtMost_cons]
      cases hselect : select cursor.current.token with
      | none => rfl
      | some choice =>
        refine bind_congr_of_ok fun v later hitem ↦ ?_
        obtain ⟨hlater, hdeeper, hless⟩ :=
          hadvances.further cursor choice v later hsound hdepth hselect hitem
        simp only [List.length_cons] at hbound hbound'
        exact induct bound' (v :: done) later hlater hdeeper (by omega) (by omega)

/-- The loop as a recursion. -/
theorem repeatOn_eq {depth : Nat} {select : Token → Option β} {item : β → Rule α}
    (hadvances : Advances depth select item) (cursor : Cursor) (hsound : cursor.Sound)
    (hdepth : depth ≤ cursor.depth) :
    repeatOn select item cursor =
      match select cursor.current.token with
      | none => .ok [] cursor
      | some choice =>
        (item choice >>= fun v ↦ repeatOn select item >>= fun vs ↦ pure (v :: vs)) cursor := by
  rw [repeatOn, repeatAtMost_cons]
  cases hselect : select cursor.current.token with
  | none => rfl
  | some choice =>
    refine bind_congr_of_ok fun v later hitem ↦ ?_
    obtain ⟨hlater, hdeeper, hless⟩ :=
      hadvances.further cursor choice v later hsound hdepth hselect hitem
    have hleft := cursor.left_le
    rw [List.length_cons] at hleft
    have hbound : repeatAtMost select item cursor.upcoming [] later =
        repeatOn select item later :=
      repeatAtMost_bound hadvances _ _ [] later hlater hdeeper (by omega) later.left_le
    rw [repeatAtMost_done]
    cases hrest : repeatOn select item later with
    | ok vs last => rw [bind_of_ok (hbound.trans hrest), bind_of_ok hrest]; rfl
    | error fault last => rw [bind_of_error (hbound.trans hrest), bind_of_error hrest]

end Rule

namespace Wording

variable {α β γ : Type} {item : Wording β} {more starts : Token → Prop}

/-- Every wording begins with one of the tokens. -/
def StartsIn (wording : Wording α) (starts : Token → Prop) : Prop :=
  ∀ x v, wording x v → ∃ lexeme y, x = lexeme :: y ∧ starts lexeme.token

/-- One wording and then many items, with what is made of all of them. -/
def Followed (first : Wording α) (item : Wording β) (join : α → List β → γ) : Wording γ :=
  first.Then fun v ↦ (Many item).Map (join v)

theorem Many.stops {x z : List Lexeme} {vs : List β} (hwritten : Many item x vs)
    (hitem : item.StartsIn starts) (hmore : ∀ token, starts token → ¬ more token)
    (hstops : Stops (fun token ↦ more token ∨ starts token) z) : Stops more (x ++ z) := by
  cases hwritten with
  | nil => exact hstops.mono fun _ ↦ Or.inl
  | cons hfirst _ =>
    obtain ⟨lexeme, y, rfl, hlexeme⟩ := hitem _ _ hfirst
    simpa using hmore _ hlexeme

/-- An item with a mark in front of it. -/
def Marked (sign : Mark) (item : Wording α) : Wording α :=
  (Single (·.token.kind = .mark sign)).Then fun _ ↦ item

theorem marked_starts (sign : Mark) (item : Wording α) :
    (Marked sign item).StartsIn (·.kind = .mark sign) := by
  rintro x v ⟨_, lexeme, y, ⟨rfl, hlexeme⟩, -, rfl⟩
  exact ⟨lexeme, y, rfl, hlexeme⟩

/-- Items with marks between them are an item and then items with marks in front of them. -/
theorem followed_marked_iff {sign : Mark} {item : Wording α} {x : List Lexeme} {vs : List α} :
    item.Followed (Marked sign item) List.cons x vs ↔ Separated sign item x vs := by
  constructor
  · rintro ⟨x, v, y, hfirst, ⟨vs, hothers, rfl⟩, rfl⟩
    induction hothers generalizing x v with
    | nil => simpa using .one hfirst
    | @cons x' y' v' vs' hmarked _ induct =>
      obtain ⟨_, ⟨token, p⟩, z, ⟨rfl, hkind⟩, hwritten, rfl⟩ := hmarked
      obtain rfl := Token.eq_mark_of_kind hkind
      simpa using .more p hfirst (induct z v' hwritten)
  · intro hwritten
    induction hwritten with
    | one hfirst => exact ⟨_, _, [], hfirst, ⟨[], .nil, rfl⟩, by simp⟩
    | more p hfirst _ induct =>
      obtain ⟨y, v, z, hsecond, ⟨vs, hothers, rfl⟩, rfl⟩ := induct
      refine ⟨_, _, ⟨.mark sign, p⟩ :: y ++ z, hfirst, ⟨v :: vs, .cons ?_ hothers, rfl⟩, by simp⟩
      exact ⟨_, ⟨.mark sign, p⟩, y, ⟨rfl, rfl⟩, hsecond, rfl⟩

end Wording

namespace Rule

theorem onKind_isSome {kind : Token.Kind} {token : Token} :
    (onKind kind token).isSome ↔ token.kind = kind := by
  unfold onKind
  split <;> simp [*]

namespace Reads

variable {α β γ : Type} {limit slack depth : Nat} {more starts : Token → Prop} {wording : Wording α}
  {cursor : Cursor}

/-- A rule and then one that reads many items. -/
theorem followed {item : Wording β} {join : α → List β → γ} {first : Rule α}
    {others : Rule (List β)} (hitem : item.StartsIn starts)
    (hmore : ∀ token, starts token → ¬ more token)
    (hfirst : Reads limit slack more wording first cursor)
    (hpace : ∀ x v, wording x v → slack ≤ x.length)
    (hothers : ∀ x v later, cursor.Moves x later → later.depth = cursor.depth → wording x v →
      Reads limit 0 (fun token ↦ more token ∨ starts token) (Wording.Many item) others later) :
    Reads limit slack (fun token ↦ more token ∨ starts token) (wording.Followed item join)
      (first >>= fun v ↦ others >>= fun vs ↦ Pure.pure (join v vs)) cursor := by
  refine bind 0 hfirst ?_ ?_ ?_ hpace
  · intro x v later hmoves hsame hwritten
    exact map (join v) (hothers x v later hmoves hsame hwritten)
  · intro x v _
    exact ⟨[], join v [], ⟨[], .nil, rfl⟩, List.prefix_refl _⟩
  · rintro v y w z ⟨vs, hwritten, rfl⟩ hstops
    exact hwritten.stops hitem hmore hstops

/-- A loop that ends where nothing is selected, and elsewhere reads an item and goes on. -/
theorem loop {select : Token → Option β} {rule : Rule (List α)} (step : β → Rule (List α))
    (hselected : wording.StartsIn fun token ↦ (select token).isSome) (hsound : cursor.Sound)
    (heq : ∀ other : Cursor, other.Sound → other.depth = cursor.depth →
      rule other =
        match select other.current.token with
        | none => .ok [] other
        | some choice => step choice other)
    (hstep : ∀ choice, select cursor.current.token = some choice →
      Reads limit 0 (fun token ↦ more token ∨ (select token).isSome)
        (wording.Followed wording List.cons) (step choice) cursor) :
    Reads limit 0 (fun token ↦ more token ∨ (select token).isSome) (Wording.Many wording) rule
      cursor := by
  cases hselect : select cursor.current.token with
  | none =>
    refine congr hsound ?_ (of_agrees ?_ (fun _ h ↦ h) ?_ (pure hsound []))
    · intro other hother hsame hcurrent
      rw [heq other hother hsame, hcurrent, hselect]
      rfl
    · rintro x v ⟨rfl, rfl⟩
      exact .nil
    · intro y vs z hwritten _ hhead
      cases hwritten with
      | nil => exact ⟨rfl, rfl⟩
      | cons hfirst hothers =>
        obtain ⟨lexeme, x, rfl, hlexeme⟩ := hselected _ _ hfirst
        simp only [List.cons_append, List.head?_cons, Option.some.injEq] at hhead
        rw [hhead, hselect] at hlexeme
        cases hlexeme
  | some choice =>
    refine congr hsound ?_ (of_agrees ?_ (fun _ h ↦ h) ?_ (hstep choice hselect))
    · intro other hother hsame hcurrent
      rw [heq other hother hsame, hcurrent, hselect]
    · rintro x ws ⟨x₁, v, x₂, hfirst, ⟨vs, hothers, rfl⟩, rfl⟩
      exact .cons hfirst hothers
    · intro y ws z hwritten hstops hhead
      cases hwritten with
      | nil =>
        simp only [List.nil_append] at hhead
        exact (hstops cursor.current hhead (.inr (by rw [hselect]; rfl))).elim
      | cons hfirst hothers => exact ⟨_, _, _, hfirst, ⟨_, hothers, rfl⟩, rfl⟩

/-- An item whose wordings begin with a selected lexeme advances. -/
theorem advances {select : Token → Option β} {item : β → Rule α} (hend : select .eof = none)
    (hselected : wording.StartsIn fun token ↦ (select token).isSome)
    (hitem : ∀ (cursor : Cursor) (choice : β), cursor.Sound → depth ≤ cursor.depth →
      select cursor.current.token = some choice → Reads limit 0 more wording (item choice) cursor) :
    Advances depth select item where
  not_at_end := hend
  further := by
    intro cursor choice v later hsound hdepth hselect hresult
    cases hitem cursor choice hsound hdepth hselect with
    | read hread hmoves hsame hwritten =>
      obtain ⟨rfl, rfl⟩ := EStateM.Result.ok.inj (hread.symm.trans hresult)
      obtain ⟨lexeme, y, rfl, -⟩ := hselected _ _ hwritten
      exact ⟨hmoves.sound, hsame ▸ hdepth, hmoves.left_lt hsound (List.cons_ne_nil _ _)⟩
    | refused hfails | broken hfails | tooDeep hfails => cases hfails.symm.trans hresult

/-- A loop reads many items, each of which begins with a selected lexeme; none such follows. -/
theorem repeatOn {select : Token → Option β} {item : β → Rule α} (hend : select .eof = none)
    (hmore : ∀ token, (select token).isSome → ¬ more token)
    (hselected : wording.StartsIn fun token ↦ (select token).isSome)
    (hitem : ∀ (cursor : Cursor) (choice : β), cursor.Sound → depth ≤ cursor.depth →
      select cursor.current.token = some choice → Reads limit 0 more wording (item choice) cursor)
    (hsound : cursor.Sound) (hdepth : depth ≤ cursor.depth) :
    Reads limit 0 (fun token ↦ more token ∨ (select token).isSome) (Wording.Many wording)
      (Rule.repeatOn select item) cursor := by
  have hadvances := advances hend hselected hitem
  induction hleft : cursor.left using Nat.strongRecOn generalizing cursor with
  | ind left induct =>
    refine loop _ hselected hsound
      (fun other hother hsame ↦ repeatOn_eq hadvances other hother (hsame ▸ hdepth))
      fun choice hselect ↦ ?_
    refine followed hselected hmore (hitem cursor choice hsound hdepth hselect)
      (fun _ _ _ ↦ Nat.zero_le _) ?_
    intro x v later hmoves hsame hwritten
    obtain ⟨lexeme, y, rfl, -⟩ := hselected _ _ hwritten
    have hless := hmoves.left_lt hsound (List.cons_ne_nil _ _)
    exact induct later.left (hleft ▸ hless) hmoves.sound (hsame ▸ hdepth) rfl

/-- A loop that goes on as long as one kind of lexeme stands in sight. -/
theorem repeatOnKind {kind : Token.Kind} {item : Rule α} (hkind : kind ≠ .eof)
    (hmore : ∀ token : Token, token.kind = kind → ¬ more token)
    (hstarts : wording.StartsIn (·.kind = kind))
    (hitem : ∀ cursor : Cursor, cursor.Sound → depth ≤ cursor.depth →
      cursor.current.token.kind = kind → Reads limit 0 more wording item cursor)
    (hsound : cursor.Sound) (hdepth : depth ≤ cursor.depth) :
    Reads limit 0 (fun token ↦ more token ∨ token.kind = kind) (Wording.Many wording)
      (Rule.repeatOn (onKind kind) fun _ ↦ item) cursor := by
  have hend : onKind kind .eof = none := if_neg fun h ↦ hkind h.symm
  simp only [← @onKind_isSome kind] at hmore hstarts ⊢
  refine repeatOn hend hmore hstarts ?_ hsound hdepth
  intro later choice hlater hdepth hselect
  exact hitem later hlater hdepth (onKind_isSome.1 (Option.isSome_of_eq_some hselect))

/-- Items with marks between them. -/
theorem separated {sign : Mark} {item : Rule α} (hmore : ¬ more (.mark sign))
    (hbegins : wording.Begins [])
    (hitem : ∀ cursor : Cursor, cursor.Sound → depth ≤ cursor.depth →
      Reads limit 0 more wording item cursor)
    (hsound : cursor.Sound) (hdepth : depth ≤ cursor.depth) :
    Reads limit 0 (fun token ↦ more token ∨ token.kind = .mark sign)
      (Wording.Separated sign wording) (Rule.separated (.mark sign) item) cursor := by
  have hother (token : Token) (hkind : token.kind = .mark sign) : ¬ more token := by
    rw [Token.eq_mark_of_kind hkind]
    exact hmore
  have hstarts := Wording.marked_starts sign wording
  have hmarked (cursor : Cursor) (hsound : cursor.Sound) (hdepth : depth ≤ cursor.depth)
      (hkind : cursor.current.token.kind = .mark sign) :
      Reads limit 0 more (wording.Marked sign) (Rule.advance >>= fun _ ↦ item) cursor := by
    have hgoing := Token.ne_eof_of_kind hkind Token.Kind.noConfusion
    refine andThen (advance hsound hgoing hkind) ?_ (fun _ _ _ ↦ hbegins)
      (fun _ _ _ ↦ Nat.zero_le _)
    intro x v later hmoves hsame _
    exact hitem later hmoves.sound (hsame ▸ hdepth)
  refine of_iff (fun _ _ ↦ Wording.followed_marked_iff)
    (followed hstarts hother (hitem cursor hsound hdepth) (fun _ _ _ ↦ Nat.zero_le _) ?_)
  intro x v later hmoves hsame _
  exact repeatOnKind Token.Kind.noConfusion hother hstarts hmarked hmoves.sound (hsame ▸ hdepth)

end Reads

end Rule

/-- A link is a selected operator and an operand. -/
def Wording.Linked (select : Token → Option Operator) (wording : Wording Expression) :
    Wording Rule.Link :=
  fun x link ↦ ∃ lexeme y operator right, x = lexeme :: y ∧
    select lexeme.token = some operator ∧ wording y right ∧
      link = ⟨operator, lexeme.position.line, right⟩

theorem Wording.linked_starts (select : Token → Option Operator) (wording : Wording Expression) :
    (wording.Linked select).StartsIn fun token ↦ (select token).isSome := by
  rintro x link ⟨lexeme, y, operator, right, rfl, hlexeme, -⟩
  exact ⟨lexeme, y, rfl, Option.isSome_of_eq_some hlexeme⟩

/-! ### Operator chains -/

namespace Rule

/-- The links of a chain, the levels that they opened closed again. -/
def links (limit : Nat) (select : Token → Option Operator) (operand : Rule Expression) :
    Rule (List Link) := do
  let links ← repeatOn select fun operator ↦ do
    descend limit
    let line := (← advance).position.line
    return (⟨operator, line, ← operand⟩ : Link)
  ascend links.length
  return links

theorem chain_eq (limit : Nat) (select : Token → Option Operator) (operand : Rule Expression) :
    chain limit select operand = operand >>= fun first ↦ links limit select operand >>= fun ls ↦
      pure (ls.foldl Link.join first) := by
  simp [chain, links]

theorem ascend_add (before after : Nat) :
    ascend (before + after) = ascend before >>= fun _ ↦ ascend after := by
  funext cursor
  change EStateM.Result.ok () { cursor with depth := cursor.depth - (before + after) } =
    .ok () { cursor with depth := cursor.depth - before - after }
  rw [Nat.sub_sub]

/-- An operator and the operand behind it. -/
def linked (operand : Rule Expression) (operator : Operator) : Rule Link := do
  let lexeme ← advance
  let right ← operand
  return ⟨operator, lexeme.position.line, right⟩

/-- A link, the level that it opened left open. -/
def link (limit : Nat) (operand : Rule Expression) (operator : Operator) : Rule Link := do
  descend limit
  linked operand operator

theorem links_eq_repeatOn (limit : Nat) (select : Token → Option Operator)
    (operand : Rule Expression) :
    links limit select operand = repeatOn select (link limit operand) >>= fun ls ↦
      ascend ls.length >>= fun _ ↦ pure ls := rfl

/-- Links behind a first one. -/
def linksFrom (limit : Nat) (select : Token → Option Operator) (operand : Rule Expression)
    (operator : Operator) : Rule (List Link) := do
  let first ← linked operand operator
  let others ← links limit select operand
  return first :: others

/-- The links that an operator begins, read one level deeper than the operator. -/
def linksBehind (limit : Nat) (select : Token → Option Operator) (operand : Rule Expression)
    (operator : Operator) : Rule (List Link) := do
  descend limit
  let ls ← linksFrom limit select operand operator
  ascend 1
  return ls

theorem links_eq {depth limit : Nat} {select : Token → Option Operator} {operand : Rule Expression}
    (hadvances : Advances depth select (link limit operand)) (cursor : Cursor)
    (hsound : cursor.Sound) (hdepth : depth ≤ cursor.depth) :
    links limit select operand cursor =
      match select cursor.current.token with
      | none => .ok [] cursor
      | some operator => linksBehind limit select operand operator cursor := by
  have hunfold := repeatOn_eq hadvances cursor hsound hdepth
  rw [links_eq_repeatOn]
  cases hselect : select cursor.current.token with
  | none =>
    rw [hselect] at hunfold
    rw [bind_of_ok hunfold]
    rfl
  | some operator =>
    rw [hselect] at hunfold
    have hcongr {γ : Type} (next : List Link → Rule γ) :
        (repeatOn select (link limit operand) >>= next) cursor =
          ((link limit operand operator >>= fun v ↦ repeatOn select (link limit operand) >>=
            fun vs ↦ pure (v :: vs)) >>= next) cursor := by
      change EStateM.bind _ next cursor = EStateM.bind _ next cursor
      simp only [EStateM.bind, hunfold]
    have hregroup : ((link limit operand operator >>= fun v ↦ repeatOn select (link limit operand)
          >>= fun vs ↦ pure (v :: vs)) >>= fun ls ↦ ascend ls.length >>= fun _ ↦ pure ls) =
        linksBehind limit select operand operator := by
      simp [link, linksBehind, linksFrom, links_eq_repeatOn, ascend_add]
    rw [hcongr]
    exact congrFun hregroup cursor

namespace Reads

variable {limit depth : Nat} {more : Token → Prop} {wording : Wording Expression} {cursor : Cursor}

theorem linked {select : Token → Option Operator} {operand : Rule Expression} {operator : Operator}
    (hend : select .eof = none) (hbegins : wording.Begins [])
    (hoperand : ∀ cursor : Cursor, cursor.Sound → depth ≤ cursor.depth →
      Reads limit 0 more wording operand cursor)
    (hsound : cursor.Sound) (hdepth : depth ≤ cursor.depth)
    (hselect : select cursor.current.token = some operator) :
    Reads limit 1 more (wording.Linked select) (Rule.linked operand operator) cursor := by
  have hgoing : cursor.current.token ≠ .eof := by
    intro heof
    rw [heof, hend] at hselect
    cases hselect
  have hthen : Reads limit 1 more
      ((Wording.Single (select ·.token = some operator)).Then fun lexeme ↦ fun x link ↦ ∃ right,
        wording x right ∧ link = ⟨operator, lexeme.position.line, right⟩)
      (Rule.linked operand operator) cursor := by
    refine andThen (advance hsound hgoing hselect) ?_ ?_ ?_
    · intro x lexeme later hmoves hsame _
      exact map (fun right ↦ (⟨operator, lexeme.position.line, right⟩ : Link))
        (hoperand later hmoves.sound (hsame ▸ hdepth))
    · intro x lexeme _
      obtain ⟨y, right, hwritten, hstarts⟩ := hbegins
      exact ⟨y, ⟨operator, lexeme.position.line, right⟩, ⟨right, hwritten, rfl⟩, hstarts⟩
    · rintro x lexeme ⟨rfl, -⟩
      simp
  refine of_agrees ?_ (fun _ h ↦ h) ?_ hthen
  · rintro x link ⟨_, lexeme, y, ⟨rfl, hlexeme⟩, ⟨right, hwritten, rfl⟩, rfl⟩
    exact ⟨lexeme, y, operator, right, rfl, hlexeme, hwritten, rfl⟩
  · rintro y link z ⟨lexeme, x, other, right, rfl, hlexeme, hwritten, rfl⟩ _ hhead
    have hcurrent : lexeme = cursor.current := Option.some.inj hhead
    rw [hcurrent, hselect] at hlexeme
    cases hlexeme
    rw [hcurrent]
    exact ⟨[cursor.current], cursor.current, x, ⟨rfl, hselect⟩, ⟨right, hwritten, rfl⟩, rfl⟩

/-- A link advances, because it consumes its operator. -/
theorem advances_link {select : Token → Option Operator} {operand : Rule Expression}
    (hend : select .eof = none) (hbegins : wording.Begins [])
    (hoperand : ∀ cursor : Cursor, cursor.Sound → depth ≤ cursor.depth →
      Reads limit 0 more wording operand cursor) :
    Advances depth select (link limit operand) where
  not_at_end := hend
  further := by
    intro cursor operator v later hsound hdepth hselect hresult
    by_cases hlimit : cursor.depth < limit
    · rw [link, bind_of_ok (descend_of_lt hlimit)] at hresult
      have hdeeper : depth ≤ cursor.depth + 1 := Nat.le_succ_of_le hdepth
      cases linked hend hbegins hoperand (hsound.withDepth (cursor.depth + 1)) hdeeper hselect with
      | @read w last x hread hmoves hsame hwritten =>
        obtain ⟨rfl, rfl⟩ := EStateM.Result.ok.inj (hread.symm.trans hresult)
        obtain ⟨lexeme, y, other, right, rfl, -⟩ := hwritten
        have hlower := hmoves.withDepth cursor.depth last.depth
        exact ⟨hmoves.sound, hsame ▸ hdeeper, hlower.left_lt hsound (List.cons_ne_nil _ _)⟩
      | refused hfails | broken hfails | tooDeep hfails => cases hfails.symm.trans hresult
    · rw [link, bind_of_error (descend_of_le (Nat.not_lt.1 hlimit))] at hresult
      cases hresult

/-- The links of a chain. Each counts as one level for those behind it. -/
theorem links {select : Token → Option Operator} {operand : Rule Expression}
    (hend : select .eof = none) (hmore : ∀ token, (select token).isSome → ¬ more token)
    (hbegins : wording.Begins [])
    (hoperand : ∀ cursor : Cursor, cursor.Sound → depth ≤ cursor.depth →
      Reads limit 0 more wording operand cursor)
    (hsound : cursor.Sound) (hdepth : depth ≤ cursor.depth) :
    Reads limit 0 (fun token ↦ more token ∨ (select token).isSome)
      (Wording.Many (wording.Linked select)) (Rule.links limit select operand) cursor := by
  have hadvances := advances_link hend hbegins hoperand
  have hlinked := wording.linked_starts select
  induction hleft : cursor.left using Nat.strongRecOn generalizing cursor with
  | ind left induct =>
    have hbehind (operator : Operator) (hselect : select cursor.current.token = some operator) :
        Reads limit 1 (fun token ↦ more token ∨ (select token).isSome)
          ((wording.Linked select).Followed (wording.Linked select) List.cons)
          (linksFrom limit select operand operator) { cursor with depth := cursor.depth + 1 } := by
      have hdeeper : depth ≤ cursor.depth + 1 := Nat.le_succ_of_le hdepth
      refine followed hlinked hmore
        (linked hend hbegins hoperand (hsound.withDepth _) hdeeper hselect) ?_ ?_
      · intro x link hwritten
        obtain ⟨lexeme, y, rfl, -⟩ := hlinked x link hwritten
        simp
      · intro x link later hmoves hsame hwritten
        obtain ⟨lexeme, y, rfl, -⟩ := hlinked x link hwritten
        have hless := (hmoves.withDepth cursor.depth later.depth).left_lt hsound
          (List.cons_ne_nil _ _)
        exact induct later.left (hleft ▸ hless) hmoves.sound (hsame ▸ hdeeper) rfl
    refine loop (linksBehind limit select operand) hlinked hsound ?_ fun operator hselect ↦
      level id hsound ?_ (fun c hc ↦ bind_of_error (descend_of_le hc)) fun _ ↦
        hbehind operator hselect
    · intro other hother hsame
      rw [links_eq hadvances other hother (hsame ▸ hdepth)]
      cases select other.current.token <;> rfl
    · intro c hc
      rw [linksBehind, bind_of_ok (descend_of_lt hc)]
      cases hresult : linksFrom limit select operand operator { c with depth := c.depth + 1 } with
      | ok ls later => exact bind_of_ok hresult
      | error fault later => exact bind_of_error hresult

theorem chain {select : Token → Option Operator} {operand : Rule Expression}
    (hend : select .eof = none) (hmore : ∀ token, (select token).isSome → ¬ more token)
    (hbegins : wording.Begins [])
    (hoperand : ∀ cursor : Cursor, cursor.Sound → depth ≤ cursor.depth →
      Reads limit 0 more wording operand cursor)
    (hsound : cursor.Sound) (hdepth : depth ≤ cursor.depth) :
    Reads limit 0 (fun token ↦ more token ∨ (select token).isSome)
      (wording.Followed (wording.Linked select) fun first ls ↦ ls.foldl Link.join first)
      (Rule.chain limit select operand) cursor := by
  rw [chain_eq]
  refine followed (wording.linked_starts select) hmore (hoperand cursor hsound hdepth)
    (fun _ _ _ ↦ Nat.zero_le _) ?_
  intro x first later hmoves hsame _
  exact links hend hmore hbegins hoperand hmoves.sound (hsame ▸ hdepth)

end Reads

end Rule

end MiniPascal
