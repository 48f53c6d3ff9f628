/-!
# Actions on a state

Grammar rules act on a cursor and walks act on the open scopes; both may fail. `Yields` is what is
proved of either where it succeeds: a property of the state is kept, and the value is good. How the
properties of the parts of an action go together is stated here once, and what a primitive yields is
stated beside the primitives.
-/

set_option autoImplicit false
set_option relaxedAutoImplicit false

namespace MiniPascal

variable {ε σ α β : Type} {first : EStateM ε σ α} {second : α → EStateM ε σ β}
  {before later last : σ}

/-! ### One action after another -/

theorem bind_of_ok {v : α} (hfirst : first before = .ok v later) :
    (first >>= second) before = second v later := by
  change EStateM.bind first second before = _
  simp [EStateM.bind, hfirst]

theorem bind_of_error {fault : ε} (hfirst : first before = .error fault later) :
    (first >>= second) before = .error fault later := by
  change EStateM.bind first second before = _
  simp [EStateM.bind, hfirst]

/-- What follows an action counts only where the action succeeds. -/
theorem bind_congr_of_ok {other : α → EStateM ε σ β}
    (hsame : ∀ v later, first before = .ok v later → second v later = other v later) :
    (first >>= second) before = (first >>= other) before := by
  cases hfirst : first before with
  | ok v later => rw [bind_of_ok hfirst, bind_of_ok hfirst, hsame v later hfirst]
  | error fault later => rw [bind_of_error hfirst, bind_of_error hfirst]

theorem ok_of_bind_ok {w : β} (hok : (first >>= second) before = .ok w last) :
    ∃ v later, first before = .ok v later ∧ second v later = .ok w last := by
  cases hfirst : first before with
  | ok v later =>
    rw [bind_of_ok hfirst] at hok
    exact ⟨v, later, rfl, hok⟩
  | error fault later =>
    rw [bind_of_error hfirst] at hok
    cases hok

theorem exists_of_bind_ok {outcome : Except ε α} {next : α → Except ε β} {w : β}
    (hok : (outcome >>= next) = .ok w) : ∃ v, outcome = .ok v ∧ next v = .ok w := by
  cases outcome with
  | ok v => exact ⟨v, rfl, hok⟩
  | error fault => cases hok

/-! ### What is kept and what is yielded -/

/-- Where the action succeeds it keeps a property of the state, and its value is good. -/
def Yields (kept : σ → Prop) (good : α → Prop) (action : EStateM ε σ α) : Prop :=
  ∀ (before : σ) (v : α) (later : σ), kept before → action before = .ok v later →
    kept later ∧ good v

namespace Yields

variable {kept : σ → Prop} {good : α → Prop} {good' : β → Prop}

theorem mono {better : α → Prop} (haction : Yields kept good first)
    (hbetter : ∀ v, good v → better v) : Yields kept better first := by
  intro before v later hkept hresult
  exact (haction before v later hkept hresult).imp id (hbetter v)

theorem pure {v : α} (hgood : good v) :
    Yields kept good (Pure.pure v : EStateM ε σ α) := by
  intro before w later hkept hresult
  obtain ⟨rfl, rfl⟩ := EStateM.Result.ok.inj hresult
  exact ⟨hkept, hgood⟩

theorem bind (hfirst : Yields kept good first)
    (hsecond : ∀ v, good v → Yields kept good' (second v)) :
    Yields kept good' (first >>= second) := by
  intro before w last hkept hresult
  obtain ⟨v, later, hmiddle, hlast⟩ := ok_of_bind_ok hresult
  obtain ⟨hlater, hgood⟩ := hfirst before v later hkept hmiddle
  exact hsecond v hgood later w last hlater hlast

theorem throw {fault : ε} : Yields kept good (MonadExcept.throw fault : EStateM ε σ α) := by
  intro before v later _ hresult
  cases hresult

/-- What the next action yields may depend on all that is kept of the state. -/
theorem get {next : σ → EStateM ε σ α}
    (hnext : ∀ state, kept state → Yields kept good (next state)) :
    Yields kept good (MonadState.get >>= next) :=
  fun before v later hkept hresult ↦ hnext before hkept before v later hkept hresult

theorem modify {change : σ → σ} (hchange : ∀ state, kept state → kept (change state)) :
    Yields kept (fun _ ↦ True)
      (MonadState.modifyGet fun s ↦ ((), change s) : EStateM ε σ Unit) := by
  intro before v later hkept hresult
  obtain ⟨-, rfl⟩ := EStateM.Result.ok.inj hresult
  exact ⟨hchange before hkept, trivial⟩

theorem forM {γ : Type} {items : List γ} {action : γ → EStateM ε σ PUnit}
    (haction : ∀ item, Yields kept (fun _ ↦ True) (action item)) :
    Yields kept (fun _ ↦ True) (items.forM action) := by
  induction items with
  | nil => exact pure trivial
  | cons item items induct => exact (haction item).bind fun _ _ ↦ induct

end Yields

end MiniPascal
