import MiniPascal.Proofs.Action

/-!
# Actions step by step

An action is known by its result and the state that it leaves. A `Script` is an action as data: the
request with which it begins, and how it goes on with the answer. What a request does to the state
is given apart from the script, so the same script can be performed (`Script.perform`) and followed
(`Script.Reaches`): by which states it comes on the way, and what is still to be done there.

`Script.Throughout` says what holds at every request and at the end. It is proved of a script part
by part (`Throughout.bind`), also where a part goes on behind a fault of another
(`Throughout.attempt`), and it is true of all that the script comes by (`Throughout.of_reaches`), so
of the state where it succeeds or fails (`Throughout.of_ok`, `Throughout.of_error`).
-/

set_option autoImplicit false
set_option relaxedAutoImplicit false

namespace MiniPascal

inductive Script (Request : Type) (Answer : Request → Type) (Fault α : Type) where
  | done (outcome : Except Fault α)
  | step (request : Request) (next : Answer request → Script Request Answer Fault α)

namespace Script

variable {Request : Type} {Answer : Request → Type} {Fault σ α β : Type}
  {act : (request : Request) → EStateM Fault σ (Answer request)}

/-- Goes on with the outcome, be it a value or a fault. -/
def attempt (first : Script Request Answer Fault α)
    (next : Except Fault α → Script Request Answer Fault β) : Script Request Answer Fault β :=
  match first with
  | done outcome => next outcome
  | step request later => step request fun answer ↦ (later answer).attempt next

/-- Goes on with a value, and ends with a fault. -/
def bind (first : Script Request Answer Fault α) (second : α → Script Request Answer Fault β) :
    Script Request Answer Fault β :=
  first.attempt fun outcome ↦
    match outcome with
    | .ok value => second value
    | .error fault => done (.error fault)

instance : Monad (Script Request Answer Fault) where
  pure value := done (.ok value)
  bind := bind

/-- A request by itself. -/
def single (request : Request) : Script Request Answer Fault (Answer request) :=
  step request fun answer ↦ done (.ok answer)

/-- The action of a script, where `act` is the action of a request. -/
def perform (act : (request : Request) → EStateM Fault σ (Answer request)) :
    Script Request Answer Fault α → EStateM Fault σ α
  | done (.ok value) => pure value
  | done (.error fault) => throw fault
  | step request next => do (next (← act request)).perform act

@[simp] theorem perform_pure (value : α) :
    (pure value : Script Request Answer Fault α).perform act = pure value := rfl

theorem perform_single (request : Request) :
    (single request : Script Request Answer Fault _).perform act = act request := bind_pure _

@[simp] theorem perform_bind (first : Script Request Answer Fault α)
    (second : α → Script Request Answer Fault β) :
    (first >>= second).perform act =
      first.perform act >>= fun value ↦ (second value).perform act := by
  change (first.bind second).perform act = _
  induction first with
  | done outcome => cases outcome <;> rfl
  | step request next induct =>
    rw [perform, bind_assoc]
    exact congrArg _ (funext induct)

/-! ### On the way -/

/-- On its way from one state the script comes by another, where the rest is still to be done. -/
inductive Reaches (act : (request : Request) → EStateM Fault σ (Answer request)) :
    Script Request Answer Fault α → σ → Script Request Answer Fault α → σ → Prop
  | here {script : Script Request Answer Fault α} {state : σ} :
      Reaches act script state script state
  | later {request : Request} {next : Answer request → Script Request Answer Fault α}
      {rest : Script Request Answer Fault α} {answer : Answer request} {state between moment : σ} :
      act request state = .ok answer between → Reaches act (next answer) between rest moment →
        Reaches act (step request next) state rest moment

variable {script rest : Script Request Answer Fault α} {state moment later : σ}

theorem reaches_of_ok {value : α} (hok : script.perform act state = .ok value later) :
    script.Reaches act state (done (.ok value)) later := by
  induction script generalizing state with
  | done outcome =>
    cases outcome with
    | ok other =>
      obtain ⟨rfl, rfl⟩ := EStateM.Result.ok.inj hok
      exact .here
    | error fault => cases hok
  | step request next induct =>
    obtain ⟨answer, between, hfirst, hrest⟩ := ok_of_bind_ok hok
    exact .later hfirst (induct answer hrest)

/-- A script fails at its end, or at a request that fails. -/
theorem reaches_of_error {fault : Fault} (herror : script.perform act state = .error fault later) :
    script.Reaches act state (done (.error fault)) later ∨
      ∃ request next moment, script.Reaches act state (step request next) moment ∧
        act request moment = .error fault later := by
  induction script generalizing state with
  | done outcome =>
    cases outcome with
    | ok value => cases herror
    | error other =>
      obtain ⟨rfl, rfl⟩ := EStateM.Result.error.inj herror
      exact .inl .here
  | step request next induct =>
    cases hfirst : act request state with
    | ok answer between =>
      rw [perform, bind_of_ok hfirst] at herror
      refine (induct answer herror).imp (.later hfirst) ?_
      rintro ⟨failing, rest, moment, hreaches, hfails⟩
      exact ⟨failing, rest, moment, .later hfirst hreaches, hfails⟩
    | error other between =>
      rw [perform, bind_of_error hfirst] at herror
      obtain ⟨rfl, rfl⟩ := EStateM.Result.error.inj herror
      exact .inr ⟨request, next, state, .here, hfirst⟩

/-- An attempt goes on from where the first part ends. -/
theorem perform_attempt {first : Script Request Answer Fault α} {outcome : Except Fault α}
    (hreaches : first.Reaches act state (done outcome) later)
    (next : Except Fault α → Script Request Answer Fault β) :
    (first.attempt next).perform act state = (next outcome).perform act later := by
  generalize hend : done outcome = rest at hreaches
  induction hreaches with
  | here =>
    subst hend
    rfl
  | later hok hreaches induct =>
    rw [attempt, perform, bind_of_ok hok]
    exact induct hend

/-! ### What holds throughout -/

/-- Something always holds at each request and at the end. What is asked of a request holds where
the request is made, and what is due of the outcome where the script ends. -/
def Throughout (act : (request : Request) → EStateM Fault σ (Answer request)) (always : σ → Prop)
    (asked : Request → σ → Prop) (due : Except Fault α → σ → Prop) :
    Script Request Answer Fault α → σ → Prop
  | done outcome, state => always state ∧ due outcome state
  | step request next, state =>
    always state ∧ asked request state ∧ ∀ answer later, act request state = .ok answer later →
      (next answer).Throughout act always asked due later

namespace Throughout

variable {always wider : σ → Prop} {asked : Request → σ → Prop} {due : Except Fault α → σ → Prop}
  {due' : Except Fault β → σ → Prop}

theorem now (hscript : script.Throughout act always asked due state) : always state := by
  cases script with
  | done outcome => exact hscript.1
  | step request next => exact hscript.1

theorem of_reaches (hscript : script.Throughout act always asked due state)
    (hreaches : script.Reaches act state rest moment) :
    rest.Throughout act always asked due moment := by
  induction hreaches with
  | here => exact hscript
  | later hok hreaches induct => exact induct (hscript.2.2 _ _ hok)

theorem of_ok {value : α} (hscript : script.Throughout act always asked due state)
    (hok : script.perform act state = .ok value later) : always later ∧ due (.ok value) later :=
  hscript.of_reaches (reaches_of_ok hok)

theorem of_error {fault : Fault} (hscript : script.Throughout act always asked due state)
    (herror : script.perform act state = .error fault later) :
    (always later ∧ due (.error fault) later) ∨
      ∃ request moment, asked request moment ∧ act request moment = .error fault later := by
  refine (reaches_of_error herror).imp hscript.of_reaches ?_
  rintro ⟨request, next, moment, hreaches, hfails⟩
  exact ⟨request, moment, (hscript.of_reaches hreaches).2.1, hfails⟩

/-- What follows an attempt may keep less than the attempt. -/
theorem attempt {next : Except Fault α → Script Request Answer Fault β}
    (hfirst : script.Throughout act always asked due state)
    (hwider : ∀ state, always state → wider state)
    (hnext : ∀ outcome later, always later → due outcome later →
      (next outcome).Throughout act wider asked due' later) :
    (script.attempt next).Throughout act wider asked due' state := by
  induction script generalizing state with
  | done outcome => exact hnext outcome state hfirst.1 hfirst.2
  | step request later induct =>
    obtain ⟨hnow, hasked, hlater⟩ := hfirst
    exact ⟨hwider state hnow, hasked, fun answer between hok ↦
      induct answer (hlater answer between hok)⟩

theorem bind {second : α → Script Request Answer Fault β}
    (hfirst : script.Throughout act always asked due state)
    (hwider : ∀ state, always state → wider state)
    (hsecond : ∀ value later, always later → due (.ok value) later →
      (second value).Throughout act wider asked due' later)
    (hfault : ∀ fault later, due (.error fault) later → due' (.error fault) later) :
    (script >>= second).Throughout act wider asked due' state := by
  refine hfirst.attempt hwider fun outcome later hlater hdue ↦ ?_
  cases outcome with
  | ok value => exact hsecond value later hlater hdue
  | error fault => exact ⟨hwider later hlater, hfault fault later hdue⟩

theorem mono {due' : Except Fault α → σ → Prop}
    (hscript : script.Throughout act always asked due state)
    (hwider : ∀ state, always state → wider state)
    (hdue : ∀ outcome later, due outcome later → due' outcome later) :
    script.Throughout act wider asked due' state := by
  induction script generalizing state with
  | done outcome => exact hscript.imp (hwider state) (hdue outcome state)
  | step request next induct =>
    obtain ⟨hnow, hasked, hnext⟩ := hscript
    exact ⟨hwider state hnow, hasked, fun answer later hok ↦ induct answer (hnext answer later hok)⟩

theorem single {request : Request} {answer : Answer request}
    {due : Except Fault (Answer request) → σ → Prop} (halways : always state)
    (hasked : asked request state) (hok : act request state = .ok answer later)
    (hlater : always later) (hdue : due (.ok answer) later) :
    (Script.single request).Throughout act always asked due state := by
  refine ⟨halways, hasked, fun answer' later' hok' ↦ ?_⟩
  cases hok.symm.trans hok'
  exact ⟨hlater, hdue⟩

end Throughout

end Script

end MiniPascal
