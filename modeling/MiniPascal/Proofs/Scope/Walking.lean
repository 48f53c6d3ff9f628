import MiniPascal.Proofs.Action
import MiniPascal.Proofs.Scope.Following
import MiniPascal.Proofs.Scope.Scoping
import Mathlib.Data.List.Forall2

/-!
# Walks and checks

A walk opens scopes, files symbols in them and closes them again; a check passes frames down.
`Ends` says that they go together: where the check finds a fault, the walk fails with the same
fault, and where it finds none, the walk succeeds and the open scopes follow the frames that are
passed on. It is put together as walks and checks are, by `Ends.bind`, and there is one lemma for
each operation of a walk.
-/

set_option autoImplicit false
set_option relaxedAutoImplicit false

namespace MiniPascal

open Scopes (Follow)

variable {α β : Type} {env middle later outer : Environment} {frame : Frame}

/-- From open scopes that follow `env`, the action ends as the check does, and after a success the
open scopes follow `later`. -/
def Ends (env : Environment) (action : Walk α) (check : Except ScopeFault Unit)
    (later : Environment) (good : α → Prop) : Prop :=
  ∀ before : Walker, Follow before.scopes.live env →
    (check = .ok () ∧
      ∃ v after, action before = .ok v after ∧ Follow after.scopes.live later ∧ good v) ∨
    ∃ fault after, check = .error fault ∧ action before = .error fault after

namespace Ends

variable {first : Walk α} {second : α → Walk β} {check check' : Except ScopeFault Unit}
  {good better : α → Prop} {good' : β → Prop}

theorem mono (hends : Ends env first check later good) (hbetter : ∀ v, good v → better v) :
    Ends env first check later better := by
  intro before hfollow
  rcases hends before hfollow with ⟨hcheck, v, after, hok, hafter, hgood⟩ | hfails
  · exact .inl ⟨hcheck, v, after, hok, hafter, hbetter v hgood⟩
  · exact .inr hfails

theorem pure {v : α} (hgood : good v) : Ends env (Pure.pure v) (.ok ()) env good :=
  fun before hfollow ↦ .inl ⟨rfl, v, before, rfl, hfollow, hgood⟩

theorem throw {fault : ScopeFault} :
    Ends env (MonadExcept.throw fault : Walk α) (.error fault) later good :=
  fun before _ ↦ .inr ⟨fault, before, rfl, rfl⟩

theorem bind (hfirst : Ends env first check middle good)
    (hsecond : ∀ v, good v → Ends middle (second v) check' later good') :
    Ends env (first >>= second) (do check; check') later good' := by
  intro before hfollow
  rcases hfirst before hfollow with ⟨rfl, v, between, hok, hbetween, hgood⟩ |
    ⟨fault, after, rfl, hfails⟩
  · rw [bind_of_ok hok]
    exact hsecond v hgood between hbetween
  · exact .inr ⟨fault, after, rfl, bind_of_error hfails⟩

/-- An action that always succeeds, in front of another. -/
theorem andThen (hfirst : Ends env first (.ok ()) middle good)
    (hsecond : ∀ v, good v → Ends middle (second v) check later good') :
    Ends env (first >>= second) check later good' :=
  hfirst.bind hsecond

/-- An action that always succeeds, behind another. -/
theorem followed (hfirst : Ends env first check middle good)
    (hsecond : ∀ v, good v → Ends middle (second v) (.ok ()) later good') :
    Ends env (first >>= second) check later good' := by
  have hends := hfirst.bind hsecond
  cases check <;> exact hends

theorem get {next : Walker → Walk α}
    (hnext : ∀ walker, Follow walker.scopes.live env → Ends env (next walker) check later good) :
    Ends env (MonadState.get >>= next) check later good :=
  fun before hfollow ↦ hnext before hfollow before hfollow

theorem modify {change : Walker → Walker}
    (hchange : ∀ walker, Follow walker.scopes.live env → Follow (change walker).scopes.live later) :
    Ends env (MonadState.modifyGet fun s ↦ ((), change s)) (.ok ()) later (fun _ ↦ True) :=
  fun before hfollow ↦ .inl ⟨rfl, (), change before, rfl, hchange before hfollow, trivial⟩

theorem forM {γ : Type} {items : List γ} {action : γ → Walk PUnit}
    (haction : ∀ item, Ends env (action item) (.ok ()) env (fun _ ↦ True)) :
    Ends env (items.forM action) (.ok ()) env (fun _ ↦ True) := by
  induction items with
  | nil => exact pure trivial
  | cons item items induct => exact (haction item).andThen fun _ _ ↦ induct

end Ends

namespace Walk

/-! ### Single scopes -/

theorem ends_record (event : Event) : Ends env (record event) (.ok ()) env (fun _ ↦ True) :=
  Ends.modify fun _ ↦ id

theorem ends_scope_last :
    Ends (frame :: outer) (scope outer.length) (.ok ()) (frame :: outer)
      (fun here ↦ here.level = outer.length ∧ here.Holds frame) := by
  refine Ends.get fun walker hfollow ↦ ?_
  obtain ⟨here, hhere, hlevel, hholds⟩ := hfollow.scope?_last
  rw [show walker.scopes.scope? outer.length = some here from hhere]
  exact Ends.pure ⟨hlevel, hholds⟩

theorem ends_scope {id : ScopeId} (hid : id < env.length) :
    Ends env (scope id) (.ok ()) env (fun _ ↦ True) := by
  refine Ends.get fun walker hfollow ↦ ?_
  rw [← hfollow.length_eq] at hid
  rw [show walker.scopes.scope? id = some _ from List.getElem?_eq_getElem hid]
  exact Ends.pure trivial

theorem ends_push (name : String) :
    Ends (frame :: outer) (push name outer.length) (.ok ()) ([] :: frame :: outer)
      (fun id ↦ id = outer.length + 1) := by
  refine ends_scope_last.andThen fun here hhere ↦ Ends.get fun walker hfollow ↦ ?_
  refine (ends_record _).andThen fun _ _ ↦ ?_
  refine (Ends.modify fun walker hfollow ↦ ?_).andThen fun _ _ ↦ Ends.pure hfollow.length_eq
  rw [hhere.1]
  exact hfollow.opened name

theorem ends_pop (hne : outer ≠ []) :
    Ends (frame :: outer) (pop outer.length) (.ok ()) outer (fun _ ↦ True) := by
  refine ends_scope_last.andThen fun here _ ↦ (ends_record _).andThen fun _ _ ↦ ?_
  refine (Ends.modify fun walker hfollow ↦ ?_).andThen fun _ _ ↦ Ends.pure trivial
  exact hfollow.closed hne

/-! ### Filing symbols -/

theorem ends_define_new {binding : Binding} {symbol : Symbol} (hfiled : binding.Filed symbol)
    (hnew : binding.name ∉ frame.names) :
    Ends (frame :: outer) (define outer.length symbol) (.ok ()) ((frame ++ [binding]) :: outer)
      (fun _ ↦ True) := by
  refine ends_scope_last.andThen fun here _ ↦ (ends_record _).andThen fun _ _ ↦ ?_
  exact Ends.modify fun walker hfollow ↦ hfollow.defined_new hfiled hnew

theorem ends_define_again {inner : Frame} {binding : Binding} {symbol : Symbol}
    (hfiled : binding.Filed symbol) (hfound : frame.binding? binding.name = some binding) :
    Ends (inner :: frame :: outer) (define outer.length symbol) (.ok ()) (inner :: frame :: outer)
      (fun _ ↦ True) := by
  have hid : outer.length < (inner :: frame :: outer).length :=
    Nat.lt_add_right 1 (Nat.lt_succ_self _)
  refine (ends_scope hid).andThen fun here _ ↦ (ends_record _).andThen fun _ _ ↦ ?_
  exact Ends.modify fun walker hfollow ↦ hfollow.defined_again hfiled hfound

theorem ends_lookupOnly (name : String) :
    Ends (frame :: outer) (lookupOnly outer.length name) (.ok ()) (frame :: outer)
      (fun found ↦ Option.Rel Binding.Filed (frame.binding? name) found) := by
  refine ends_scope_last.andThen fun here hhere ↦ (ends_record _).andThen fun _ _ ↦ ?_
  exact Ends.pure (hhere.2 name)

theorem ends_declare {binding : Binding} {symbol : Symbol} (hfiled : binding.Filed symbol)
    (line : Nat) :
    Ends (frame :: outer) (declare outer.length symbol line)
      (Scoping.fresh frame binding.name line) ((frame ++ [binding]) :: outer)
      (fun _ ↦ binding.name ∉ frame.names) := by
  refine (ends_lookupOnly symbol.name).andThen fun found hfound ↦ ?_
  rw [hfiled.name_eq] at hfound
  cases hbinding : frame.binding? binding.name with
  | none =>
    rw [hbinding] at hfound
    cases hfound
    have hnew := Frame.binding?_eq_none_iff.1 hbinding
    rw [Scoping.fresh, if_neg hnew]
    exact (ends_define_new hfiled hnew).mono fun _ _ ↦ hnew
  | some other =>
    rw [hbinding] at hfound
    cases hfound
    rw [Scoping.fresh, if_pos (Frame.mem_names_of_binding? hbinding), ← hfiled.name_eq]
    exact Ends.throw

/-! ### Finding symbols -/

theorem ends_resolve (name : String) :
    Ends (frame :: outer) (resolve outer.length name) (.ok ()) (frame :: outer)
      (fun found ↦ Option.Rel Scopes.Follow.Matches (Environment.nearest (frame :: outer) name)
        found) := by
  refine ends_scope_last.andThen fun _ _ ↦ Ends.get fun walker hfollow ↦ ?_
  refine (Ends.forM fun visited ↦ ends_record _).andThen fun _ _ ↦ Ends.pure ?_
  exact hfollow.resolve name

/-- The type that is found has the name that is looked for. -/
theorem ends_resolveType (named : Mention) :
    Ends (frame :: outer) (resolveType outer.length named)
      (Scoping.typeName (frame :: outer) named) (frame :: outer)
      (fun type ↦ type.name = named.name) := by
  refine (ends_resolve named.name).andThen fun found hfound ↦ ?_
  rw [Scoping.typeName]
  cases hnearest : Environment.nearest (frame :: outer) named.name with
  | none =>
    rw [hnearest] at hfound
    cases hfound
    exact Ends.throw
  | some bound =>
    rw [hnearest] at hfound
    cases hfound with
    | @some bound resolved hmatches =>
      obtain ⟨binding, level⟩ := bound
      obtain ⟨symbol, level'⟩ := resolved
      obtain ⟨hfiled, -⟩ := hmatches
      cases hfiled with
      | scalar type => exact Ends.pure (Environment.name_of_nearest hnearest)
      | var | procedure => exact Ends.throw

/-- The symbol that is found is that of the nearest binding. -/
theorem ends_resolveMention (used : Mention) :
    Ends (frame :: outer) (resolveMention outer.length used)
      (Scoping.mention (frame :: outer) used) (frame :: outer)
      (fun resolved ↦ ∃ binding, Environment.nearest (frame :: outer) used.name =
        some (binding, resolved.level) ∧ binding.Filed resolved.symbol) := by
  refine (ends_resolve used.name).andThen fun found hfound ↦ ?_
  rw [Scoping.mention]
  cases hnearest : Environment.nearest (frame :: outer) used.name with
  | none =>
    rw [hnearest] at hfound
    cases hfound
    exact Ends.throw
  | some bound =>
    rw [hnearest] at hfound
    cases hfound with
    | @some bound resolved hmatches =>
      obtain ⟨hfiled, hlevel⟩ := hmatches
      refine Ends.pure ⟨bound.1, ?_, hfiled⟩
      rw [hlevel]

/-! ### Declarations -/

/-- What is filed for a declaration has the name and the type that the declaration names. -/
structure Declares (declared : VariableDeclaration) (typed : TypedName) : Prop where
  name : typed.name = declared.mention.name
  type : typed.type.name = declared.typeName.name

theorem ends_declareVariable (declared : VariableDeclaration) :
    Ends (frame :: outer) (declareVariable outer.length declared)
      (Scoping.typedName outer frame declared) ((frame ++ [.var declared]) :: outer)
      (Declares declared) := by
  refine (ends_resolveType declared.typeName).bind fun type htype ↦ ?_
  have hfiled : (Binding.var declared).Filed (.var ⟨declared.mention.name, type⟩) :=
    .var htype.symm
  exact (ends_declare hfiled declared.mention.line).followed fun _ _ ↦ Ends.pure ⟨rfl, htype⟩

theorem ends_declareVariables (declared : List VariableDeclaration) :
    Ends (frame :: outer) (declared.mapM (declareVariable outer.length))
      (Scoping.typedNames outer frame declared) ((frame ++ declared.map .var) :: outer)
      (List.Forall₂ Declares declared) := by
  induction declared generalizing frame with
  | nil =>
    rw [List.map_nil, List.append_nil]
    exact Ends.pure .nil
  | cons first others induct =>
    rw [List.mapM_cons, Scoping.typedNames]
    refine (ends_declareVariable first).bind fun typed hfirst ↦ ?_
    refine Ends.followed induct fun further hothers ↦ ?_
    rw [List.append_assoc]
    exact Ends.pure (.cons hfirst hothers)

/-- The scope of a procedure holds its parameters, and the scope around it the procedure. -/
theorem ends_openProcedure (heading : Heading) :
    Ends (frame :: outer) (openProcedure outer.length heading)
      (do
        Scoping.fresh frame heading.name heading.line
        Scoping.typedNames ((frame ++ [.procedure heading]) :: outer) [] heading.parameters)
      (heading.parameters.map .var :: (frame ++ [.procedure heading]) :: outer)
      (fun opened ↦ opened.1 = outer.length + 1 ∧
        List.Forall₂ Declares heading.parameters opened.2) := by
  refine (ends_declare (Binding.Filed.procedure heading []) heading.line).bind fun _ hnew ↦ ?_
  refine (ends_push heading.name).andThen fun id hid ↦ ?_
  subst hid
  refine Ends.followed (ends_declareVariables heading.parameters) fun parameters hparameters ↦ ?_
  have hfound := Frame.binding?_append_of_new hnew
  refine (ends_define_again (.procedure heading parameters) hfound).andThen fun _ _ ↦ ?_
  exact Ends.pure ⟨rfl, hparameters⟩

end Walk

end MiniPascal
