import MiniPascal.Annotate
import MiniPascal.Proofs.Scope.Environment

/-!
# Open scopes and environments

`Scopes.Follow` says that the open scopes are the frames of an environment: the scope at each index
has this index for its level, is enclosed by the scope in front of it, and holds the symbols of its
frame. So the scopes that can be seen from the last one are all the open scopes, from the last to
the first, and a name resolves to the symbol of its nearest binding: `Follow.resolve`.

Each change of the open scopes that a walk makes is a change of the environment: a new scope is a
new frame, a symbol of a new name is a new binding at the end of a frame, and closing the last scope
leaves the frames around it.
-/

set_option autoImplicit false
set_option relaxedAutoImplicit false

namespace MiniPascal

/-! ### Symbols and bindings -/

/-- The symbol that is filed for a binding. Of a procedure nothing but the name is known before its
parameters are. -/
inductive Binding.Filed : Binding → Symbol → Prop
  | scalar (type : Scalar) : Filed (.scalar type) (.scalar type)
  | var {declared : VariableDeclaration} {type : Scalar} :
      declared.typeName.name = type.name →
        Filed (.var declared) (.var ⟨declared.mention.name, type⟩)
  | procedure (heading : Heading) (parameters : List TypedName) :
      Filed (.procedure heading) (.procedure heading.name parameters)

theorem Binding.Filed.name_eq {binding : Binding} {symbol : Symbol}
    (hfiled : binding.Filed symbol) : symbol.name = binding.name := by
  cases hfiled <;> rfl

/-- Under each name stands the symbol of the binding of that name. -/
def Scope.Holds (scope : Scope) (frame : Frame) : Prop :=
  ∀ name, Option.Rel Binding.Filed (frame.binding? name) (scope.get? name)

namespace Scope.Holds

variable {scope : Scope} {frame : Frame} {binding : Binding} {symbol : Symbol} {name : String}

theorem cases (hholds : scope.Holds frame) (name : String) :
    (frame.binding? name = none ∧ scope.get? name = none) ∨
      ∃ binding symbol, frame.binding? name = some binding ∧ scope.get? name = some symbol ∧
        binding.Filed symbol := by
  have hname := hholds name
  cases hbinding : frame.binding? name with
  | none =>
    rw [hbinding] at hname
    cases hsymbol : scope.get? name with
    | none => exact .inl ⟨rfl, rfl⟩
    | some symbol =>
      rw [hsymbol] at hname
      cases hname
  | some binding =>
    rw [hbinding] at hname
    cases hsymbol : scope.get? name with
    | none =>
      rw [hsymbol] at hname
      cases hname
    | some symbol =>
      rw [hsymbol] at hname
      exact .inr ⟨binding, symbol, rfl, rfl, Option.rel_some_some.1 hname⟩

theorem empty (name : String) (level : Nat) (enclosing : Option ScopeId) :
    Holds ⟨name, level, enclosing, Table.empty⟩ [] :=
  fun _ ↦ .none

/-- A symbol of a new name is filed behind all others. -/
theorem insert_new (hholds : scope.Holds frame) (hfiled : binding.Filed symbol)
    (hnew : binding.name ∉ frame.names) : (scope.insert symbol).Holds (frame ++ [binding]) := by
  intro name
  rw [Scope.get?_insert, hfiled.name_eq]
  by_cases hname : binding.name = name
  · subst hname
    rw [Frame.binding?_append_of_new hnew, if_pos rfl]
    exact .some hfiled
  · rw [Frame.binding?_append_of_ne binding hname, if_neg (Ne.symm hname)]
    exact hholds name

/-- A symbol that is filed once more changes nothing if it is one of the same binding. -/
theorem insert_again (hholds : scope.Holds frame) (hfiled : binding.Filed symbol)
    (hfound : frame.binding? binding.name = some binding) : (scope.insert symbol).Holds frame := by
  intro name
  rw [Scope.get?_insert, hfiled.name_eq]
  split
  · next heq =>
    rw [heq, hfound]
    exact .some hfiled
  · exact hholds name

end Scope.Holds

/-! ### Open scopes -/

namespace Scopes

/-- The open scopes are the frames of an environment, the outermost first. -/
inductive Follow : List Scope → Environment → Prop
  | outermost {scope : Scope} {frame : Frame} :
      scope.level = 0 → scope.enclosing = none → scope.Holds frame → Follow [scope] [frame]
  | inner {live : List Scope} {outer : Environment} {scope : Scope} {frame : Frame} :
      Follow live outer → scope.level = outer.length →
        scope.enclosing = some (outer.length - 1) → scope.Holds frame →
          Follow (live ++ [scope]) (frame :: outer)

theorem modify_inside {α : Type} {earlier : List α} {index : Nat} (hindex : index < earlier.length)
    (later : List α) (change : α → α) :
    (earlier ++ later).modify index change = earlier.modify index change ++ later := by
  induction earlier generalizing index with
  | nil => cases hindex
  | cons first earlier induct =>
    cases index with
    | zero => rfl
    | succ index => simp [induct (Nat.lt_of_succ_lt_succ hindex)]

theorem modify_last {α : Type} (earlier : List α) (last : α) (change : α → α) :
    (earlier ++ [last]).modify earlier.length change = earlier ++ [change last] := by
  induction earlier with
  | nil => rfl
  | cons first earlier induct => simp [induct]

theorem follow_builtins : Follow builtins.live .outermost := by
  refine .outermost rfl rfl ?_
  have hempty := Scope.Holds.empty "builtins" 0 none
  have hinteger := hempty.insert_new (.scalar .integer) (by simp [Frame.names])
  exact hinteger.insert_new (.scalar .real) (by decide)

namespace Follow

variable {live : List Scope} {env outer : Environment} {scope : Scope} {frame : Frame}
  {name : String}

theorem length_eq (hfollow : Follow live env) : live.length = env.length := by
  induction hfollow with
  | outermost => rfl
  | inner _ _ _ _ induct => rw [List.length_append, induct, List.length_singleton, List.length_cons]

theorem length_pos (hfollow : Follow live env) : 0 < env.length := by
  cases hfollow <;> exact Nat.succ_pos _

/-- The last scope, and those in front of it. -/
theorem last (hfollow : Follow live (frame :: outer)) :
    ∃ earlier scope, live = earlier ++ [scope] ∧ earlier.length = outer.length ∧
      scope.level = outer.length ∧ scope.Holds frame ∧ (outer = [] ∨ Follow earlier outer) := by
  cases hfollow with
  | outermost hlevel _ hholds => exact ⟨[], _, rfl, rfl, hlevel, hholds, .inl rfl⟩
  | inner hearlier hlevel _ hholds =>
    exact ⟨_, _, rfl, hearlier.length_eq, hlevel, hholds, .inr hearlier⟩

theorem scope?_last (hfollow : Follow live (frame :: outer)) :
    ∃ scope, Scopes.scope? ⟨live⟩ outer.length = some scope ∧ scope.level = outer.length ∧
      scope.Holds frame := by
  obtain ⟨earlier, scope, rfl, hlength, hlevel, hholds, -⟩ := hfollow.last
  refine ⟨scope, ?_, hlevel, hholds⟩
  rw [Scopes.scope?, ← hlength, List.getElem?_concat_length]

/-! ### Finding names -/

/-- From the last scope all open scopes are seen, from the last to the first. -/
theorem chain_last (hfollow : Follow live env) :
    Scopes.chain ⟨live⟩ (env.length - 1) = live.reverse := by
  induction hfollow with
  | outermost _ hnone _ =>
    rw [chain]
    simp [scope?, hnone]
  | @inner live outer scope frame hearlier _ hsome _ induct =>
    have hlast : Scopes.scope? ⟨live ++ [scope]⟩ outer.length = some scope := by
      rw [scope?, ← hearlier.length_eq, List.getElem?_concat_length]
    have hinward : outer.length - 1 < outer.length := Nat.sub_lt hearlier.length_pos Nat.one_pos
    have hrest : Scopes.chain ⟨live ++ [scope]⟩ (outer.length - 1) = live.reverse := by
      rw [← induct]
      refine chain_congr fun other hle ↦ ?_
      refine @scope?_opened_of_lt ⟨live⟩ scope other ?_
      rw [hearlier.length_eq]
      exact Nat.lt_of_le_of_lt hle hinward
    rw [List.length_cons, Nat.add_sub_cancel, chain_of_inside hlast hsome, if_pos hinward, hrest,
      List.reverse_append, List.reverse_singleton, List.singleton_append]

/-- The symbol is that of the binding, and stands at its level. -/
def Matches (found : Binding × Nat) (resolved : Resolved) : Prop :=
  found.1.Filed resolved.symbol ∧ resolved.level = found.2

theorem nearest_matches {chain : List Scope} (hlevel : scope.level = outer.length)
    (hholds : scope.Holds frame)
    (hrest : Option.Rel Matches (outer.nearest name)
      (chain.findSome? fun scope ↦ (scope.get? name).map (⟨·, scope.level⟩))) :
    Option.Rel Matches (Environment.nearest (frame :: outer) name)
      ((scope :: chain).findSome? fun scope ↦ (scope.get? name).map (⟨·, scope.level⟩)) := by
  rw [List.findSome?_cons]
  rcases hholds.cases name with ⟨hbinding, hsymbol⟩ | ⟨binding, symbol, hbinding, hsymbol, hfiled⟩
  · rw [Environment.nearest_of_none hbinding, hsymbol]
    exact hrest
  · rw [Environment.nearest_of_some hbinding, hsymbol]
    exact .some ⟨hfiled, hlevel⟩

/-- A name resolves to the symbol of its nearest binding. -/
theorem resolve (hfollow : Follow live env) (name : String) :
    Option.Rel Matches (env.nearest name) (Scopes.resolve ⟨live⟩ (env.length - 1) name) := by
  rw [Scopes.resolve, hfollow.chain_last]
  induction hfollow with
  | outermost hlevel _ hholds => exact nearest_matches hlevel hholds .none
  | inner _ hlevel _ hholds induct =>
    rw [List.reverse_append, List.reverse_singleton, List.singleton_append]
    exact nearest_matches hlevel hholds induct

/-! ### Changes -/

theorem opened (hfollow : Follow live env) (name : String) :
    Follow (Scopes.opened ⟨live⟩ ⟨name, env.length, some (env.length - 1), Table.empty⟩).live
      ([] :: env) :=
  .inner hfollow rfl rfl (.empty _ _ _)

theorem closed (hfollow : Follow live (frame :: outer)) (hne : outer ≠ []) :
    Follow (Scopes.closed ⟨live⟩ outer.length).live outer := by
  obtain ⟨earlier, scope, rfl, hlength, -, -, houter⟩ := hfollow.last
  rw [Scopes.closed, ← hlength, List.take_left]
  exact houter.resolve_left hne

/-- The last scope gets a symbol. -/
theorem defined_last {frame' : Frame} {symbol : Symbol} (hfollow : Follow live (frame :: outer))
    (hinsert : ∀ scope : Scope, scope.Holds frame → (scope.insert symbol).Holds frame') :
    Follow (Scopes.defined ⟨live⟩ outer.length symbol).live (frame' :: outer) := by
  cases hfollow with
  | outermost hlevel hnone hholds => exact .outermost hlevel hnone (hinsert _ hholds)
  | inner hearlier hlevel hsome hholds =>
    rw [Scopes.defined, ← hearlier.length_eq, modify_last]
    exact .inner hearlier hlevel hsome (hinsert _ hholds)

/-- The last scope gets a symbol of a new name. -/
theorem defined_new {binding : Binding} {symbol : Symbol} (hfollow : Follow live (frame :: outer))
    (hfiled : binding.Filed symbol) (hnew : binding.name ∉ frame.names) :
    Follow (Scopes.defined ⟨live⟩ outer.length symbol).live ((frame ++ [binding]) :: outer) :=
  hfollow.defined_last fun _ hholds ↦ hholds.insert_new hfiled hnew

/-- The scope around the last one gets a symbol once more. -/
theorem defined_again {inner : Frame} {binding : Binding} {symbol : Symbol}
    (hfollow : Follow live (inner :: frame :: outer)) (hfiled : binding.Filed symbol)
    (hfound : frame.binding? binding.name = some binding) :
    Follow (Scopes.defined ⟨live⟩ outer.length symbol).live (inner :: frame :: outer) := by
  cases hfollow with
  | @inner earlier _ _ _ hearlier hlevel hsome hholds =>
    have hinside : outer.length < earlier.length := by
      rw [hearlier.length_eq]
      exact Nat.lt_succ_self _
    have hchanged := hearlier.defined_last fun _ hholds ↦ hholds.insert_again hfiled hfound
    rw [Scopes.defined, modify_inside hinside]
    exact .inner hchanged hlevel hsome hholds

end Follow

end Scopes

end MiniPascal
