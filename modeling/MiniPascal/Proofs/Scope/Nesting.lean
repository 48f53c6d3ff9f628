import MiniPascal.Proofs.Scope.Arena
import MiniPascal.Proofs.Scope.Walking

/-!
# Scopes one inside the other

While a pass goes through a block, the open scopes are those of the blocks around it, each enclosed
by the scope in front of it, and the log has entered and not left just these (`Walker.Tidy`).
`Walker.Inside` says besides which scopes stand around the innermost one, and what the log has
entered and left so far.

Each operation that a pass performs on the innermost scope keeps this in order. What it makes of the
innermost scope and of the log is one lemma for each, in terms of `Plan.Throughout`.
-/

set_option autoImplicit false
set_option relaxedAutoImplicit false

namespace MiniPascal

/-! ### What is entered and left -/

/-- What the log tells about scopes that are entered or left. -/
def Walker.brackets (walker : Walker) : List Event :=
  walker.log.toList.filter (·.severity = .debug)

/-- The scopes that are entered and not left, with their levels, before and after an event. -/
def Event.follow (entered : List (String × Nat)) : Event → List (String × Nat)
  | .entered scope level => entered ++ [(scope, level)]
  | .left _ _ => entered.dropLast
  | _ => entered

def enteredScopes (events : List Event) : List (String × Nat) := events.foldl Event.follow []

theorem enteredScopes_append (events : List Event) (event : Event) :
    enteredScopes (events ++ [event]) = event.follow (enteredScopes events) :=
  List.foldl_append

namespace Walker

variable (scopes : Scopes) (walker : Walker)

theorem brackets_push_debug {event : Event} (hdebug : event.severity = .debug) :
    brackets ⟨scopes, walker.log.push event⟩ = walker.brackets ++ [event] := by
  simp [brackets, hdebug]

theorem brackets_push_trace {event : Event} (htrace : event.severity = .trace) :
    brackets ⟨scopes, walker.log.push event⟩ = walker.brackets := by
  simp [brackets, htrace]

theorem brackets_append_sought (name : String) (visited : List Scope) :
    brackets ⟨scopes, walker.log ++
      (visited.map fun scope ↦ Event.sought name scope.name).toArray⟩ = walker.brackets := by
  simp [brackets, List.filter_map, Function.comp_def, Event.severity]

end Walker

/-! ### Order -/

/-- The index of the scope in front. -/
def Scopes.inFront : ScopeId → Option ScopeId
  | 0 => none
  | id + 1 => some id

/-- The open scopes stand one inside the other, the scalar types outermost, and they are the scopes
that the log has entered and not left. -/
structure Walker.Tidy (walker : Walker) : Prop where
  wellFormed : walker.scopes.WellFormed
  level : ∀ {id : ScopeId} {here : Scope}, walker.scopes.scope? id = some here → here.level = id
  enclosing : ∀ {id : ScopeId} {here : Scope},
    walker.scopes.scope? id = some here → here.enclosing = Scopes.inFront id
  outermost : walker.scopes.scope? 0 = Scopes.builtins.scope? 0
  entered : enteredScopes walker.brackets =
    walker.scopes.live.map fun scope ↦ (scope.name, scope.level)

namespace Walker.Tidy

variable {walker later : Walker} {id : ScopeId} {here : Scope}

theorem start : Walker.start.Tidy := by
  refine ⟨.builtins, fun {id here} hhere ↦ ?_, fun {id here} hhere ↦ ?_, rfl, rfl⟩
  · obtain rfl := Scopes.eq_zero_of_builtins hhere
    cases hhere
    rfl
  · obtain rfl := Scopes.eq_zero_of_builtins hhere
    cases hhere
    rfl

/-- What is only recorded, and is neither entering nor leaving, changes nothing. -/
theorem still (htidy : walker.Tidy) (hbrackets : later.brackets = walker.brackets)
    (hscopes : later.scopes = walker.scopes) : later.Tidy := by
  obtain ⟨hwellFormed, hlevel, henclosing, houtermost, hentered⟩ := htidy
  rw [← hscopes] at hwellFormed hlevel henclosing houtermost hentered
  exact ⟨hwellFormed, hlevel, henclosing, houtermost, by rw [hbrackets, hentered]⟩

theorem defined (htidy : walker.Tidy) (hid : id ≠ 0) (symbol : Symbol) (name : String) :
    Tidy ⟨walker.scopes.defined id symbol, walker.log.push (.defined symbol name)⟩ := by
  have hsame : ∀ {other : ScopeId} {found : Scope},
      (walker.scopes.defined id symbol).scope? other = some found →
        ∃ old, walker.scopes.scope? other = some old ∧ found.level = old.level ∧
          found.enclosing = old.enclosing := by
    intro other found hfound
    rw [Scopes.scope?_defined] at hfound
    split at hfound
    · obtain ⟨old, hold, rfl⟩ := Option.map_eq_some_iff.1 hfound
      exact ⟨old, hold, rfl, rfl⟩
    · exact ⟨found, hfound, rfl, rfl⟩
  refine ⟨htidy.wellFormed.defined id symbol, fun hfound ↦ ?_, fun hfound ↦ ?_, ?_, ?_⟩
  · obtain ⟨old, hold, hlevel, -⟩ := hsame hfound
    exact hlevel.trans (htidy.level hold)
  · obtain ⟨old, hold, -, henclosing⟩ := hsame hfound
    exact henclosing.trans (htidy.enclosing hold)
  · rw [Scopes.scope?_defined, if_neg hid, htidy.outermost]
  · rw [brackets_push_trace _ _ rfl, htidy.entered]
    refine List.ext_getElem? fun other ↦ ?_
    simp only [Scopes.defined, List.getElem?_map, List.getElem?_modify]
    cases walker.scopes.live[other]? with
    | none => rfl
    | some found => split <;> rfl

theorem opened (htidy : walker.Tidy) (hhere : walker.scopes.scope? id = some here)
    (hlast : id + 1 = walker.scopes.live.length) (name : String) :
    Tidy ⟨walker.scopes.opened ⟨name, here.level + 1, some id, Table.empty⟩,
      walker.log.push (.entered name (here.level + 1))⟩ := by
  have hlevel := htidy.level hhere
  refine ⟨htidy.wellFormed.opened hhere name, fun {other found} hfound ↦ ?_,
    fun {other found} hfound ↦ ?_, ?_, ?_⟩
  · rw [Scopes.scope?_opened] at hfound
    split at hfound
    · next hnew =>
      cases hfound
      rw [hnew, ← hlast, hlevel]
    · exact htidy.level hfound
  · rw [Scopes.scope?_opened] at hfound
    split at hfound
    · next hnew =>
      cases hfound
      rw [hnew, ← hlast, Scopes.inFront]
    · exact htidy.enclosing hfound
  · rw [Scopes.scope?_opened, if_neg (hlast ▸ (Nat.succ_ne_zero id).symm), htidy.outermost]
  · rw [brackets_push_debug _ _ rfl, enteredScopes_append, htidy.entered, Event.follow,
      Scopes.opened, List.map_append, List.map_singleton]

theorem closed (htidy : walker.Tidy) (hid : id ≠ 0) (hlast : id + 1 = walker.scopes.live.length)
    (name : String) (level : Nat) :
    Tidy ⟨walker.scopes.closed id, walker.log.push (.left name level)⟩ := by
  have hsame : ∀ {other : ScopeId} {found : Scope},
      (walker.scopes.closed id).scope? other = some found →
        walker.scopes.scope? other = some found := by
    intro other found hfound
    rw [Scopes.scope?_closed] at hfound
    split at hfound
    · exact hfound
    · cases hfound
  refine ⟨htidy.wellFormed.closed id, fun hfound ↦ htidy.level (hsame hfound),
    fun hfound ↦ htidy.enclosing (hsame hfound), ?_, ?_⟩
  · rw [Scopes.scope?_closed, if_pos (Nat.pos_of_ne_zero hid), htidy.outermost]
  · rw [brackets_push_debug _ _ rfl, enteredScopes_append, htidy.entered, Event.follow,
      Scopes.closed, List.map_take, List.dropLast_eq_take, List.length_map, ← hlast,
      Nat.add_sub_cancel]

/-- From each scope outward are the scopes in front of it. -/
theorem outward_take (htidy : walker.Tidy) (hlive : id < walker.scopes.live.length) :
    walker.scopes.Outward id (walker.scopes.live.take (id + 1)).reverse := by
  have hhere : walker.scopes.scope? id = some walker.scopes.live[id] :=
    List.getElem?_eq_getElem hlive
  have henclosing := htidy.enclosing hhere
  rw [List.take_add_one, List.getElem?_eq_getElem hlive, List.reverse_append]
  induction id with
  | zero => exact .last hhere henclosing
  | succ id induct =>
    have hfront := Nat.lt_of_succ_lt hlive
    have hnext := induct hfront (List.getElem?_eq_getElem hfront)
      (htidy.enclosing (List.getElem?_eq_getElem hfront))
    rw [List.take_add_one, List.getElem?_eq_getElem hfront, List.reverse_append]
    exact .link hhere henclosing hnext

/-- From the innermost scope outward are all the open scopes. -/
theorem outward (htidy : walker.Tidy) :
    walker.scopes.Outward (walker.scopes.live.length - 1) walker.scopes.live.reverse := by
  have hpos : 0 < walker.scopes.live.length := Scopes.lt_of_scope? htidy.outermost
  have hlast := htidy.outward_take (Nat.sub_one_lt_of_lt hpos)
  rwa [Nat.sub_add_cancel hpos, List.take_length] at hlast

end Walker.Tidy

/-! ### Inside a block -/

/-- What a pass keeps at every moment, if all that it enters and leaves is known beforehand. -/
def Walker.Orderly (total : List Event) (walker : Walker) : Prop :=
  walker.Tidy ∧ walker.brackets <+: total

/-- The innermost scope and those around it, and what the log has entered and left so far. -/
structure Walker.Inside (total passed : List Event) (around : List Scope) (own : Scope)
    (walker : Walker) : Prop where
  tidy : walker.Tidy
  live : walker.scopes.live = around ++ [own]
  brackets : walker.brackets = passed
  coming : passed <+: total

namespace Walker.Inside

variable {total passed : List Event} {around : List Scope} {own inner : Scope}
  {walker later : Walker}

theorem orderly (hinside : Inside total passed around own walker) : walker.Orderly total :=
  ⟨hinside.tidy, hinside.brackets ▸ hinside.coming⟩

theorem here (hinside : Inside total passed around own walker) :
    walker.scopes.scope? around.length = some own := by
  rw [Scopes.scope?, hinside.live, List.getElem?_concat_length]

theorem level (hinside : Inside total passed around own walker) : own.level = around.length :=
  hinside.tidy.level hinside.here

theorem last (hinside : Inside total passed around own walker) :
    around.length + 1 = walker.scopes.live.length := by
  rw [hinside.live, List.length_append, List.length_singleton]

theorem still (hinside : Inside total passed around own walker)
    (hbrackets : later.brackets = walker.brackets) (hscopes : later.scopes = walker.scopes) :
    Inside total passed around own later :=
  ⟨hinside.tidy.still hbrackets hscopes, hscopes ▸ hinside.live,
    hbrackets.trans hinside.brackets, hinside.coming⟩

end Walker.Inside

namespace Plan

open Walker

variable {total passed : List Event} {around : List Scope} {own inner : Scope} {walker : Walker}

theorem throughout_scope (hinside : Inside total passed around own walker) :
    (scope around.length).Throughout (Orderly total)
      (fun _ later ↦ Inside total passed around own later) walker :=
  .single hinside.orderly hinside.here (Walk.scope_of_scope hinside.here) hinside.orderly hinside

theorem throughout_lookupOnly (hinside : Inside total passed around own walker) (name : String) :
    (lookupOnly around.length name).Throughout (Orderly total)
      (fun found later ↦ found = own.get? name ∧ Inside total passed around own later) walker := by
  have hlater : Inside total passed around own
      ⟨walker.scopes, walker.log.push (.soughtOnly name own.name)⟩ :=
    hinside.still (brackets_push_trace _ _ rfl) rfl
  exact .single hinside.orderly hinside.here (Walk.lookupOnly_of_scope hinside.here name)
    hlater.orderly ⟨rfl, hlater⟩

/-- A symbol that is found has the name that is looked for. -/
theorem throughout_resolve (hinside : Inside total passed around own walker) (name : String) :
    (resolve around.length name).Throughout (Orderly total)
      (fun found later ↦ (∀ resolved ∈ found, resolved.symbol.name = name) ∧
        Inside total passed around own later) walker := by
  have hok := Walk.resolve_of_scope hinside.here name
  have hlater := hinside.still (brackets_append_sought walker.scopes walker name
    (walker.scopes.searched around.length name)) rfl
  refine .single hinside.orderly hinside.here hok hlater.orderly ⟨fun resolved hfound ↦ ?_, hlater⟩
  exact hinside.tidy.wellFormed.name_of_resolve hinside.here hfound

/-- A symbol can be filed in any scope but that of the scalar types. -/
theorem throughout_define_at {behind : List Scope} (horderly : walker.Orderly total)
    (hlive : walker.scopes.live = around ++ own :: behind) (haround : around ≠ [])
    (symbol : Symbol) :
    (define around.length symbol).Throughout (Orderly total)
      (fun _ later ↦ later.Tidy ∧ later.scopes.live = around ++ own.insert symbol :: behind ∧
        later.brackets = walker.brackets) walker := by
  have hhere : walker.scopes.scope? around.length = some own := by
    simp [Scopes.scope?, hlive]
  have hid : around.length ≠ 0 := fun hzero ↦ haround (List.length_eq_zero_iff.1 hzero)
  have htidy := horderly.1.defined hid symbol own.name
  have hbrackets := brackets_push_trace (walker.scopes.defined around.length symbol) walker
    (show (Event.defined symbol own.name).severity = .trace from rfl)
  have hfiled : (walker.scopes.defined around.length symbol).live =
      around ++ own.insert symbol :: behind := by
    have hin : around.length < (around ++ [own]).length := by simp
    rw [Scopes.defined, hlive, List.append_cons, Scopes.modify_inside hin, Scopes.modify_last,
      ← List.append_cons]
  exact .single horderly hhere (Walk.define_of_scope hhere symbol)
    ⟨htidy, hbrackets ▸ horderly.2⟩ ⟨htidy, hfiled, hbrackets⟩

theorem throughout_define (hinside : Inside total passed around own walker)
    (haround : around ≠ []) (symbol : Symbol) :
    (define around.length symbol).Throughout (Orderly total)
      (fun _ later ↦ Inside total passed around (own.insert symbol) later) walker := by
  refine (throughout_define_at hinside.orderly hinside.live haround symbol).mono ?_
  rintro _ later ⟨htidy, hlive, hbrackets⟩
  exact ⟨htidy, hlive, hbrackets.trans hinside.brackets, hinside.coming⟩

/-- The scope in front of the innermost one gets a symbol. -/
theorem throughout_define_outer (hinside : Inside total passed (around ++ [own]) inner walker)
    (haround : around ≠ []) (symbol : Symbol) :
    (define around.length symbol).Throughout (Orderly total)
      (fun _ later ↦ Inside total passed (around ++ [own.insert symbol]) inner later) walker := by
  have hlive : walker.scopes.live = around ++ own :: [inner] := by
    rw [hinside.live, List.append_assoc, List.singleton_append]
  refine (throughout_define_at hinside.orderly hlive haround symbol).mono ?_
  rintro _ later ⟨htidy, hlive, hbrackets⟩
  rw [List.append_cons] at hlive
  exact ⟨htidy, hlive, hbrackets.trans hinside.brackets, hinside.coming⟩

theorem throughout_push (hinside : Inside total passed around own walker) (name : String)
    (hcoming : passed ++ [.entered name (around.length + 1)] <+: total) :
    (push name around.length).Throughout (Orderly total)
      (fun id later ↦ id = around.length + 1 ∧
        Inside total (passed ++ [.entered name (around.length + 1)]) (around ++ [own])
          ⟨name, around.length + 1, some around.length, Table.empty⟩ later) walker := by
  have hpush := Walk.push_of_scope hinside.here name
  have htidy := hinside.tidy.opened hinside.here hinside.last name
  rw [hinside.level, ← hinside.last] at hpush
  rw [hinside.level] at htidy
  have hlater : Inside total (passed ++ [.entered name (around.length + 1)]) (around ++ [own])
      ⟨name, around.length + 1, some around.length, Table.empty⟩
      ⟨walker.scopes.opened ⟨name, around.length + 1, some around.length, Table.empty⟩,
        walker.log.push (.entered name (around.length + 1))⟩ := by
    refine ⟨htidy, ?_, ?_, hcoming⟩
    · rw [Scopes.opened, hinside.live]
    · rw [brackets_push_debug _ _ rfl, hinside.brackets]
  exact .single hinside.orderly hinside.here hpush hlater.orderly ⟨rfl, hlater⟩

theorem throughout_pop (hinside : Inside total passed (around ++ [own]) inner walker)
    (hcoming : passed ++ [.left inner.name (around.length + 1)] <+: total) :
    (pop (around.length + 1)).Throughout (Orderly total)
      (fun _ later ↦ Inside total (passed ++ [.left inner.name (around.length + 1)]) around own
        later) walker := by
  have hlength : (around ++ [own]).length = around.length + 1 := List.length_append
  have hhere := hinside.here
  have hlast := hinside.last
  have hlevel := hinside.level
  rw [hlength] at hhere hlast hlevel
  have hpop := Walk.pop_of_scope hhere
  rw [hlevel] at hpop
  have htidy := hinside.tidy.closed (Nat.succ_ne_zero _) hlast inner.name (around.length + 1)
  have hlater : Inside total (passed ++ [.left inner.name (around.length + 1)]) around own
      ⟨walker.scopes.closed (around.length + 1),
        walker.log.push (.left inner.name (around.length + 1))⟩ := by
    refine ⟨htidy, ?_, ?_, hcoming⟩
    · rw [Scopes.closed, hinside.live, List.take_left' hlength]
    · rw [brackets_push_debug _ _ rfl, hinside.brackets]
  exact .single hinside.orderly hhere hpop hlater.orderly hlater

end Plan

end MiniPascal
