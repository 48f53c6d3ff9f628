import MiniPascal.Proofs.Scope.Arena

/-!
# What an operation changes

A symbol filed in one scope is found from another exactly where that scope is in sight: on the way
outward, with no nearer scope that holds the name (`Scopes.InSight`). From everywhere else, and for
every other name, the same is found as before (`Scopes.Filed`).

Opening a scope adds it behind the others and closing one cuts the list off at its index. Links lead
to smaller indices, so what is found from a scope depends on the scopes up to its own index only
(`resolve_congr`), and neither change is seen from the scopes in front.

`operations_change_only_what_they_name` says it of the operations themselves: what declaring,
opening and closing on an open scope leave, and that everything else is as it was.
-/

set_option autoImplicit false
set_option relaxedAutoImplicit false

namespace MiniPascal

namespace Scopes

variable {scopes later : Scopes} {id outer : ScopeId} {here : Scope} {name : String}
  {symbol : Symbol}

/-! ### One step of a search -/

theorem resolve_of_closed (hclosed : scopes.scope? id = none) : scopes.resolve id name = none := by
  rw [resolve, chain_of_closed hclosed]
  rfl

theorem resolve_of_holds (hhere : scopes.scope? id = some here)
    (hholds : here.get? name = some symbol) :
    scopes.resolve id name = some ⟨symbol, here.level⟩ := by
  have hfirst : ∃ further, scopes.chain id = here :: further := by
    cases henclosing : here.enclosing with
    | none => exact ⟨_, chain_of_outermost hhere henclosing⟩
    | some outer => exact ⟨_, chain_of_inside hhere henclosing⟩
  obtain ⟨further, hchain⟩ := hfirst
  rw [resolve, hchain, List.findSome?_cons, hholds]
  rfl

theorem WellFormed.outer_lt (hscopes : scopes.WellFormed) (hhere : scopes.scope? id = some here)
    (houter : here.enclosing = some outer) : outer < id := by
  cases hscopes.placed hhere with
  | outermost hzero hnone => cases hnone.symm.trans houter
  | inside hsome hless haround hlevel =>
    cases hsome.symm.trans houter
    exact hless

/-- A name that the scope does not hold is sought in the scope around it. -/
theorem WellFormed.resolve_of_lacks (hscopes : scopes.WellFormed)
    (hhere : scopes.scope? id = some here) (hlacks : here.get? name = none) :
    scopes.resolve id name = here.enclosing.bind (scopes.resolve · name) := by
  cases houter : here.enclosing with
  | none =>
    rw [resolve, chain_of_outermost hhere houter, List.findSome?_cons, hlacks]
    rfl
  | some outer =>
    rw [resolve, chain_of_inside hhere houter, if_pos (hscopes.outer_lt hhere houter),
      List.findSome?_cons, hlacks]
    rfl

/-- What is found from a scope depends on the scopes up to its index only. -/
theorem resolve_congr (hfront : ∀ other ≤ id, later.scope? other = scopes.scope? other) :
    later.resolve id name = scopes.resolve id name := by
  rw [resolve, resolve, chain_congr hfront]

/-! ### Scopes in sight -/

/-- Links lead from one open scope out to another past these. -/
inductive Nearer (scopes : Scopes) (target : ScopeId) : ScopeId → List Scope → Prop
  | arrived : Nearer scopes target target []
  | link {id outer : ScopeId} {scope : Scope} {nearer : List Scope} :
      scopes.scope? id = some scope → scope.enclosing = some outer →
        Nearer scopes target outer nearer → Nearer scopes target id (scope :: nearer)

/-- A search for the name gets from a scope to the target, whether or not the target holds it. -/
def InSight (scopes : Scopes) (name : String) (target id : ScopeId) : Prop :=
  ∃ nearer, scopes.Nearer target id nearer ∧ ∀ scope ∈ nearer, scope.get? name = none

theorem InSight.refl (scopes : Scopes) (name : String) (id : ScopeId) :
    scopes.InSight name id id :=
  ⟨[], .arrived, List.forall_mem_nil _⟩

theorem InSight.link {target : ScopeId} (hhere : scopes.scope? id = some here)
    (houter : here.enclosing = some outer) (hlacks : here.get? name = none)
    (hsight : scopes.InSight name target outer) : scopes.InSight name target id := by
  obtain ⟨nearer, hnearer, hnone⟩ := hsight
  exact ⟨here :: nearer, .link hhere houter hnearer, List.forall_mem_cons.2 ⟨hlacks, hnone⟩⟩

/-! ### Filing a symbol -/

/-- Only the symbol was filed, in this scope: it is found wherever the scope is in sight, and
nothing else has changed. -/
structure Filed (scopes : Scopes) (id : ScopeId) (here : Scope) (symbol : Symbol)
    (later : Scopes) : Prop where
  length_eq : later.live.length = scopes.live.length
  target : later.scope? id = some (here.insert symbol)
  others : ∀ {other : ScopeId}, other ≠ id → later.scope? other = scopes.scope? other
  found : ∀ {other : ScopeId}, scopes.InSight symbol.name id other →
    later.resolve other symbol.name = some ⟨symbol, here.level⟩
  same : ∀ {other : ScopeId} {name : String},
    ¬ (name = symbol.name ∧ scopes.InSight name id other) →
      later.resolve other name = scopes.resolve other name

theorem scope?_defined_self (hhere : scopes.scope? id = some here) (symbol : Symbol) :
    (scopes.defined id symbol).scope? id = some (here.insert symbol) := by
  rw [scope?_defined, if_pos rfl, hhere]
  rfl

theorem scope?_defined_other {other : ScopeId} (hother : other ≠ id) (symbol : Symbol) :
    (scopes.defined id symbol).scope? other = scopes.scope? other := by
  rw [scope?_defined, if_neg (Ne.symm hother)]

theorem WellFormed.resolve_defined_of_inSight (hscopes : scopes.WellFormed)
    (hhere : scopes.scope? id = some here) {other : ScopeId}
    (hsight : scopes.InSight symbol.name id other) :
    (scopes.defined id symbol).resolve other symbol.name = some ⟨symbol, here.level⟩ := by
  have htarget : (scopes.defined id symbol).resolve id symbol.name = some ⟨symbol, here.level⟩ := by
    have hholds : (here.insert symbol).get? symbol.name = some symbol := by
      rw [Scope.get?_insert, if_pos rfl]
    exact (resolve_of_holds (scope?_defined_self hhere symbol) hholds :)
  obtain ⟨nearer, hnearer, hnone⟩ := hsight
  induction hnearer with
  | arrived => exact htarget
  | @link other outer scope nearer hscope houter hnearer induct =>
    obtain ⟨hlacks, hnone⟩ := List.forall_mem_cons.1 hnone
    by_cases hself : other = id
    · rw [hself, htarget]
    have hlater : (scopes.defined id symbol).scope? other = some scope := by
      rw [scope?_defined_other hself, hscope]
    rw [(hscopes.defined id symbol).resolve_of_lacks hlater hlacks, houter]
    exact induct hnone

/-- Every scope keeps its level, its link and what it holds under other names. -/
theorem scope?_defined_keeps {other : ScopeId} {scope : Scope}
    (hscope : scopes.scope? other = some scope) (hname : other = id → name ≠ symbol.name) :
    ∃ changed, (scopes.defined id symbol).scope? other = some changed ∧
      changed.level = scope.level ∧ changed.enclosing = scope.enclosing ∧
      changed.get? name = scope.get? name := by
  by_cases hself : other = id
  · subst hself
    refine ⟨_, scope?_defined_self hscope symbol, rfl, rfl, ?_⟩
    rw [Scope.get?_insert, if_neg (hname rfl)]
  · exact ⟨scope, (scope?_defined_other hself symbol).trans hscope, rfl, rfl, rfl⟩

theorem WellFormed.resolve_defined_of_not_inSight (hscopes : scopes.WellFormed)
    (hhere : scopes.scope? id = some here) {other : ScopeId}
    (hunseen : ¬ (name = symbol.name ∧ scopes.InSight name id other)) :
    (scopes.defined id symbol).resolve other name = scopes.resolve other name := by
  induction other using Nat.strongRecOn with
  | ind other induct =>
    cases hscope : scopes.scope? other with
    | none =>
      have hself : other ≠ id := by
        rintro rfl
        cases hscope.symm.trans hhere
      rw [resolve_of_closed hscope, resolve_of_closed ((scope?_defined_other hself _).trans hscope)]
    | some scope =>
      have hother (hself : other = id) : name ≠ symbol.name := by
        intro hname
        exact hunseen ⟨hname, hself ▸ .refl scopes name other⟩
      obtain ⟨changed, hchanged, hlevel, henclosing, hget⟩ := scope?_defined_keeps hscope hother
      cases hholds : scope.get? name with
      | some found =>
        rw [resolve_of_holds hscope hholds, resolve_of_holds hchanged (hget.trans hholds), hlevel]
      | none =>
        rw [hscopes.resolve_of_lacks hscope hholds,
          (hscopes.defined id symbol).resolve_of_lacks hchanged (hget.trans hholds), henclosing]
        cases houter : scope.enclosing with
        | none => rfl
        | some outer =>
          refine induct outer (hscopes.outer_lt hscope houter) fun hseen ↦ hunseen ?_
          exact hseen.imp_right (InSight.link hscope houter hholds)

theorem WellFormed.filed (hscopes : scopes.WellFormed) (hhere : scopes.scope? id = some here)
    (symbol : Symbol) : scopes.Filed id here symbol (scopes.defined id symbol) where
  length_eq := List.length_modify ..
  target := scope?_defined_self hhere symbol
  others hother := scope?_defined_other hother symbol
  found := hscopes.resolve_defined_of_inSight hhere
  same := hscopes.resolve_defined_of_not_inSight hhere

/-! ### Opening and closing -/

theorem scope?_opened_self (opening : Scope) :
    (scopes.opened opening).scope? scopes.live.length = some opening := by
  rw [scope?_opened, if_pos rfl]

theorem resolve_opened {opening : Scope} (hless : id < scopes.live.length) :
    (scopes.opened opening).resolve id name = scopes.resolve id name :=
  resolve_congr fun _ hle ↦ scope?_opened_of_lt (Nat.lt_of_le_of_lt hle hless)

theorem WellFormed.resolve_opened_self (hscopes : scopes.WellFormed)
    (hhere : scopes.scope? id = some here) (label : String) :
    (scopes.opened ⟨label, here.level + 1, some id, Table.empty⟩).resolve scopes.live.length name =
      scopes.resolve id name := by
  rw [(hscopes.opened hhere label).resolve_of_lacks (scope?_opened_self _) rfl]
  exact resolve_opened (lt_of_scope? hhere)

theorem scope?_closed_of_lt {closing : ScopeId} (hless : id < closing) :
    (scopes.closed closing).scope? id = scopes.scope? id := by
  rw [scope?_closed, if_pos hless]

theorem resolve_closed {closing : ScopeId} (hless : id < closing) :
    (scopes.closed closing).resolve id name = scopes.resolve id name :=
  resolve_congr fun _ hle ↦ scope?_closed_of_lt (Nat.lt_of_le_of_lt hle hless)

end Scopes

/-! ### Operations -/

namespace Walk

variable {id : ScopeId} {here : Scope} {walker : Walker} {symbol : Symbol}

theorem declare_of_lacks (hhere : walker.scopes.scope? id = some here)
    (hlacks : here.get? symbol.name = none) (line : Nat) :
    declare id symbol line walker = .ok ()
      ⟨walker.scopes.defined id symbol,
        (walker.log.push (.soughtOnly symbol.name here.name)).push
          (.defined symbol here.name)⟩ := by
  have hsought := lookupOnly_of_scope hhere symbol.name
  rw [hlacks] at hsought
  have hstill (log : Array Event) :
      (Walker.mk walker.scopes log).scopes.scope? id = some here := hhere
  exact (bind_of_ok hsought).trans (define_of_scope (hstill _) symbol)

theorem declare_of_holds {held : Symbol} (hhere : walker.scopes.scope? id = some here)
    (hholds : here.get? symbol.name = some held) (line : Nat) :
    declare id symbol line walker = .error (.duplicate symbol.name line)
      ⟨walker.scopes, walker.log.push (.soughtOnly symbol.name here.name)⟩ := by
  have hsought := lookupOnly_of_scope hhere symbol.name
  rw [hholds] at hsought
  exact bind_of_ok hsought

end Walk

open Scopes in
/-- On an open scope of a reachable walker, filing a symbol is seen only where the scope is in sight
under the symbol's name, and declaring one files it exactly if the scope itself lacks the name and
otherwise changes nothing. An opened scope is not seen from the others and sees what the scope
around it sees; closing a scope changes nothing in front of it. -/
theorem operations_change_only_what_they_name {walker : Walker} (hreachable : walker.Reachable)
    {id : ScopeId} {here : Scope} (hhere : walker.scopes.scope? id = some here) :
    (∀ symbol, ∃ later, Walk.define id symbol walker = .ok () later ∧
      walker.scopes.Filed id here symbol later.scopes) ∧
    (∀ symbol line,
      (here.get? symbol.name = none → ∃ later, Walk.declare id symbol line walker = .ok () later ∧
        walker.scopes.Filed id here symbol later.scopes) ∧
      (here.get? symbol.name ≠ none → ∃ later,
        Walk.declare id symbol line walker = .error (.duplicate symbol.name line) later ∧
        later.scopes = walker.scopes)) ∧
    (∀ label, ∃ later, Walk.push label id walker = .ok walker.scopes.live.length later ∧
      (∀ other name, Walk.Live other walker →
        later.scopes.resolve other name = walker.scopes.resolve other name) ∧
      ∀ name, later.scopes.resolve walker.scopes.live.length name =
        later.scopes.resolve id name) ∧
    ∃ later, Walk.pop id walker = .ok here.enclosing later ∧
      ∀ other < id, later.scopes.scope? other = walker.scopes.scope? other ∧
        ∀ name, later.scopes.resolve other name = walker.scopes.resolve other name := by
  have hscopes := hreachable.wellFormed
  refine ⟨fun symbol ↦ ?_, fun symbol line ↦ ⟨fun hlacks ↦ ?_, fun hholds ↦ ?_⟩, fun label ↦ ?_, ?_⟩
  · exact ⟨_, Walk.define_of_scope hhere symbol, hscopes.filed hhere symbol⟩
  · exact ⟨_, Walk.declare_of_lacks hhere hlacks line, hscopes.filed hhere symbol⟩
  · obtain ⟨held, hheld⟩ := Option.ne_none_iff_exists'.1 hholds
    exact ⟨_, Walk.declare_of_holds hhere hheld line, rfl⟩
  · refine ⟨_, Walk.push_of_scope hhere label, fun other name hlive ↦ resolve_opened hlive,
      fun name ↦ ?_⟩
    exact (hscopes.resolve_opened_self hhere label).trans (resolve_opened (lt_of_scope? hhere)).symm
  · refine ⟨_, Walk.pop_of_scope hhere, fun other hless ↦ ?_⟩
    exact ⟨scope?_closed_of_lt hless, fun name ↦ resolve_closed hless⟩

open Scopes in
/-- Of two scopes side by side the second holds the name that is filed in the scope around both. -/
theorem operations_change_only_what_they_name_beside :
    ∃ walker : Walker, walker.Reachable ∧
      walker.scopes.scope? 1 = some ⟨"A", 1, some 0, Table.empty⟩ ∧
      (∃ later, Walk.define 1 (.var ⟨"X", .integer⟩) walker = .ok () later ∧
        later.scopes.resolve 2 "X" = some ⟨.var ⟨"X", .integer⟩, 1⟩ ∧
        later.scopes.resolve 3 "X" = some ⟨.var ⟨"X", .real⟩, 2⟩) ∧
      ∃ later, Walk.pop 1 walker = .ok (some 0) later ∧
        later.scopes.resolve 0 "REAL" = walker.scopes.resolve 0 "REAL" := by
  have hbeside : Walker.Reachable _ :=
    .use (.define 3 (.var ⟨"X", .real⟩)) (.use (.push "C" 1) (.use (.push "B" 1)
      (.use (.push "A" 0) .start (by decide)) (by decide)) (by decide))
      (by decide)
  obtain ⟨hdefine, -, -, laterPop, hpop, hfront⟩ :=
    @operations_change_only_what_they_name _ hbeside 1 ⟨"A", 1, some 0, Table.empty⟩
      (by decide)
  obtain ⟨later, hok, hfiled⟩ := hdefine (.var ⟨"X", .integer⟩)
  refine ⟨_, hbeside, by decide, ⟨later, hok, ?_, ?_⟩, laterPop, hpop, ?_⟩
  · refine hfiled.found ⟨[⟨"B", 2, some 1, Table.empty⟩], ?_, by decide⟩
    exact .link (by decide) rfl .arrived
  · let second : Scope := Scope.insert ⟨"C", 2, some 1, Table.empty⟩ (.var ⟨"X", .real⟩)
    have hlater : later.scopes.scope? 3 = some second :=
      (hfiled.others (by decide)).trans (by decide)
    exact resolve_of_holds hlater (by decide)
  · exact (hfront 0 (by decide)).2 "REAL"

end MiniPascal
