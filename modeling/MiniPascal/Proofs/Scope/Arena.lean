import MiniPascal.Proofs.Scope.Plan

/-!
# Open scopes under any use

Scopes are named by their indices, and an index is used again when its scope was closed. A scope can
be opened inside any open scope, not only inside the last one, and closed with others behind it.
Whatever is done in which order (`Walker.Reachable`), every scope but the first stays inside an open
scope of a smaller index, one level further out, and symbols stand under their own names:
`Reachable.wellFormed`.

So the links outward never leave the open scopes (`WellFormed.outward_chain`), and a search for a
name visits at most one scope for each level and ends at the first that holds it:
`scopes_stay_wellFormed`.
-/

set_option autoImplicit false
set_option relaxedAutoImplicit false

namespace MiniPascal

/-! ### Symbols under their names -/

theorem Table.mem_entries_of_insert {α : Type} {table : Table α} {name : String} {value : α}
    {entry : String × α} (hmem : entry ∈ (table.insert name value).entries) :
    entry = (name, value) ∨ entry ∈ table.entries := by
  obtain ⟨entries⟩ := table
  simp only [insert] at hmem ⊢
  induction entries with
  | nil => exact .inl (List.mem_singleton.1 hmem)
  | cons first rest induct =>
    rw [insertEntry] at hmem
    split at hmem
    · exact List.mem_cons.1 hmem
    split at hmem
    · exact (List.mem_cons.1 hmem).imp_right (List.mem_cons_of_mem first)
    · rcases List.mem_cons.1 hmem with rfl | hrest
      · exact .inr List.mem_cons_self
      · exact (induct hrest).imp_right (List.mem_cons_of_mem first)

/-- Every symbol is filed under its own name. -/
def Scope.Named (scope : Scope) : Prop := ∀ entry ∈ scope.symbols.entries, entry.2.name = entry.1

theorem Scope.Named.empty (name : String) (level : Nat) (enclosing : Option ScopeId) :
    Scope.Named ⟨name, level, enclosing, Table.empty⟩ :=
  fun _ hmem ↦ absurd hmem List.not_mem_nil

theorem Scope.Named.insert {scope : Scope} (hnamed : scope.Named) (symbol : Symbol) :
    (scope.insert symbol).Named := by
  intro entry hmem
  rcases Table.mem_entries_of_insert hmem with rfl | hmem
  · rfl
  · exact hnamed entry hmem

theorem Scope.Named.name_of_get? {scope : Scope} (hnamed : scope.Named) {name : String}
    {symbol : Symbol} (hfound : scope.get? name = some symbol) : symbol.name = name := by
  obtain ⟨before, behind, hentries, -⟩ := List.lookup_eq_some_iff.1 hfound
  exact hnamed (name, symbol) (hentries ▸ List.mem_append_right before List.mem_cons_self)

namespace Scopes

variable {scopes later : Scopes} {id : ScopeId} {here : Scope}

theorem lt_of_scope? (hhere : scopes.scope? id = some here) : id < scopes.live.length :=
  (List.getElem?_eq_some_iff.1 hhere).1

theorem eq_zero_of_builtins (hhere : Scopes.builtins.scope? id = some here) : id = 0 :=
  Nat.lt_one_iff.1 (lt_of_scope? hhere)

/-! ### Links outward -/

/-- The outermost scope stands first, and any other inside an open scope in front of it. -/
inductive Placed (scopes : Scopes) : ScopeId → Scope → Prop
  | outermost {here : Scope} : here.level = 0 → here.enclosing = none → Placed scopes 0 here
  | inside {id outer : ScopeId} {here around : Scope} :
      here.enclosing = some outer → outer < id → scopes.scope? outer = some around →
        here.level = around.level + 1 → Placed scopes id here

/-- A scope keeps its place as long as the scopes in front of it keep their levels. -/
theorem Placed.mono {changed : Scope} (hplaced : scopes.Placed id here)
    (hlevel : changed.level = here.level) (henclosing : changed.enclosing = here.enclosing)
    (hfront : ∀ outer around, outer < id → scopes.scope? outer = some around →
      ∃ still, later.scope? outer = some still ∧ still.level = around.level) :
    later.Placed id changed := by
  cases hplaced with
  | outermost hzero hnone => exact .outermost (hlevel.trans hzero) (henclosing.trans hnone)
  | @inside id outer here around hsome hless haround hnext =>
    obtain ⟨still, hstill, hsame⟩ := hfront outer around hless haround
    refine .inside (henclosing.trans hsome) hless hstill ?_
    rw [hlevel, hnext, hsame]

structure WellFormed (scopes : Scopes) : Prop where
  placed : ∀ {id : ScopeId} {here : Scope}, scopes.scope? id = some here → scopes.Placed id here
  named : ∀ {id : ScopeId} {here : Scope}, scopes.scope? id = some here → here.Named

namespace WellFormed

theorem builtins : WellFormed Scopes.builtins := by
  refine ⟨fun hhere ↦ ?_, fun hhere ↦ ?_⟩
  · obtain rfl := eq_zero_of_builtins hhere
    cases hhere
    exact .outermost rfl rfl
  · obtain rfl := eq_zero_of_builtins hhere
    cases hhere
    exact ((Scope.Named.empty _ _ _).insert _).insert _

theorem opened (hscopes : scopes.WellFormed) (hhere : scopes.scope? id = some here)
    (name : String) :
    (scopes.opened ⟨name, here.level + 1, some id, Table.empty⟩).WellFormed := by
  have hstill (outer : ScopeId) (around : Scope) (hopen : scopes.scope? outer = some around) :
      (scopes.opened ⟨name, here.level + 1, some id, Table.empty⟩).scope? outer =
        some around := by
    rw [scope?_opened, if_neg (Nat.ne_of_lt (lt_of_scope? hopen)), hopen]
  refine ⟨fun {other found} hfound ↦ ?_, fun {other found} hfound ↦ ?_⟩
  all_goals
    rw [scope?_opened] at hfound
    split at hfound
  · next hlast =>
    cases hfound
    exact .inside rfl (hlast ▸ lt_of_scope? hhere) (hstill id here hhere) rfl
  · refine (hscopes.placed hfound).mono rfl rfl fun outer around _ hopen ↦ ?_
    exact ⟨around, hstill outer around hopen, rfl⟩
  · cases hfound
    exact Scope.Named.empty _ _ _
  · exact hscopes.named hfound

theorem closed (hscopes : scopes.WellFormed) (id : ScopeId) : (scopes.closed id).WellFormed := by
  refine ⟨fun {other found} hfound ↦ ?_, fun {other found} hfound ↦ ?_⟩
  all_goals
    rw [scope?_closed] at hfound
    split at hfound
  · next hless =>
    refine (hscopes.placed hfound).mono rfl rfl fun outer around houter hopen ↦ ⟨around, ?_, rfl⟩
    rw [scope?_closed, if_pos (Nat.lt_trans houter hless), hopen]
  · cases hfound
  · exact hscopes.named hfound
  · cases hfound

theorem defined (hscopes : scopes.WellFormed) (id : ScopeId) (symbol : Symbol) :
    (scopes.defined id symbol).WellFormed := by
  -- The scope that gets the symbol keeps its level and its link.
  have hstill (outer : ScopeId) (around : Scope) (hopen : scopes.scope? outer = some around) :
      ∃ still, (scopes.defined id symbol).scope? outer = some still ∧
        still.level = around.level := by
    rw [scope?_defined, hopen]
    split
    · exact ⟨_, rfl, rfl⟩
    · exact ⟨_, rfl, rfl⟩
  refine ⟨fun {other found} hfound ↦ ?_, fun {other found} hfound ↦ ?_⟩
  all_goals
    rw [scope?_defined] at hfound
    split at hfound
  · obtain ⟨old, hold, rfl⟩ := Option.map_eq_some_iff.1 hfound
    exact (hscopes.placed hold).mono rfl rfl fun outer around _ ↦ hstill outer around
  · exact (hscopes.placed hfound).mono rfl rfl fun outer around _ ↦ hstill outer around
  · obtain ⟨old, hold, rfl⟩ := Option.map_eq_some_iff.1 hfound
    exact (hscopes.named hold).insert symbol
  · exact hscopes.named hfound

end WellFormed

/-! ### Searching -/

/-- The open scopes from one outward, link by link, up to one that nothing encloses. -/
inductive Outward (scopes : Scopes) : ScopeId → List Scope → Prop
  | last {id : ScopeId} {here : Scope} :
      scopes.scope? id = some here → here.enclosing = none → Outward scopes id [here]
  | link {id outer : ScopeId} {here : Scope} {chain : List Scope} :
      scopes.scope? id = some here → here.enclosing = some outer → Outward scopes outer chain →
        Outward scopes id (here :: chain)

/-- From the outermost scope inward, each scope by the one it is opened in. -/
theorem WellFormed.inward_induction (hscopes : scopes.WellFormed)
    {motive : ScopeId → Scope → Prop}
    (houtermost : ∀ {here : Scope}, scopes.scope? builtinsId = some here → here.level = 0 →
      here.enclosing = none → motive builtinsId here)
    (hinside : ∀ {id outer : ScopeId} {here around : Scope}, scopes.scope? id = some here →
      here.enclosing = some outer → outer < id → here.level = around.level + 1 →
        motive outer around → motive id here)
    (hhere : scopes.scope? id = some here) : motive id here := by
  induction id using Nat.strongRecOn generalizing here with
  | ind id induct =>
    cases hscopes.placed hhere with
    | outermost hzero hnone => exact houtermost hhere hzero hnone
    | inside hsome hless haround hlevel =>
      exact hinside hhere hsome hless hlevel (induct _ hless haround)

/-- No link is missing from the chain, and the chain has one scope for each level. -/
theorem WellFormed.outward_chain (hscopes : scopes.WellFormed)
    (hhere : scopes.scope? id = some here) :
    scopes.Outward id (scopes.chain id) ∧ (scopes.chain id).length = here.level + 1 := by
  refine hscopes.inward_induction (motive := fun id here ↦
    scopes.Outward id (scopes.chain id) ∧ (scopes.chain id).length = here.level + 1) ?_ ?_ hhere
  · intro here hhere hzero hnone
    rw [chain_of_outermost hhere hnone, hzero]
    exact ⟨.last hhere hnone, rfl⟩
  · rintro id outer here around hhere hsome hless hlevel ⟨houtward, hlength⟩
    rw [chain_of_inside hhere hsome, if_pos hless]
    refine ⟨.link hhere hsome houtward, ?_⟩
    rw [List.length_cons, hlength, hlevel]

theorem Outward.exists_of_mem {chain : List Scope} (houtward : scopes.Outward id chain)
    {scope : Scope} (hmem : scope ∈ chain) : ∃ other, scopes.scope? other = some scope := by
  induction houtward with
  | last hhere hnone =>
    obtain rfl := List.mem_singleton.1 hmem
    exact ⟨_, hhere⟩
  | link hhere hsome houtward induct =>
    rcases List.mem_cons.1 hmem with rfl | hmem
    · exact ⟨_, hhere⟩
    · exact induct hmem

theorem WellFormed.name_of_resolve (hscopes : scopes.WellFormed)
    (hhere : scopes.scope? id = some here) {name : String} {resolved : Resolved}
    (hfound : scopes.resolve id name = some resolved) : resolved.symbol.name = name := by
  obtain ⟨holder, hmem, hheld⟩ := List.exists_of_findSome?_eq_some hfound
  obtain ⟨symbol, hsymbol, rfl⟩ := Option.map_eq_some_iff.1 hheld
  obtain ⟨other, hother⟩ := (hscopes.outward_chain hhere).1.exists_of_mem hmem
  exact (hscopes.named hother).name_of_get? hsymbol

/-- Of a chain these scopes are visited in search of a name, and this is found. -/
inductive FirstHolder (name : String) : List Scope → List Scope → Option Resolved → Prop
  | found {nearer further : List Scope} {holder : Scope} {symbol : Symbol} :
      (∀ scope ∈ nearer, scope.get? name = none) → holder.get? name = some symbol →
        FirstHolder name (nearer ++ holder :: further) (nearer ++ [holder])
          (some ⟨symbol, holder.level⟩)
  | missing {chain : List Scope} :
      (∀ scope ∈ chain, scope.get? name = none) → FirstHolder name chain chain none

namespace FirstHolder

variable {name : String} {chain visited : List Scope} {found : Option Resolved}

theorem length_le (hfirst : FirstHolder name chain visited found) :
    visited.length ≤ chain.length := by
  cases hfirst with
  | found hnearer hholder => simp
  | missing hnone => exact Nat.le_refl _

theorem further {first : Scope} (hnone : first.get? name = none)
    (hothers : FirstHolder name chain visited found) :
    FirstHolder name (first :: chain) (first :: visited) found := by
  cases hothers with
  | found hnearer hholder => exact .found (List.forall_mem_cons.2 ⟨hnone, hnearer⟩) hholder
  | missing hchain => exact .missing (List.forall_mem_cons.2 ⟨hnone, hchain⟩)

theorem of_chain (name : String) (chain : List Scope) :
    FirstHolder name chain
      (chain.take (chain.findIdx (fun scope ↦ (scope.get? name).isSome) + 1))
      (chain.findSome? fun scope ↦ (scope.get? name).map (⟨·, scope.level⟩)) := by
  induction chain with
  | nil => exact .missing (List.forall_mem_nil _)
  | cons first others induct =>
    rw [List.findIdx_cons, List.findSome?_cons]
    cases hfirst : first.get? name with
    | some symbol => exact @found name [] others first symbol (List.forall_mem_nil _) hfirst
    | none => exact induct.further hfirst

end FirstHolder

end Scopes

/-! ### Histories -/

instance (id : ScopeId) (walker : Walker) : Decidable (Walk.Live id walker) :=
  inferInstanceAs (Decidable (id < walker.scopes.live.length))

/-- The walker that an action leaves, whether it succeeds or fails. -/
def Walk.after {α : Type} (action : Walk α) (before : Walker) : Walker :=
  match action before with
  | .ok _ later => later
  | .error _ later => later

/-- What is kept by every operation is kept by a plan, wherever it ends. -/
theorem Plan.keeps {α : Type} {kept : Walker → Prop}
    (hoperation : ∀ (operation : Operation) (answer : operation.Answer) (before later : Walker),
      kept before → operation.perform before = .ok answer later → kept later)
    (plan : Plan α) {before : Walker} (hbefore : kept before) :
    kept (plan.perform.after before) := by
  induction plan generalizing before with
  | done outcome => cases outcome <;> exact hbefore
  | step operation next induct =>
    cases hscope : before.scopes.scope? operation.target with
    | none =>
      have hfail := Operation.perform_of_closed hscope
      rw [Walk.after, perform, Script.perform, bind_of_error hfail]
      exact hbefore
    | some here =>
      obtain ⟨answer, later, hok⟩ := Operation.perform_of_scope hscope
      rw [Walk.after, perform, Script.perform, bind_of_ok hok]
      exact induct answer (hoperation operation answer before later hbefore hok)

namespace Operation

theorem keeps_wellFormed (operation : Operation) (answer : operation.Answer)
    (before later : Walker) (hscopes : before.scopes.WellFormed)
    (hok : operation.perform before = .ok answer later) : later.scopes.WellFormed := by
  obtain ⟨here, hhere⟩ := exists_scope_of_ok hok
  cases operation with
  | scope id =>
    cases (Walk.scope_of_scope hhere).symm.trans hok
    exact hscopes
  | push name id =>
    cases (Walk.push_of_scope hhere name).symm.trans hok
    exact hscopes.opened hhere name
  | pop id =>
    cases (Walk.pop_of_scope hhere).symm.trans hok
    exact hscopes.closed id
  | define id symbol =>
    cases (Walk.define_of_scope hhere symbol).symm.trans hok
    exact hscopes.defined id symbol
  | lookupOnly id name =>
    cases (Walk.lookupOnly_of_scope hhere name).symm.trans hok
    exact hscopes
  | resolve id name =>
    cases (Walk.resolve_of_scope hhere name).symm.trans hok
    exact hscopes

end Operation

/-- Something that changes the open scopes. -/
inductive Use where
  | push (name : String) (enclosing : ScopeId)
  | pop (id : ScopeId)
  | define (id : ScopeId) (symbol : Symbol)
  | declare (id : ScopeId) (symbol : Symbol) (line : Nat)
  | openProcedure (id : ScopeId) (heading : Heading)

namespace Use

def target : Use → ScopeId
  | push _ enclosing => enclosing
  | pop id => id
  | define id _ => id
  | declare id _ _ => id
  | openProcedure id _ => id

/-- The walker after a use, whether it succeeds or fails. -/
def after : Use → Walker → Walker
  | push name enclosing => (Walk.push name enclosing).after
  | pop id => (Walk.pop id).after
  | define id symbol => (Walk.define id symbol).after
  | declare id symbol line => (Walk.declare id symbol line).after
  | openProcedure id heading => (Walk.openProcedure id heading).after

theorem wellFormed_after (use : Use) {walker : Walker} (hscopes : walker.scopes.WellFormed) :
    (use.after walker).scopes.WellFormed := by
  have hplan {α : Type} {action : Walk α} (plan : Plan α) (hperform : plan.perform = action) :
      (action.after walker).scopes.WellFormed := by
    subst hperform
    exact @Plan.keeps α (fun walker ↦ walker.scopes.WellFormed) Operation.keeps_wellFormed plan
      walker hscopes
  cases use with
  | push name enclosing => exact hplan _ (Plan.perform_push name enclosing)
  | pop id => exact hplan _ (Plan.perform_pop id)
  | define id symbol => exact hplan _ (Plan.perform_define id symbol)
  | declare id symbol line => exact hplan _ (Plan.perform_declare id symbol line)
  | openProcedure id heading => exact hplan _ (Plan.perform_openProcedure id heading)

end Use

/-- The walker comes about from the scalar types alone by uses of open scopes. -/
inductive Walker.Reachable : Walker → Prop
  | start : Reachable Walker.start
  | use {walker : Walker} (use : Use) :
      Reachable walker → Walk.Live use.target walker → Reachable (use.after walker)

theorem Walker.Reachable.wellFormed {walker : Walker} (hreachable : walker.Reachable) :
    walker.scopes.WellFormed := by
  induction hreachable with
  | start => exact .builtins
  | use use hbefore hlive induct => exact use.wellFormed_after induct

open Scopes in
/-- Reachable scopes are well formed, so a search from any open scope succeeds within one visit for
each level and finds the first scope outward that holds the name. -/
theorem scopes_stay_wellFormed {walker : Walker} (hreachable : walker.Reachable) :
    walker.scopes.WellFormed ∧
      ∀ (id : ScopeId) (here : Scope) (name : String), walker.scopes.scope? id = some here →
        ∃ chain visited found,
          walker.scopes.Outward id chain ∧ chain.length = here.level + 1 ∧
          FirstHolder name chain visited found ∧ visited.length ≤ here.level + 1 ∧
          Walk.resolve id name walker = .ok found
            ⟨walker.scopes, walker.log ++
              (visited.map fun scope ↦ Event.sought name scope.name).toArray⟩ := by
  have hscopes := hreachable.wellFormed
  refine ⟨hscopes, fun id here name hhere ↦ ?_⟩
  obtain ⟨houtward, hlength⟩ := hscopes.outward_chain hhere
  have hfirst := FirstHolder.of_chain name (walker.scopes.chain id)
  refine ⟨_, _, _, houtward, hlength, hfirst, ?_, Walk.resolve_of_scope hhere name⟩
  exact hlength ▸ hfirst.length_le

open Scopes in
/-- A scope beside others is opened, closing one closes those behind it, its index is used again,
and a procedure is refused at its second parameter, where its scope is open. -/
theorem scopes_stay_wellFormed_reused :
    ∃ walker : Walker, walker.Reachable ∧
      walker.scopes.live.map (fun scope ↦ (scope.name, scope.level, scope.enclosing)) =
        [("builtins", 0, none), ("D", 1, some 0), ("E", 2, some 1)] ∧
      walker.scopes.WellFormed ∧
      ∃ chain visited found,
        walker.scopes.Outward 2 chain ∧ chain.length = 3 ∧
        FirstHolder "REAL" chain visited found ∧ visited.length ≤ 3 ∧
        Walk.resolve 2 "REAL" walker = .ok found
          ⟨walker.scopes, walker.log ++
            (visited.map fun scope ↦ Event.sought "REAL" scope.name).toArray⟩ := by
  let parameter : VariableDeclaration := ⟨⟨"X", 1⟩, ⟨"REAL", 1⟩⟩
  have hopened : Walker.Reachable _ :=
    .use (.push "C" 0) (.use (.push "B" 1) (.use (.push "A" 0) .start (by decide))
      (by decide)) (by decide)
  have hreused : Walker.Reachable _ :=
    .use (.push "D" 0) (.use (.pop 1) (.use (.define 2 (.var ⟨"X", .real⟩)) hopened
      (by decide)) (by decide)) (by decide)
  have hrefused : Walker.Reachable _ :=
    .use (.openProcedure 1 ⟨"E", 1, [parameter, parameter]⟩)
      (.use (.declare 1 (.var ⟨"X", .integer⟩) 1) hreused (by decide)) (by decide)
  let here : Scope := Scope.insert ⟨"E", 2, some 1, Table.empty⟩ (.var ⟨"X", .real⟩)
  obtain ⟨hscopes, hresolve⟩ := scopes_stay_wellFormed hrefused
  exact ⟨_, hrefused, by decide +kernel, hscopes, hresolve 2 here "REAL" (by decide +kernel)⟩

end MiniPascal
