import MiniPascal.Proofs.Execution.Keyed
import MiniPascal.Proofs.Execution.Progress
import MiniPascal.Proofs.Execution.Unlined
import MiniPascal.Proofs.Grammar.Names
import MiniPascal.Proofs.Grammar.Parsing
import MiniPascal.Proofs.Scope.Checking

/-!
# One store of bare names is enough

`flat_store_is_faithful`: in a program that is checked, each name in its body stands for something
that the program itself declares, so the store needs no levels; running on one with levels gives the
same. What comes out are the targets of the assignments, in order, and neither declarations nor
procedures have a say in it.

The scopes at the body are those that `Check.opening` leaves, the part of the check in front of the
body. They follow the two frames that the body sees, its own and that of the scalar types, and no
name of a text is that of a scalar type.
-/

set_option autoImplicit false
set_option relaxedAutoImplicit false

namespace MiniPascal

open Walk

/-- Something of this name is declared in the block itself. -/
def Block.Declares (block : Block) (name : String) : Prop :=
  ∃ d ∈ block.declarations, d.binding.name = name

/-! ### The outcomes of reports -/

namespace Report

variable {α β : Type} {first : Report α} {next : α → Report β}

theorem outcome_andThen : (first.andThen next).outcome =
    first.outcome >>= fun value ↦ (next value).outcome := by
  unfold andThen
  cases first.outcome <;> rfl

end Report

theorem check_eq_ok_iff {limit : Nat} {text : String} {p : Program} :
    (check limit text).outcome = .ok p ↔ parse limit text = .ok p ∧ p.WellScoped := by
  rw [check, Report.outcome_andThen, Report.ofParse, ← Scoping.program_eq_ok_iff]
  cases parse limit text with
  | error fault => exact ⟨nofun, nofun⟩
  | ok q =>
    change ((Report.ofWalk (Check.program q)).andThen fun _ ↦ ⟨[], .ok q⟩).outcome = _ ↔ _
    rw [Report.outcome_andThen, outcome_check_program]
    cases hscoping : Scoping.program q with
    | error fault =>
      refine ⟨nofun, ?_⟩
      rintro ⟨⟨⟩, hok⟩
      rw [hscoping] at hok
      cases hok
    | ok =>
      constructor
      · rintro ⟨⟩
        exact ⟨rfl, hscoping⟩
      · rintro ⟨⟨⟩, -⟩
        rfl

/-- What a checked program leaves depends on its body alone. -/
theorem outcome_run {limit : Nat} {text : String} {p : Program}
    (hcheck : (check limit text).outcome = .ok p) :
    (run limit text).outcome = p.final.mapError .run := by
  rw [run, Report.outcome_andThen, hcheck, ← outcome_program]
  rfl

section Run

variable {limit : Nat} {text : String} {p : Program} (hcheck : (check limit text).outcome = .ok p)

include hcheck

theorem final_of_run_ok {store : Store} (hstore : (run limit text).outcome = .ok store) :
    p.final = .ok store := by
  rw [outcome_run hcheck] at hstore
  cases hfinal : p.final with
  | ok later =>
    rw [hfinal] at hstore
    cases hstore
    rfl
  | error fault =>
    rw [hfinal] at hstore
    cases hstore

theorem final_of_run_fault {fault : RunFault}
    (hfault : (run limit text).outcome = .error (.run fault)) : p.final = .error fault := by
  rw [outcome_run hcheck] at hfault
  cases hfinal : p.final with
  | ok later =>
    rw [hfinal] at hfault
    cases hfault
  | error other =>
    rw [hfinal] at hfault
    cases hfault
    rfl

end Run

/-- The names in the body of a text are identifiers. -/
theorem isName_of_parse {limit : Nat} {text : String} {p : Program}
    (hparse : parse limit text = .ok p) :
    ∀ used ∈ Statement.mentionsAll p.block.body, IsName used.name := by
  have hshaped : Shaped (Feed.ofText text).ahead := Feed.shaped_ahead text
  obtain ⟨-, hwritten⟩ := written_of_parse hparse
  generalize (Feed.ofText text).ahead = x at hshaped hwritten
  obtain ⟨name, _, _, _, _, _, hblock⟩ := hwritten
  have hinside := hshaped.tail.tail.tail.left
  obtain ⟨-, -, hbody⟩ := hblock
  exact isName_of_compound hbody hinside.right

/-! ### The scope of the body -/

/-- The check of a program up to its body, with the scope of the program. -/
def Check.opening (p : Program) : Walk ScopeId := do
  let scope ← push "global" Scopes.builtinsId
  declarations scope p.block.declarations
  return scope

theorem Check.program_eq (p : Program) :
    Check.program p = (do
      let scope ← opening p
      statements scope p.block.body
      let _ ← pop scope) := by
  simp only [Check.program, block, opening, bind_assoc, pure_bind]

theorem ends_opening (p : Program) :
    Ends .outermost (Check.opening p) (Scoping.declarations .outermost [] p.block.declarations)
      p.site.environment (· = 1) := by
  refine (ends_push "global").andThen fun scope hscope ↦ ?_
  subst hscope
  have hends := (ends_annotated_declarations .outermost [] p.block.declarations).discarded
  rw [discarded_declarations] at hends
  exact hends.followed fun _ _ ↦ Ends.pure rfl

/-- The key of the declaration that a name stands for in a scope. -/
def Scopes.key? (scopes : Scopes) (id : ScopeId) (name : String) : Option Key :=
  (scopes.resolve id name).map fun found ↦ (found.symbol.name, found.level)

/-- The name stands for a declaration of the block, at level 1. -/
def ResolvesInside (scopes : Scopes) (id : ScopeId) (block : Block) (name : String) : Prop :=
  ∃ d ∈ block.declarations, d.binding.name = name ∧
    ∃ symbol, d.binding.Filed symbol ∧ scopes.resolve id name = some ⟨symbol, 1⟩

theorem ResolvesInside.key {scopes : Scopes} {id : ScopeId} {block : Block} {name : String}
    (hinside : ResolvesInside scopes id block name) : scopes.key? id name = some (name, 1) := by
  obtain ⟨d, -, hname, symbol, hfiled, hresolve⟩ := hinside
  rw [Scopes.key?, hresolve, Option.map_some, hfiled.name_eq, hname]

/-- In a well-scoped program, a name in the body that is not that of a scalar type is declared by
the program. -/
theorem resolvesInside_of_follow {p : Program} (hscoped : p.WellScoped) {scopes : Scopes}
    (hfollow : Scopes.Follow scopes.live p.site.environment) {used : Mention}
    (hused : used ∈ Statement.mentionsAll p.block.body) (hname : Untyped used.name) :
    ResolvesInside scopes 1 p.block used.name := by
  obtain ⟨frame, hframe, hmem⟩ := (hscoped p.site .refl).mentions used hused
  have hbuiltins : used.name ∉ Frame.names Frame.builtins := by
    simp only [Frame.names, Frame.builtins, List.map_cons, List.map_nil, List.mem_cons,
      List.not_mem_nil, or_false, not_or]
    exact ⟨hname .integer, hname .real⟩
  have hinside : used.name ∈ Frame.names p.site.frame := by
    rcases List.mem_cons.1 hframe with rfl | hframe
    · exact hmem
    · obtain rfl := List.mem_singleton.1 hframe
      exact absurd hmem hbuiltins
  cases hbinding : Frame.binding? p.site.frame used.name with
  | none => exact absurd hinside (Frame.binding?_eq_none_iff.1 hbinding)
  | some binding =>
    have hresolve := hfollow.resolve used.name
    rw [Site.environment, Environment.nearest_of_some hbinding] at hresolve
    obtain ⟨d, hd, rfl⟩ := List.mem_map.1 (Frame.mem_of_binding? hbinding)
    change Option.Rel Scopes.Follow.Matches _ (scopes.resolve 1 used.name) at hresolve
    cases hsymbol : scopes.resolve 1 used.name with
    | none =>
      rw [hsymbol] at hresolve
      cases hresolve
    | some found =>
      rw [hsymbol] at hresolve
      obtain ⟨symbol, level⟩ := found
      obtain ⟨hfiled, rfl⟩ := Option.rel_some_some.1 hresolve
      exact ⟨d, hd, Frame.name_of_binding? hbinding, symbol, hfiled, hsymbol⟩

/-- The scopes in front of the body resolve each name in it to a declaration of the program at
level 1. So the run agrees with the one keyed by declarations, its store has the targets of the
assignments in order, and nothing but the body has a say in it; lines matter to the lines of faults
only. -/
theorem flat_store_is_faithful {limit : Nat} {text : String} {p : Program}
    (hcheck : (check limit text).outcome = .ok p) :
    ∃ scope walker, Check.opening p Walker.start = .ok scope walker ∧
      (∀ used ∈ Statement.mentionsAll p.block.body,
        ResolvesInside walker.scopes scope p.block used.name) ∧
      Keyed.statements (walker.scopes.key? scope) KeyedStore.empty p.block.body =
        (run limit text).outcome.map Store.keyed ∧
      (∀ store, (run limit text).outcome = .ok store → store.Ascending ∧
        (∀ name, name ∈ store.names ↔
          ∃ a ∈ Statement.assignmentsAll p.block.body, a.target.name = name) ∧
        ∀ name ∈ store.names, p.block.Declares name) ∧
      (∀ name line, (run limit text).outcome = .error (.run (.undefinedVariable name line)) →
        p.block.Declares name) ∧
      ∀ other further q, (check other further).outcome = .ok q →
        (q.block.body = p.block.body → (run other further).outcome = (run limit text).outcome) ∧
        (Statement.unlinedAll q.block.body = Statement.unlinedAll p.block.body →
          (run other further).outcome.mapError Fault.unlined =
            (run limit text).outcome.mapError Fault.unlined) := by
  obtain ⟨hparse, hscoped⟩ := check_eq_ok_iff.1 hcheck
  have hdeclarations := (Scoping.andThen_eq_ok_iff.1 ((Scoping.program_eq_ok_iff p).2 hscoped)).1
  rcases ends_opening p Walker.start Scopes.follow_builtins with
    ⟨-, scope, walker, hopening, hfollow, rfl⟩ | ⟨fault, _, hfails, -⟩
  swap
  · rw [hdeclarations] at hfails
    cases hfails
  have hinside : ∀ used ∈ Statement.mentionsAll p.block.body,
      ResolvesInside walker.scopes 1 p.block used.name := fun used hused ↦
    resolvesInside_of_follow hscoped hfollow hused (isName_of_parse hparse used hused).untyped
  have hdeclares {used : Mention} (hused : used ∈ Statement.mentionsAll p.block.body) :
      p.block.Declares used.name := by
    obtain ⟨d, hd, hname, -⟩ := hinside used hused
    exact ⟨d, hd, hname⟩
  have hrun := outcome_run hcheck
  refine ⟨1, walker, hopening, hinside, ?_, ?_, ?_, ?_⟩
  · rw [hrun, ← Store.keyed_empty,
      Keyed.statements_eq _ _ fun used hused ↦ (hinside used hused).key]
    change ((p.final).map _).mapError _ = _
    cases p.final <;> rfl
  · intro store hstore
    obtain ⟨hascending, hnames⟩ := Program.final_names (final_of_run_ok hcheck hstore)
    refine ⟨hascending, hnames, fun name hmem ↦ ?_⟩
    obtain ⟨a, ha, rfl⟩ := (hnames name).1 hmem
    exact hdeclares (target_mem_mentionsAll ha)
  · intro name line hfault
    exact hdeclares (Program.mem_mentions_of_undefined (final_of_run_fault hcheck hfault))
  · intro other further q hq
    have hlines (r : Program) : (r.final.mapError Fault.run).mapError Fault.unlined =
        (r.final.mapError RunFault.unlined).mapError Fault.run := by
      cases r.final <;> rfl
    rw [hrun, outcome_run hq]
    refine ⟨fun hbody ↦ by rw [Program.final, hbody]; rfl, fun hbody ↦ ?_⟩
    rw [hlines, hlines, Program.final_unlined hbody]

/-- A procedure declares a variable again, with another type, and the store knows the outer one. -/
theorem flat_store_is_faithful_shadowed :
    ∃ p scope walker store,
      (check 60 "PROGRAM p; VAR x : INTEGER; PROCEDURE q; VAR x : REAL; BEGIN x := 99.5 END;
        BEGIN x := 1 END.").outcome = .ok p ∧
      Check.opening p Walker.start = .ok scope walker ∧
      Keyed.statements (walker.scopes.key? scope) KeyedStore.empty p.block.body =
        .ok (Store.keyed store) ∧
      (run 60 "PROGRAM p; VAR x : INTEGER; PROCEDURE q; VAR x : REAL; BEGIN x := 99.5 END;
        BEGIN x := 1 END.").outcome = .ok store ∧
      store.names = ["x"] ∧ p.block.Declares "x" := by
  obtain ⟨p, hcheck⟩ : ∃ p,
      (check 60 "PROGRAM p; VAR x : INTEGER; PROCEDURE q; VAR x : REAL; BEGIN x := 99.5 END;
        BEGIN x := 1 END.").outcome = .ok p := exists_of_isOk (by decide +kernel)
  obtain ⟨store, hrun, hnames⟩ : ∃ store,
      (run 60 "PROGRAM p; VAR x : INTEGER; PROCEDURE q; VAR x : REAL; BEGIN x := 99.5 END;
        BEGIN x := 1 END.").outcome = .ok store ∧ (store.names == ["x"]) = true :=
    exists_of_any (by decide +kernel)
  have hnames : store.names = ["x"] := eq_of_beq hnames
  obtain ⟨scope, walker, hopening, -, hkeyed, hstore, -⟩ := flat_store_is_faithful hcheck
  refine ⟨p, scope, walker, store, hcheck, hopening, ?_, hrun, hnames, ?_⟩
  · rw [hkeyed, hrun]
    rfl
  · exact (hstore store hrun).2.2 "x" (by simp [hnames])

end MiniPascal
