import MiniPascal.Proofs.Annotation.Level
import MiniPascal.Proofs.Scope.Contract
import MiniPascal.Proofs.Scope.Effect
import MiniPascal.Proofs.Scope.Teardown

/-!
# Names of types and all other names

Nothing in the operations on scopes keeps a program from declaring a variable `INTEGER`, and then
its types would be unknown. That no program comes to this is a matter of letter case: names that a
text declares or uses are in lower case, and the names of the scalar types are in upper case.

`Scopes.Apart` is what follows for the open scopes: the names of types stand in the outermost scope,
and nothing else stands there. Both passes keep it, since they keep to the contract `naming`, and it
makes the scopes answer as the contract says. So a type is always found, at level 0, and what a
statement refers to is never a type and never at level 0: `types_and_names_never_clash`.
-/

set_option autoImplicit false
set_option relaxedAutoImplicit false

namespace MiniPascal

namespace Scopes

/-! ### The outermost scope -/

section

variable {here : Scope} (hhere : Scopes.builtins.scope? builtinsId = some here)

include hhere

theorem get?_of_builtins (type : Scalar) : here.get? type.name = some (.scalar type) := by
  cases hhere
  cases type with
  | integer | real => decide

theorem get?_of_builtins_untyped {name : String} (hname : Untyped name) :
    here.get? name = none := by
  cases hhere
  have hreal : name ≠ (Symbol.scalar .real).name := hname .real
  have hinteger : name ≠ (Symbol.scalar .integer).name := hname .integer
  rw [Scope.get?_insert, if_neg hreal, Scope.get?_insert, if_neg hinteger]
  rfl

end

/-! ### Scopes apart -/

/-- The names of types stand in the outermost scope, and it holds nothing else. -/
structure Apart (scopes : Scopes) : Prop where
  wellFormed : scopes.WellFormed
  outermost : ∀ {here : Scope}, scopes.scope? builtinsId = some here →
    Scopes.builtins.scope? builtinsId = some here
  inside : ∀ {id : ScopeId} {here : Scope} {name : String} {symbol : Symbol}, id ≠ builtinsId →
    scopes.scope? id = some here → here.get? name = some symbol → Untyped name

namespace Apart

variable {scopes : Scopes} {id : ScopeId} {here : Scope}

theorem builtins : Apart Scopes.builtins where
  wellFormed := .builtins
  outermost := fun hhere ↦ hhere
  inside hid hhere := absurd (eq_zero_of_builtins hhere) hid

theorem opened (happart : scopes.Apart) (hhere : scopes.scope? id = some here) (name : String) :
    (scopes.opened ⟨name, here.level + 1, some id, Table.empty⟩).Apart where
  wellFormed := happart.wellFormed.opened hhere name
  outermost hfound := by
    have hless : builtinsId < scopes.live.length := Nat.zero_lt_of_lt (lt_of_scope? hhere)
    rw [scope?_opened_of_lt hless] at hfound
    exact happart.outermost hfound
  inside hid hfound hsymbol := by
    rw [scope?_opened] at hfound
    split at hfound
    · cases hfound
      cases hsymbol
    · exact happart.inside hid hfound hsymbol

theorem closed (happart : scopes.Apart) (closing : ScopeId) : (scopes.closed closing).Apart where
  wellFormed := happart.wellFormed.closed closing
  outermost hfound := by
    rw [scope?_closed] at hfound
    split at hfound
    · exact happart.outermost hfound
    · cases hfound
  inside hid hfound hsymbol := by
    rw [scope?_closed] at hfound
    split at hfound
    · exact happart.inside hid hfound hsymbol
    · cases hfound

theorem defined (happart : scopes.Apart) (hid : id ≠ builtinsId) {symbol : Symbol}
    (hname : Untyped symbol.name) : (scopes.defined id symbol).Apart where
  wellFormed := happart.wellFormed.defined id symbol
  outermost hfound := by
    rw [scope?_defined_other (Ne.symm hid)] at hfound
    exact happart.outermost hfound
  inside hother hfound hsymbol := by
    rw [scope?_defined] at hfound
    split at hfound
    · obtain ⟨old, hold, rfl⟩ := Option.map_eq_some_iff.1 hfound
      rw [Scope.get?_insert] at hsymbol
      split at hsymbol
      · next hsame => exact hsame ▸ hname
      · exact happart.inside hother hold hsymbol
    · exact happart.inside hother hfound hsymbol

/-- From every scope a name of a type is found in the outermost one. -/
theorem resolve_type (happart : scopes.Apart) (hhere : scopes.scope? id = some here)
    (type : Scalar) : scopes.resolve id type.name = some ⟨.scalar type, 0⟩ := by
  refine happart.wellFormed.inward_induction (motive := fun id _ ↦
    scopes.resolve id type.name = some ⟨.scalar type, 0⟩) ?_ ?_ hhere
  · intro here hhere hzero _
    rw [resolve_of_holds hhere (get?_of_builtins (happart.outermost hhere) type), hzero]
  · intro id outer here around hhere hsome hless _ hfound
    have hlacks : here.get? type.name = none := by
      by_contra hholds
      obtain ⟨symbol, hsymbol⟩ := Option.ne_none_iff_exists'.1 hholds
      exact happart.inside (Nat.ne_zero_of_lt hless) hhere hsymbol type rfl
    rw [happart.wellFormed.resolve_of_lacks hhere hlacks, hsome]
    exact hfound

/-- Any other name is found further inside, if at all, and stands for something else. -/
theorem resolve_untyped (happart : scopes.Apart) (hhere : scopes.scope? id = some here)
    {name : String} (hname : Untyped name) {found : Resolved}
    (hfound : scopes.resolve id name = some found) :
    1 ≤ found.level ∧ ∀ type, found.symbol ≠ .scalar type := by
  refine ⟨?_, fun type hscalar ↦ ?_⟩
  · refine happart.wellFormed.inward_induction (motive := fun id _ ↦
      scopes.resolve id name = some found → 1 ≤ found.level) ?_ ?_ hhere hfound
    · intro here hhere _ hnone hfound
      have hlacks := get?_of_builtins_untyped (happart.outermost hhere) hname
      rw [happart.wellFormed.resolve_of_lacks hhere hlacks, hnone] at hfound
      cases hfound
    · intro id outer here around hhere hsome _ hlevel induct hfound
      cases hholds : here.get? name with
      | none =>
        rw [happart.wellFormed.resolve_of_lacks hhere hholds, hsome] at hfound
        exact induct hfound
      | some symbol =>
        cases (resolve_of_holds hhere hholds).symm.trans hfound
        exact hlevel ▸ Nat.succ_pos _
  · have hsame := happart.wellFormed.name_of_resolve hhere hfound
    rw [hscalar] at hsame
    exact hname type hsame.symm

end Apart

end Scopes

/-! ### Both passes -/

/-- Where names of types stand apart, the scopes answer as the contract says. -/
theorem naming_kept {types used : List Mention} {operation : Operation}
    {answer : operation.Answer} {before after : Walker}
    (hasks : (naming types used).asks operation) (happart : before.scopes.Apart)
    (hok : operation.perform before = .ok answer after) :
    (naming types used).answers operation answer ∧ after.scopes.Apart := by
  obtain ⟨here, hhere⟩ := Operation.exists_scope_of_ok hok
  cases operation with
  | scope id =>
    cases (Walk.scope_of_scope hhere).symm.trans hok
    exact ⟨trivial, happart⟩
  | push name id =>
    cases (Walk.push_of_scope hhere name).symm.trans hok
    exact ⟨Nat.ne_zero_of_lt (Scopes.lt_of_scope? hhere), happart.opened hhere name⟩
  | pop id =>
    cases (Walk.pop_of_scope hhere).symm.trans hok
    exact ⟨trivial, happart.closed id⟩
  | define id symbol =>
    cases (Walk.define_of_scope hhere symbol).symm.trans hok
    exact ⟨trivial, happart.defined hasks.1 hasks.2⟩
  | lookupOnly id name =>
    cases (Walk.lookupOnly_of_scope hhere name).symm.trans hok
    exact ⟨trivial, happart⟩
  | resolve id name =>
    cases (Walk.resolve_of_scope hhere name).symm.trans hok
    refine ⟨?_, happart⟩
    rintro type rfl
    exact happart.resolve_type hhere type

/-- On the way of the plan a name is sought either for a type of the program, and stands for that
type at level 0, or for a name that a statement uses, and is no type and not found at level 0. Only
names of the second kind are ever unknown. -/
structure Plan.Separates {α : Type} (p : Program) (plan : Plan α) : Prop where
  sought : ∀ {id : ScopeId} {name : String} {moment : Walker},
    plan.Meets Walker.start (.resolve id name) moment →
      ∃ found later, Walk.resolve id name moment = .ok found later ∧
        ((∃ typeName ∈ p.typeNames, typeName.name = name) ∧
            (∃ type : Scalar, name = type.name ∧ found = some ⟨.scalar type, 0⟩) ∨
          (∃ used ∈ p.mentions, used.name = name) ∧
            ∀ resolved, found = some resolved →
              1 ≤ resolved.level ∧ ∀ type, resolved.symbol ≠ .scalar type)
  unknown : ∀ {name : String} {line : Nat} {later : Walker},
    plan.perform Walker.start = .error (.unresolved name line) later → ⟨name, line⟩ ∈ p.mentions

theorem Program.Proper.named {p : Program} (hproper : p.Proper) :
    ∀ d ∈ p.declarations, d.Named p.typeNames p.mentions := by
  intro d hmem
  refine ⟨IsName.untyped ?_, fun typeName hgiven ↦ ?_, fun used hused ↦ ?_⟩
  · exact hproper.isName_of_names _ (List.mem_cons_of_mem _ (List.mem_map_of_mem hmem))
  · have hall : typeName ∈ p.typeNames := List.mem_flatMap.2 ⟨d, hmem, hgiven⟩
    exact ⟨hall, hproper.type_of_typeNames typeName hall⟩
  · exact List.mem_append_left _ (List.mem_flatMap.2 ⟨d, hmem, hused⟩)

theorem separates_of_under {α : Type} {p : Program} {plan : Plan α} (hproper : p.Proper)
    (hplan : plan.Under (naming p.typeNames p.mentions) (fun _ ↦ True))
    (hdisciplined : plan.Disciplined p) : plan.Separates p where
  sought {id name moment} hmeets := by
    obtain ⟨hasks, happart⟩ := hplan.of_meets naming_kept Scopes.Apart.builtins hmeets
    have hhere : moment.scopes.scope? id = some _ :=
      List.getElem?_eq_getElem (hdisciplined.moment hmeets).2.2
    refine ⟨_, _, Walk.resolve_of_scope hhere name, ?_⟩
    rcases hasks with ⟨typeName, hgiven, rfl⟩ | ⟨used, hused, rfl⟩
    · obtain ⟨type, htype⟩ := hproper.type_of_typeNames typeName hgiven
      refine .inl ⟨⟨typeName, hgiven, rfl⟩, type, htype, ?_⟩
      rw [htype]
      exact happart.resolve_type hhere type
    · refine .inr ⟨⟨used, hused, rfl⟩, fun resolved hfound ↦ ?_⟩
      have hname := (hproper.isName_of_mentions used hused).untyped
      exact happart.resolve_untyped hhere hname hfound
  unknown herror := by
    rcases hplan.of_error naming_kept Scopes.Apart.builtins herror with hused | ⟨id, hclosed⟩
    · exact hused
    · cases hclosed

/-! ### References in the annotated text -/

open Annotate

theorem Site.Encloses.outer {p : Program} {site : Site} (hencloses : p.site.Encloses site) :
    ∃ nearer, site.outer = nearer ++ [Frame.builtins] := by
  induction hencloses with
  | refl => exact ⟨[], rfl⟩
  | tail hmiddle hopens induct =>
    obtain ⟨nearer, houter⟩ := induct
    cases hopens with
    | procedure heading inner body => exact ⟨_ :: nearer, congrArg _ houter⟩

/-- Behind the frame of the scalar types there is none, so what is not a type is not at level 0. -/
theorem Site.Encloses.level_pos {p : Program} {site : Site} (hencloses : p.site.Encloses site)
    {name : String} (hname : Untyped name) {binding : Binding} {level : Nat}
    (hnearest : site.environment.nearest name = some (binding, level)) :
    1 ≤ level ∧ ∀ type, binding ≠ .scalar type := by
  have hnamed := Environment.name_of_nearest hnearest
  have hother : ∀ type, binding ≠ .scalar type := by
    rintro type rfl
    exact hname type hnamed.symm
  refine ⟨Nat.one_le_iff_ne_zero.2 fun hzero ↦ ?_, hother⟩
  obtain ⟨nearer, frame, outer, hsplit, -, hbinding, hlevel⟩ :=
    Environment.nearest_eq_some_iff.1 hnearest
  obtain ⟨others, houter⟩ := hencloses.outer
  obtain rfl := List.length_eq_zero_iff.1 (hlevel.symm.trans hzero)
  rw [Site.environment, houter, ← List.cons_append] at hsplit
  obtain ⟨-, hlast⟩ := List.append_inj' hsplit rfl
  obtain rfl := List.singleton_inj.1 hlast
  have hmem : binding ∈ Frame.builtins := Frame.mem_of_binding? hbinding
  rcases List.mem_cons.1 hmem with rfl | hmem
  · exact hother .integer rfl
  · exact hother .real (List.mem_singleton.1 hmem)

/-- A reference that is seen in an annotated text shows what a program declares. -/
theorem sighted_reference {limit : Nat} {text annotated : String} {p : Program}
    (hparse : parse limit text = .ok p)
    (hannotated : (Report.ofWalk (program p)).outcome = .ok annotated) {shown tag : String}
    (hseen : .reference shown tag ∈ sightings annotated.toList) :
    ∃ used seen binding level, .referred used seen ∈ p.occurrences ∧
      seen.nearest used.name = some (binding, level) ∧ 1 ≤ level ∧
      (∀ type, binding ≠ .scalar type) ∧ shown = tagged used.name level ∧ tag = binding.tag := by
  rw [sightings_annotated hparse hannotated] at hseen
  obtain ⟨o, hmem, hsighting⟩ := List.mem_map.1 hseen
  cases o with
  | named name level => cases hsighting
  | referred used seen =>
    obtain ⟨site, hencloses, rfl, -⟩ := Program.site_of_referred hmem
    obtain ⟨-, binding, level, hnearest, -⟩ := legible_of_annotated hparse hannotated _ hmem
    rw [Occurrence.sighting, hnearest] at hsighting
    obtain ⟨rfl, rfl⟩ := Sighting.reference.inj hsighting
    obtain ⟨hlevel, hother⟩ :=
      hencloses.level_pos (wellNamed_of_parse hparse _ hmem).untyped hnearest
    exact ⟨used, _, binding, level, hmem, hnearest, hlevel, hother, rfl, rfl⟩

/-- In a parsed program all names are identifiers in lower case, and all names that are given for
types are those of the scalar types. So neither pass ever finds a type to be hidden or a reference
to be a type, and no reference in the annotated text shows one. -/
theorem types_and_names_never_clash {limit : Nat} {text : String} {p : Program}
    (hparse : parse limit text = .ok p) :
    ((∀ name ∈ p.names, IsIdentifier name) ∧ (∀ used ∈ p.mentions, IsIdentifier used.name) ∧
      ∀ typeName ∈ p.typeNames, typeName.name = "INTEGER" ∨ typeName.name = "REAL") ∧
    ((Check.Planned.program p).perform = Check.program p ∧
      (Check.Planned.program p).Separates p) ∧
    ((Annotate.Planned.program p).perform = Annotate.program p ∧
      (Annotate.Planned.program p).Separates p) ∧
    ∀ annotated, (Report.ofWalk (program p)).outcome = .ok annotated →
      ∀ shown tag, .reference shown tag ∈ sightings annotated.toList →
        ∃ used seen binding level, .referred used seen ∈ p.occurrences ∧
          seen.nearest used.name = some (binding, level) ∧ 1 ≤ level ∧
          (∀ type, binding ≠ .scalar type) ∧ shown = tagged used.name level ∧
          tag = binding.tag := by
  have hproper := proper_of_parse hparse
  refine ⟨⟨?_, ?_, ?_⟩, ⟨Check.Planned.perform_program p, ?_⟩,
    ⟨Annotate.Planned.perform_program p, ?_⟩, ?_⟩
  · exact fun name hmem ↦ (hproper.isName_of_names name hmem).identifier
  · exact fun used hmem ↦ (hproper.isName_of_mentions used hmem).identifier
  · intro typeName hmem
    obtain ⟨type, htype⟩ := hproper.type_of_typeNames typeName hmem
    cases type with
    | integer => exact .inl htype
    | real => exact .inr htype
  · exact separates_of_under hproper
      (Check.Planned.under_program hproper.named (List.subset_append_right _ _))
      (Check.Planned.disciplined p)
  · exact separates_of_under hproper
      (Annotate.Planned.under_program hproper.named (List.subset_append_right _ _))
      (Annotate.Planned.disciplined p)
  · intro annotated hannotated shown tag hseen
    exact sighted_reference hparse hannotated hseen

/-- Names that only begin like those of types are no types, and a procedure may be read like a
variable. -/
theorem types_and_names_never_clash_shadowed :
    ∃ p, parse 60 "PROGRAM p; VAR real_, x : REAL; PROCEDURE Integers(y : INTEGER); VAR x : INTEGER;
        BEGIN x := y + real_ END; BEGIN x := Integers END." = .ok p ∧
      p.names = ["p", "real_", "x", "integers", "y", "x"] ∧
      p.typeNames.map Mention.name = ["REAL", "REAL", "INTEGER", "INTEGER"] ∧
      p.mentions.map Mention.name = ["x", "y", "real_", "x", "integers"] ∧
      (∀ name ∈ p.names, IsIdentifier name) ∧
      (Check.Planned.program p).Separates p ∧ (Annotate.Planned.program p).Separates p := by
  obtain ⟨p, hparse, hnames⟩ : ∃ p,
      parse 60 "PROGRAM p; VAR real_, x : REAL; PROCEDURE Integers(y : INTEGER); VAR x : INTEGER;
        BEGIN x := y + real_ END; BEGIN x := Integers END." = .ok p ∧
      decide (p.names = ["p", "real_", "x", "integers", "y", "x"] ∧
        p.typeNames.map Mention.name = ["REAL", "REAL", "INTEGER", "INTEGER"] ∧
        p.mentions.map Mention.name = ["x", "y", "real_", "x", "integers"]) = true :=
    exists_of_any (by decide +kernel)
  obtain ⟨hdeclared, hgiven, hused⟩ := of_decide_eq_true hnames
  obtain ⟨⟨hidentifiers, -, -⟩, ⟨-, hcheck⟩, ⟨-, hannotate⟩, -⟩ :=
    types_and_names_never_clash hparse
  exact ⟨p, hparse, hdeclared, hgiven, hused, hidentifiers, hcheck, hannotate⟩

end MiniPascal
