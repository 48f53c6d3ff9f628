import MiniPascal.Proofs.Annotation.Written
import MiniPascal.Proofs.Scope.Agreement

/-!
# Checking is lexical scoping

`checking_is_lexical_scoping`: the pass over open scopes accepts just the well-scoped programs, and
of any other program it reports the first violation. As annotating takes the same steps, what is
known of it from `ends_annotated_program` holds of checking.

The frames around a block are its own and those of the blocks that enclose it, each cut off behind
the procedure on the way (`Site.Encloses.frame`). So a name never stands for what is declared in a
block beside or inside the one that uses it.
-/

set_option autoImplicit false
set_option relaxedAutoImplicit false

namespace MiniPascal

/-! ### The frames around a block -/

/-- A frame that a block of a program sees is the one around the program, or the beginning of the
frame of a block that encloses it. -/
theorem Site.Encloses.frame {p : Program} {site : Site} (hencloses : p.site.Encloses site) :
    ∀ frame ∈ site.environment, frame = Frame.builtins ∨
      ∃ around, p.site.Encloses around ∧ around.Encloses site ∧ frame <+: around.frame := by
  induction hencloses with
  | refl =>
    intro frame hmem
    rcases List.mem_cons.1 hmem with rfl | hmem
    · exact .inr ⟨p.site, .refl, .refl, List.prefix_rfl⟩
    · exact .inl (List.mem_singleton.1 hmem)
  | @tail middle site hmiddle hopens induct =>
    intro frame hmem
    cases hopens with
    | @procedure outer before after statements heading inner body =>
      rcases List.mem_cons.1 hmem with rfl | hmem
      · exact .inr ⟨_, hmiddle.tail (.procedure heading inner body), .refl, List.prefix_rfl⟩
      rcases List.mem_cons.1 hmem with rfl | hmem
      · refine .inr ⟨_, hmiddle, .single (.procedure heading inner body), ?_⟩
        refine ⟨after.map Declaration.binding, ?_⟩
        simp [Site.frame, Declaration.binding]
      · refine (induct frame (List.mem_cons_of_mem _ hmem)).imp id ?_
        rintro ⟨around, haround, hencloses, hprefix⟩
        exact ⟨around, haround, hencloses.tail (.procedure heading inner body), hprefix⟩

/-- What a name stands for in a block of a program is a scalar type, or declared in a block that
encloses it. -/
theorem Site.Encloses.nearest {p : Program} {site : Site} (hencloses : p.site.Encloses site)
    {name : String} {binding : Binding} {level : Nat}
    (hfound : site.environment.nearest name = some (binding, level)) :
    binding ∈ Frame.builtins ∨
      ∃ around, p.site.Encloses around ∧ around.Encloses site ∧ binding ∈ around.frame := by
  obtain ⟨nearer, frame, outer, hsplit, -, hbinding, -⟩ := Environment.nearest_eq_some_iff.1 hfound
  have hmem : binding ∈ frame := Frame.mem_of_binding? hbinding
  have hframe : frame ∈ site.environment := by simp [hsplit]
  rcases hencloses.frame frame hframe with rfl | ⟨around, haround, hsite, hprefix⟩
  · exact .inl hmem
  · exact .inr ⟨around, haround, hsite, hprefix.subset hmem⟩

/-! ### Walks from the start -/

namespace Ends

variable {α : Type} {env later : Environment} {walk : Walk α} {check : Except ScopeFault Unit}
  {good : α → Prop}

theorem discarded (hends : Ends env walk check later good) :
    Ends env walk.discarded check later (fun _ ↦ True) := by
  intro before hfollow
  rcases hends before hfollow with ⟨hcheck, v, after, hok, hafter, -⟩ |
    ⟨fault, after, hcheck, hfails⟩
  · exact .inl ⟨hcheck, (), after, bind_of_ok hok, hafter, trivial⟩
  · exact .inr ⟨fault, after, hcheck, bind_of_error hfails⟩

/-- A walk that ends as a check does has its outcome. -/
theorem outcome (hends : Ends .outermost walk check later good) :
    (check = .ok () ∧ ∃ v, (Report.ofWalk walk).outcome = .ok v ∧ good v) ∨
      ∃ fault, check = .error fault ∧ (Report.ofWalk walk).outcome = .error (.scope fault) := by
  unfold Report.ofWalk
  rcases hends Walker.start Scopes.follow_builtins with ⟨hcheck, v, after, hok, -, hgood⟩ |
    ⟨fault, after, hcheck, hfails⟩
  · rw [hok]
    exact .inl ⟨hcheck, v, rfl, hgood⟩
  · rw [hfails]
    exact .inr ⟨fault, hcheck, rfl⟩

end Ends

theorem outcome_check_program (p : Program) :
    (Report.ofWalk (Check.program p)).outcome = (Scoping.program p).mapError .scope := by
  have hends : Ends .outermost (Check.program p) (Scoping.program p) .outermost (fun _ ↦ True) := by
    rw [← discarded_program]
    exact (ends_annotated_program p).discarded
  rcases hends.outcome with ⟨hcheck, v, hok, -⟩ | ⟨fault, hcheck, hfails⟩
  · rw [hcheck, hok]
    rfl
  · rw [hcheck, hfails]
    rfl

/-- Checking a program gives what its lexical scoping gives, the first fault included. It succeeds
for the well-scoped programs, in which no name stands for something that is not declared around. -/
theorem checking_is_lexical_scoping (p : Program) :
    (Report.ofWalk (Check.program p)).outcome = (Scoping.program p).mapError .scope ∧
      ((Report.ofWalk (Check.program p)).outcome = .ok () ↔ p.WellScoped) ∧
        ∀ site, p.site.Encloses site → ∀ name binding level,
          site.environment.nearest name = some (binding, level) →
            binding ∈ Frame.builtins ∨
              ∃ around, p.site.Encloses around ∧ around.Encloses site ∧ binding ∈ around.frame := by
  refine ⟨outcome_check_program p, ?_, fun site hencloses name binding level hfound ↦
    hencloses.nearest hfound⟩
  rw [outcome_check_program, ← Scoping.program_eq_ok_iff]
  cases Scoping.program p with
  | ok => exact ⟨fun _ ↦ rfl, fun _ ↦ rfl⟩
  | error fault => exact ⟨nofun, nofun⟩

end MiniPascal
