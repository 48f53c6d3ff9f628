import MiniPascal.Proofs.Annotation.Level

/-!
# References that look alike

The level of a reference stands behind its name without a mark between them, and names may end in
digits. So the references to two names can look alike: with eleven open scopes, `x` at level 11 and
`x1` at level 1 are both written `x11` (`references_alike_nested`).

`references_alike_iff` says that this is the only way: one name is the other with digits behind it,
and the levels make up for these digits. Then one level is greater by ten at least
(`add_ten_le_of_append`), so references to declarations that are nearer to each other differ.
-/

set_option autoImplicit false
set_option relaxedAutoImplicit false

namespace MiniPascal

open Annotate

/-- The first name with its level looks like the second with its own: the second name goes on with
digits that the level of the first begins with. -/
def Environment.Confuses (seen : Environment) (name name' : String) : Prop :=
  ∃ digits binding level binding' level', digits ≠ "" ∧ name' = name ++ digits ∧
    seen.nearest name = some (binding, level) ∧ seen.nearest name' = some (binding', level') ∧
      toString level = digits ++ toString level' ∧ binding.tag = binding'.tag

/-! ### Names with levels -/

/-- Of two texts that are the same, one goes on where the other is cut, unless both are cut at the
same place. -/
theorem append_eq_append_cases {first second third fourth : String}
    (heq : first ++ second = third ++ fourth) :
    first = third ∨
      (∃ middle, middle ≠ "" ∧ third = first ++ middle ∧ second = middle ++ fourth) ∨
        ∃ middle, middle ≠ "" ∧ first = third ++ middle ∧ fourth = middle ++ second := by
  have hlists := congrArg String.toList heq
  rw [String.toList_append, String.toList_append, List.append_eq_append_iff] at hlists
  have hgap {a b c d : String} {middle : List Char} (hleft : b.toList = a.toList ++ middle)
      (hright : c.toList = middle ++ d.toList) :
      b = a ∨ ∃ middle, middle ≠ "" ∧ b = a ++ middle ∧ c = middle ++ d := by
    by_cases hempty : middle = []
    · rw [hempty, List.append_nil] at hleft
      exact .inl (String.toList_inj.1 hleft)
    · refine .inr ⟨String.ofList middle, ?_, ?_, ?_⟩
      · intro hnil
        rw [← String.toList_inj, String.toList_ofList] at hnil
        exact hempty hnil
      · rw [← String.toList_inj, String.toList_append, String.toList_ofList, hleft]
      · rw [← String.toList_inj, String.toList_append, String.toList_ofList, hright]
  rcases hlists with ⟨middle, hthird, hsecond⟩ | ⟨middle, hfirst, hfourth⟩
  · exact (hgap hthird hsecond).imp Eq.symm .inl
  · exact (hgap hfirst hfourth).imp id .inr

/-- A level that ends in another one and is longer is greater by ten at least. -/
theorem add_ten_le_of_append {level level' : Nat} {digits : String} (hne : digits ≠ "")
    (heq : toString level = digits ++ toString level') : level' + 10 ≤ level := by
  have hlists := congrArg String.toList heq
  rw [String.toList_append, toList_toString, toList_toString] at hlists
  have hvalue : level = 10 ^ (Nat.toDigits 10 level').length * Nat.ofDigitChars 10 digits.toList 0 +
      level' := by
    have hread := congrArg (Nat.ofDigitChars 10 · 0) hlists
    simp only [Nat.ofDigitChars_ten_toDigits, Nat.ofDigitChars_append] at hread
    rwa [Nat.ofDigitChars_eq_ofDigitChars_zero, Nat.ofDigitChars_ten_toDigits] at hread
  have hdiffer : level ≠ level' := by
    rintro rfl
    exact hne (String.toList_eq_nil_iff.1 (List.self_eq_append_left.1 hlists))
  have hlength : 0 < (Nat.toDigits 10 level').length := List.length_pos_iff.2 Nat.toDigits_ne_nil
  have hpower : 10 ≤ 10 ^ (Nat.toDigits 10 level').length :=
    Nat.le_self_pow (Nat.ne_of_gt hlength) 10
  have hdigits : 0 < Nat.ofDigitChars 10 digits.toList 0 := by
    refine Nat.pos_of_ne_zero fun hzero ↦ hdiffer ?_
    rw [hvalue, hzero, Nat.mul_zero, Nat.zero_add]
  have hproduct := Nat.mul_le_mul hpower hdigits
  omega

/-! ### References in one environment -/

section References

variable {used used' : Mention} {seen : Environment}

theorem Environment.Confuses.sighting_eq (hconfused : seen.Confuses used.name used'.name) :
    (Occurrence.referred used seen).sighting = (Occurrence.referred used' seen).sighting := by
  obtain ⟨digits, binding, level, binding', level', -, hname, hnearest, hnearest', hlevel, htag⟩ :=
    hconfused
  have htext : tagged used.name level = tagged used'.name level' := by
    rw [tagged, tagged, hname, hlevel, String.append_assoc]
  simp only [Occurrence.sighting, hnearest, hnearest', htext, htag]

/-- References are seen alike if they have one name, or if their names and levels are confused. -/
theorem sighting_eq_iff (hlegible : (Occurrence.referred used seen).Legible)
    (hlegible' : (Occurrence.referred used' seen).Legible) :
    (Occurrence.referred used seen).sighting = (Occurrence.referred used' seen).sighting ↔
      used.name = used'.name ∨ seen.Confuses used.name used'.name ∨
        seen.Confuses used'.name used.name := by
  obtain ⟨-, binding, level, hnearest, -⟩ := hlegible
  obtain ⟨-, binding', level', hnearest', -⟩ := hlegible'
  constructor
  · intro halike
    simp only [Occurrence.sighting, hnearest, hnearest', Sighting.reference.injEq] at halike
    obtain ⟨htext, htag⟩ := halike
    rcases append_eq_append_cases htext with hname | ⟨digits, hne, hname, hlevel⟩ |
      ⟨digits, hne, hname, hlevel⟩
    · exact .inl hname
    · exact .inr (.inl ⟨digits, _, _, _, _, hne, hname, hnearest, hnearest', hlevel, htag⟩)
    · exact .inr (.inr ⟨digits, _, _, _, _, hne, hname, hnearest', hnearest, hlevel, htag.symm⟩)
  · rintro (hname | hconfused | hconfused)
    · simp only [Occurrence.sighting, hname]
    · exact hconfused.sighting_eq
    · exact hconfused.sighting_eq.symm

theorem Environment.Confuses.add_ten_le {name name' : String} {binding binding' : Binding}
    {level level' : Nat} (hconfused : seen.Confuses name name')
    (hnearest : seen.nearest name = some (binding, level))
    (hnearest' : seen.nearest name' = some (binding', level')) : level' + 10 ≤ level := by
  obtain ⟨digits, _, _, _, _, hne, -, hfound, hfound', hlevel, -⟩ := hconfused
  obtain ⟨-, rfl⟩ := Prod.mk.inj (Option.some.inj (hfound.symm.trans hnearest))
  obtain ⟨-, rfl⟩ := Prod.mk.inj (Option.some.inj (hfound'.symm.trans hnearest'))
  exact add_ten_le_of_append hne hlevel

end References

/-! ### References in a text -/

/-- Two references in the body of one block are written alike if and only if they have one name, or
one name with its level looks like the other with its own. The latter takes declarations that are at
least ten levels apart. -/
theorem references_alike_iff {limit : Nat} {text annotated : String} {p : Program}
    (hparse : parse limit text = .ok p)
    (hannotated : (Report.ofWalk (program p)).outcome = .ok annotated) {i j : Nat}
    {used used' : Mention} {seen : Environment}
    (hi : p.occurrences[i]? = some (.referred used seen))
    (hj : p.occurrences[j]? = some (.referred used' seen)) :
    ((sightings annotated.toList)[i]? = (sightings annotated.toList)[j]? ↔
      used.name = used'.name ∨ seen.Confuses used.name used'.name ∨
        seen.Confuses used'.name used.name) ∧
    ∀ binding level binding' level', seen.nearest used.name = some (binding, level) →
      seen.nearest used'.name = some (binding', level') → level < level' + 10 →
        level' < level + 10 →
          (sightings annotated.toList)[i]? = (sightings annotated.toList)[j]? →
            used.name = used'.name := by
  have hlegible := legible_of_annotated hparse hannotated
  have halike : (sightings annotated.toList)[i]? = (sightings annotated.toList)[j]? ↔
      used.name = used'.name ∨ seen.Confuses used.name used'.name ∨
        seen.Confuses used'.name used.name := by
    rw [sightings_annotated hparse hannotated, List.getElem?_map, List.getElem?_map, hi, hj,
      Option.map_some, Option.map_some, Option.some.injEq]
    exact sighting_eq_iff (hlegible _ (List.mem_of_getElem? hi))
      (hlegible _ (List.mem_of_getElem? hj))
  refine ⟨halike, ?_⟩
  intro binding level binding' level' hnearest hnearest' hnear hnear' hsame
  rcases halike.1 hsame with hname | hconfused | hconfused
  · exact hname
  · exact absurd (hconfused.add_ten_le hnearest hnearest') (by omega)
  · exact absurd (hconfused.add_ten_le hnearest' hnearest) (by omega)

/-- Ten procedures inside each other. The body of the last one refers to a variable of its own and
to one of the program. -/
def nestedText : String :=
  "program p;var x1:real;procedure a;procedure b;procedure c;procedure d;procedure e;procedure f;
procedure g;procedure h;procedure i;procedure j;var x:real;begin x:=x1 end;begin end;begin end;
begin end;begin end;begin end;begin end;begin end;begin end;begin end;begin end."

/-- What the body of the innermost procedure sees. -/
def nestedEnvironment : Environment :=
  [.var ⟨⟨"x", 2⟩, ⟨"REAL", 2⟩⟩] ::
    (["j", "i", "h", "g"].map fun name ↦ [.procedure ⟨name, 2, []⟩]) ++
    (["f", "e", "d", "c", "b"].map fun name ↦ [.procedure ⟨name, 1, []⟩]) ++
    [[.var ⟨⟨"x1", 1⟩, ⟨"REAL", 1⟩⟩, .procedure ⟨"a", 1, []⟩], Frame.builtins]

set_option maxRecDepth 2000 in
theorem exists_nested : ∃ p annotated, parse 60 nestedText = .ok p ∧
    (Report.ofWalk (program p)).outcome = .ok annotated ∧
    p.occurrences[15]? = some (Occurrence.referred ⟨"x", 2⟩ nestedEnvironment) ∧
    p.occurrences[16]? = some (Occurrence.referred ⟨"x1", 2⟩ nestedEnvironment) := by
  obtain ⟨p, hparse, htest⟩ : ∃ p : Program, parse 60 nestedText = .ok p ∧
      decide ((Report.ofWalk (program p)).outcome.isOk = true ∧
        p.occurrences[15]? = some (Occurrence.referred ⟨"x", 2⟩ nestedEnvironment) ∧
        p.occurrences[16]? = some (Occurrence.referred ⟨"x1", 2⟩ nestedEnvironment)) = true :=
    exists_parsed String.toList_ofList (by decide +kernel)
  obtain ⟨hok, hi, hj⟩ := of_decide_eq_true htest
  obtain ⟨annotated, hannotated⟩ := exists_of_isOk hok
  exact ⟨p, annotated, hparse, hannotated, hi, hj⟩

/-- References to different declarations can be written alike. -/
theorem references_alike_nested : ∃ p annotated, parse 60 nestedText = .ok p ∧
    (Report.ofWalk (program p)).outcome = .ok annotated ∧
    p.occurrences[15]? = some (.referred ⟨"x", 2⟩ nestedEnvironment) ∧
    p.occurrences[16]? = some (.referred ⟨"x1", 2⟩ nestedEnvironment) ∧
    (sightings annotated.toList)[15]? = some (.reference "x11" "REAL0") ∧
    (sightings annotated.toList)[16]? = some (.reference "x11" "REAL0") ∧
    nestedEnvironment.nearest "x" ≠ nestedEnvironment.nearest "x1" := by
  obtain ⟨p, annotated, hparse, hannotated, hi, hj⟩ := exists_nested
  refine ⟨p, annotated, hparse, hannotated, hi, hj, ?_⟩
  rw [sightings_annotated hparse hannotated, List.getElem?_map, List.getElem?_map, hi, hj]
  decide +kernel

/-- Ten levels lie between the two variables, and references to them are written alike. -/
theorem references_alike_iff_nested : ∃ p annotated, parse 60 nestedText = .ok p ∧
    (Report.ofWalk (program p)).outcome = .ok annotated ∧
    p.occurrences[15]? = some (.referred ⟨"x", 2⟩ nestedEnvironment) ∧
    p.occurrences[16]? = some (.referred ⟨"x1", 2⟩ nestedEnvironment) ∧
    ((sightings annotated.toList)[15]? = (sightings annotated.toList)[16]? ↔
      "x" = "x1" ∨ nestedEnvironment.Confuses "x" "x1" ∨ nestedEnvironment.Confuses "x1" "x") ∧
    ∀ binding level binding' level', nestedEnvironment.nearest "x" = some (binding, level) →
      nestedEnvironment.nearest "x1" = some (binding', level') → level < level' + 10 →
        level' < level + 10 →
          (sightings annotated.toList)[15]? = (sightings annotated.toList)[16]? → "x" = "x1" := by
  obtain ⟨p, annotated, hparse, hannotated, hi, hj⟩ := exists_nested
  exact ⟨p, annotated, hparse, hannotated, hi, hj, references_alike_iff hparse hannotated hi hj⟩

end MiniPascal
