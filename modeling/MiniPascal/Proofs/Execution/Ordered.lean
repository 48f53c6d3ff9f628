import MiniPascal.Table
import Mathlib.Data.List.Sort

/-!
# Tables are in order

A table that is filled by `Table.insert` has its names in strictly ascending order of their bytes,
each of them once: `ascending_insert`. Inserting adds no name but the one that is inserted
(`mem_names_insert`). Such a table is determined by what is found in it (`Ascending.ext`).

In any table, the later of two entries under one name replaces the other (`insert_insert`), and
under different names it does not matter which of them comes first (`insert_comm`).
-/

set_option autoImplicit false
set_option relaxedAutoImplicit false

namespace MiniPascal

theorem nameBytes_injective {name other : String} (hbytes : nameBytes name = nameBytes other) :
    name = other :=
  String.toByteArray_inj.1 (ByteArray.ext (Array.toList_inj.1 hbytes))

theorem nameBytes_lt_of_not_lt {name other : String} (hnot : ¬ nameBytes name < nameBytes other)
    (hne : name ≠ other) : nameBytes other < nameBytes name :=
  Std.lt_of_le_of_ne (List.not_lt.1 hnot) fun hbytes ↦ hne (nameBytes_injective hbytes.symm)

theorem nameBytes_trichotomy (name other : String) :
    nameBytes name < nameBytes other ∨ name = other ∨ nameBytes other < nameBytes name := by
  by_cases hless : nameBytes name < nameBytes other
  · exact .inl hless
  by_cases hsame : name = other
  · exact .inr (.inl hsame)
  · exact .inr (.inr (nameBytes_lt_of_not_lt hless hsame))

namespace Table

variable {α : Type}

def names (table : Table α) : List String := table.entries.map Prod.fst

/-- Each name is less than all names behind it. -/
def Ascending (table : Table α) : Prop := table.names.Pairwise (nameBytes · < nameBytes ·)

@[simp] theorem names_empty : (empty : Table α).names = [] := rfl

theorem ascending_empty : (empty : Table α).Ascending := .nil

theorem mem_names_insert {table : Table α} {name other : String} {value : α} :
    other ∈ (table.insert name value).names ↔ other = name ∨ other ∈ table.names := by
  obtain ⟨entries⟩ := table
  simp only [names, insert]
  induction entries with
  | nil => simp [insertEntry]
  | cons entry rest induct =>
    rw [insertEntry]
    split
    · simp
    split
    · next hsame => simp [hsame]
    · rw [List.map_cons, List.map_cons, List.mem_cons, List.mem_cons, induct]
      exact or_left_comm

theorem get?_eq_none_iff {table : Table α} {name : String} :
    table.get? name = none ↔ name ∉ table.names := by
  rw [get?, List.lookup_eq_none_iff, names, List.mem_map]
  constructor
  · rintro hnone ⟨entry, hmem, rfl⟩
    simpa using hnone entry hmem
  · intro hnot entry hmem
    simpa using fun hname ↦ hnot ⟨entry, hmem, Eq.symm hname⟩

section Entries

variable {name other : String} {value old : α} {rest : List (String × α)}

theorem insertEntry_of_lt (hless : nameBytes name < nameBytes other) :
    insertEntry name value ((other, old) :: rest) = (name, value) :: (other, old) :: rest :=
  if_pos hless

theorem insertEntry_self :
    insertEntry name value ((name, old) :: rest) = (name, value) :: rest := by
  rw [insertEntry, if_neg (List.lt_irrefl _), if_pos rfl]

theorem insertEntry_of_gt (hless : nameBytes other < nameBytes name) :
    insertEntry name value ((other, old) :: rest) =
      (other, old) :: insertEntry name value rest := by
  have hne : name ≠ other := fun hsame ↦ List.lt_irrefl _ (hsame ▸ hless)
  rw [insertEntry, if_neg (List.lt_asymm hless), if_neg hne]

end Entries

/-- Of two entries under one name the later one counts. -/
theorem insert_insert (table : Table α) (name : String) (value other : α) :
    (table.insert name value).insert name other = table.insert name other := by
  obtain ⟨entries⟩ := table
  refine congrArg Table.mk ?_
  simp only [insert]
  induction entries with
  | nil => exact insertEntry_self
  | cons entry rest induct =>
    obtain ⟨first, old⟩ := entry
    rcases nameBytes_trichotomy name first with hless | rfl | hless
    · rw [insertEntry_of_lt hless, insertEntry_self, insertEntry_of_lt hless]
    · rw [insertEntry_self, insertEntry_self, insertEntry_self]
    · rw [insertEntry_of_gt hless, insertEntry_of_gt hless, induct,
        insertEntry_of_gt hless]

/-- Entries under different names are put in place in either order. -/
theorem insert_comm (table : Table α) {first second : String} (hne : first ≠ second)
    (value other : α) :
    (table.insert first value).insert second other =
      (table.insert second other).insert first value := by
  wlog hless : nameBytes first < nameBytes second generalizing first second value other
  · exact (this hne.symm other value (nameBytes_lt_of_not_lt hless hne)).symm
  obtain ⟨entries⟩ := table
  refine congrArg Table.mk ?_
  simp only [insert]
  induction entries with
  | nil =>
    change insertEntry second other [(first, value)] = insertEntry first value [(second, other)]
    rw [insertEntry_of_gt hless, insertEntry_of_lt hless]
    rfl
  | cons entry rest induct =>
    obtain ⟨name, old⟩ := entry
    -- Only where the first name belongs at the head is the place of the second one not settled.
    rcases nameBytes_trichotomy first name with hfirst | rfl | hfirst
    · rw [insertEntry_of_lt hfirst, insertEntry_of_gt hless]
      rcases nameBytes_trichotomy second name with hsecond | rfl | hsecond
      · rw [insertEntry_of_lt hsecond, insertEntry_of_lt hless]
      · rw [insertEntry_self, insertEntry_of_lt hless]
      · rw [insertEntry_of_gt hsecond, insertEntry_of_lt hfirst]
    · rw [insertEntry_self, insertEntry_of_gt hless, insertEntry_of_gt hless,
        insertEntry_self]
    · have hsecond := List.lt_trans hfirst hless
      rw [insertEntry_of_gt hfirst, insertEntry_of_gt hsecond, induct,
        insertEntry_of_gt hsecond, insertEntry_of_gt hfirst]

theorem ascending_insert {table : Table α} (hascending : table.Ascending) (name : String)
    (value : α) : (table.insert name value).Ascending := by
  obtain ⟨entries⟩ := table
  unfold Ascending at *
  induction entries with
  | nil => exact List.pairwise_singleton ..
  | cons entry rest induct =>
    obtain ⟨hfirst, hrest⟩ := List.pairwise_cons.1 hascending
    simp only [names, insert] at induct ⊢
    rw [insertEntry]
    split
    · next hless =>
      refine List.pairwise_cons.2 ⟨fun other hmem ↦ ?_, hascending⟩
      rcases List.mem_cons.1 hmem with rfl | hmem
      · exact hless
      · exact List.lt_trans hless (hfirst other hmem)
    split
    · next hsame =>
      rw [hsame]
      exact hascending
    · next hnot hne =>
      refine List.pairwise_cons.2 ⟨fun other hmem ↦ ?_, induct hrest⟩
      rcases (@mem_names_insert _ ⟨rest⟩ _ _ _).1 hmem with rfl | hmem
      · exact nameBytes_lt_of_not_lt hnot hne
      · exact hfirst other hmem

namespace Ascending

variable {table other : Table α}

theorem entries (hascending : table.Ascending) :
    table.entries.Pairwise fun first second ↦ nameBytes first.1 < nameBytes second.1 := by
  rwa [Ascending, names, List.pairwise_map] at hascending

/-- An entry is found under its name. -/
theorem get?_eq_some_iff (hascending : table.Ascending) {name : String} {value : α} :
    table.get? name = some value ↔ (name, value) ∈ table.entries := by
  obtain ⟨entries⟩ := table
  have hpairwise := hascending.entries
  clear hascending
  simp only [get?] at *
  induction entries with
  | nil => simp
  | cons entry rest induct =>
    obtain ⟨first, old⟩ := entry
    obtain ⟨hfirst, hrest⟩ := List.pairwise_cons.1 hpairwise
    rw [List.lookup_cons, List.mem_cons, Prod.mk.injEq]
    by_cases hname : name = first
    · subst hname
      have hnot : (name, value) ∉ rest := fun hmem ↦
        List.lt_irrefl _ (hfirst (name, value) hmem)
      simp [hnot, eq_comm]
    · simp [hname, beq_false_of_ne, induct hrest]

/-- Tables in order are equal if the same is found in them under each name. -/
theorem ext (hascending : table.Ascending) (hother : other.Ascending)
    (hget : ∀ name, table.get? name = other.get? name) : table = other := by
  have hentries : table.entries = other.entries := by
    refine List.Pairwise.eq_of_mem_iff hascending.entries hother.entries ?_
    rintro ⟨name, value⟩
    rw [← hascending.get?_eq_some_iff, ← hother.get?_eq_some_iff, hget]
  obtain ⟨entries⟩ := table
  exact congrArg Table.mk hentries

end Ascending

end Table

end MiniPascal
