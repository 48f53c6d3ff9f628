import MiniPascal.Proofs.Execution.Ordered
import Mathlib.Data.List.Dedup

/-!
# Tables and their histories

`Table.insertAll` is the table behind any sequence of writes, and `lastWrite` what the last of them
put under a name. `holds_last_writes`: a table that is filled from nothing holds the last write
under each name, once and in the order of the names, and nothing else of its history. So two
histories lead to the same entries exactly if they end in the same last writes.

All of this is about any values. Where they are told apart bit by bit, so are the entries.
-/

set_option autoImplicit false
set_option relaxedAutoImplicit false

namespace MiniPascal

variable {α : Type}

/-! ### Last writes -/

/-- What was written last under a name. -/
def lastWrite (name : String) : List (String × α) → Option α
  | [] => none
  | (other, value) :: later =>
    (lastWrite name later).or (if name = other then some value else none)

theorem lastWrite_eq_none_iff {name : String} {writes : List (String × α)} :
    lastWrite name writes = none ↔ name ∉ writes.map Prod.fst := by
  induction writes with
  | nil => simp [lastWrite]
  | cons write later induct => simp [lastWrite, induct, and_comm]

/-- The last write under a name is the one behind which the name is not written any more. -/
theorem lastWrite_eq_some_iff {name : String} {value : α} {writes : List (String × α)} :
    lastWrite name writes = some value ↔
      ∃ before after, writes = before ++ (name, value) :: after ∧ name ∉ after.map Prod.fst := by
  induction writes with
  | nil => simp [lastWrite]
  | cons write later induct =>
    obtain ⟨other, first⟩ := write
    rw [lastWrite, Option.or_eq_some_iff, induct, lastWrite_eq_none_iff]
    constructor
    · rintro (⟨before, after, rfl, hafter⟩ | ⟨hlater, hfirst⟩)
      · exact ⟨(other, first) :: before, after, rfl, hafter⟩
      · split at hfirst
        · next hname =>
          obtain rfl := Option.some.inj hfirst
          exact ⟨[], later, by rw [hname]; rfl, hlater⟩
        · cases hfirst
    · rintro ⟨before, after, hsplit, hafter⟩
      cases before with
      | nil =>
        obtain ⟨hwrite, rfl⟩ := List.cons.inj hsplit
        obtain ⟨rfl, rfl⟩ := Prod.mk.inj hwrite
        exact .inr ⟨hafter, if_pos rfl⟩
      | cons second before =>
        obtain ⟨-, rfl⟩ := List.cons.inj hsplit
        exact .inl ⟨before, after, rfl, hafter⟩

namespace Table

/-- The table behind some writes, one after the other. -/
def insertAll (table : Table α) (writes : List (String × α)) : Table α :=
  writes.foldl (fun table write ↦ table.insert write.1 write.2) table

/-! ### What a history leaves -/

section History

variable {table : Table α} {writes : List (String × α)} {name : String}

theorem get?_insertAll :
    (table.insertAll writes).get? name = (lastWrite name writes).or (table.get? name) := by
  induction writes generalizing table with
  | nil => rfl
  | cons write later induct =>
    obtain ⟨other, value⟩ := write
    change ((table.insert other value).insertAll later).get? name = _
    rw [induct, get?_insert, lastWrite, Option.or_assoc]
    split <;> rfl

theorem mem_names_insertAll :
    name ∈ (table.insertAll writes).names ↔ name ∈ writes.map Prod.fst ∨ name ∈ table.names := by
  induction writes generalizing table with
  | nil => simp [insertAll]
  | cons write later induct =>
    change name ∈ ((table.insert write.1 write.2).insertAll later).names ↔ _
    rw [induct, mem_names_insert, List.map_cons, List.mem_cons, or_left_comm, or_assoc]

theorem ascending_insertAll (hascending : table.Ascending) :
    (table.insertAll writes).Ascending := by
  induction writes generalizing table with
  | nil => exact hascending
  | cons write later induct => exact induct (ascending_insert hascending write.1 write.2)

/-- In ascending order no name comes twice. -/
theorem Ascending.nodup_names (hascending : table.Ascending) : table.names.Nodup := by
  refine List.Pairwise.imp ?_ hascending
  rintro name _ hless rfl
  exact List.lt_irrefl _ hless

end History

/-! ### Tables that are filled from nothing -/

section Filled

variable {writes others : List (String × α)} {name : String}

theorem get?_filled : (empty.insertAll writes).get? name = lastWrite name writes := by
  rw [get?_insertAll, get?_empty, Option.or_none]

theorem mem_names_filled :
    name ∈ (empty.insertAll writes).names ↔ name ∈ writes.map Prod.fst := by
  rw [mem_names_insertAll, names_empty, or_iff_left List.not_mem_nil]

theorem ascending_filled : (empty.insertAll writes).Ascending := ascending_insertAll ascending_empty

theorem size_filled : (empty.insertAll writes).size = (writes.map Prod.fst).dedup.length := by
  have hperm : (empty.insertAll writes).names.Perm (writes.map Prod.fst).dedup := by
    refine (List.perm_ext_iff_of_nodup ascending_filled.nodup_names (List.nodup_dedup _)).2 ?_
    intro name
    rw [mem_names_filled, List.mem_dedup]
  rw [← hperm.length_eq, names, List.length_map, size]

/-- Only the last writes make a difference. -/
theorem filled_eq_iff :
    (empty.insertAll writes).entries = (empty.insertAll others).entries ↔
      ∀ name, lastWrite name writes = lastWrite name others := by
  constructor
  · intro hentries name
    rw [← get?_filled, ← get?_filled, get?, get?, hentries]
  · intro hlast
    refine congrArg entries (ascending_filled.ext ascending_filled fun name ↦ ?_)
    rw [get?_filled, get?_filled, hlast name]

/-- A table that is filled from nothing, whatever its history. -/
theorem holds_last_writes (writes : List (String × α)) :
    (∀ name value, (empty.insertAll writes).get? name = some value ↔
      ∃ before after, writes = before ++ (name, value) :: after ∧ name ∉ after.map Prod.fst) ∧
    (∀ name, (empty.insertAll writes).get? name = none ↔ name ∉ writes.map Prod.fst) ∧
    (empty.insertAll writes).names.Pairwise (nameBytes · < nameBytes ·) ∧
    (∀ name, (empty.insertAll writes).names.count name =
      if name ∈ writes.map Prod.fst then 1 else 0) ∧
    (∀ name value, (name, value) ∈ (empty.insertAll writes).entries ↔
      lastWrite name writes = some value) ∧
    (empty.insertAll writes).size = (writes.map Prod.fst).dedup.length ∧
    ∀ others, (empty.insertAll writes).entries = (empty.insertAll others).entries ↔
      ∀ name, lastWrite name writes = lastWrite name others := by
  refine ⟨?_, ?_, ascending_filled, ?_, ?_, size_filled, fun _ ↦ filled_eq_iff⟩
  · intro name value
    rw [get?_filled, lastWrite_eq_some_iff]
  · intro name
    rw [get?_filled, lastWrite_eq_none_iff]
  · intro name
    rw [ascending_filled.nodup_names.count]
    simp only [mem_names_filled]
  · intro name value
    rw [← ascending_filled.get?_eq_some_iff, get?_filled]

/-- Empty names and names that begin alike are in order, too. -/
example : (empty.insertAll [("ab", 1), ("é", 2), ("", 3), ("a", 4), ("ab", 5)]).entries =
    [("", 3), ("a", 4), ("ab", 5), ("é", 2)] := by decide

end Filled

end Table

end MiniPascal
