/-!
Tables of named entries, ordered by name.

Names are ordered by their UTF-8 bytes. A table holds a name at most once: `Table.insert` replaces
an entry under the same name, and `Table.get?_insert` says that it changes no other.
-/

set_option autoImplicit false
set_option relaxedAutoImplicit false

namespace MiniPascal

/-- The bytes by which names are ordered. -/
def nameBytes (name : String) : List UInt8 := name.toUTF8.data.toList

/-- Entries under names. Those built by `Table.insert` have their names in ascending order. -/
structure Table (α : Type) where
  entries : List (String × α)
  deriving DecidableEq, Repr

namespace Table

variable {α : Type}

def empty : Table α := ⟨[]⟩

def size (table : Table α) : Nat := table.entries.length

def isEmpty (table : Table α) : Bool := table.entries.isEmpty

def get? (table : Table α) (name : String) : Option α := table.entries.lookup name

/-- Puts an entry where its name belongs, in place of one under the same name. -/
def insertEntry (name : String) (value : α) : List (String × α) → List (String × α)
  | [] => [(name, value)]
  | (other, old) :: rest =>
    if nameBytes name < nameBytes other then (name, value) :: (other, old) :: rest
    else if name = other then (name, value) :: rest
    else (other, old) :: insertEntry name value rest

def insert (table : Table α) (name : String) (value : α) : Table α :=
  ⟨insertEntry name value table.entries⟩

theorem lookup_insertEntry (name : String) (value : α) (entries : List (String × α))
    (key : String) :
    (insertEntry name value entries).lookup key =
      if key = name then some value else entries.lookup key := by
  induction entries with
  | nil =>
    by_cases hsame : key = name <;>
      simp [insertEntry, List.lookup_cons, hsame, beq_false_of_ne]
  | cons entry rest induct =>
    obtain ⟨other, old⟩ := entry
    unfold insertEntry
    by_cases hsame : key = name
    · subst hsame
      split
      · simp
      · split
        · simp
        · next hdistinct => simp [List.lookup_cons, induct, beq_false_of_ne hdistinct]
    · split
      · simp [List.lookup_cons, hsame, beq_false_of_ne]
      · split
        · next hequal =>
          subst hequal
          simp [List.lookup_cons, hsame, beq_false_of_ne]
        · simp [List.lookup_cons, induct, hsame]

@[simp] theorem get?_empty (name : String) : (empty : Table α).get? name = none := rfl

theorem get?_insert (table : Table α) (name : String) (value : α) (key : String) :
    (table.insert name value).get? key = if key = name then some value else table.get? key :=
  lookup_insertEntry name value table.entries key

end Table

end MiniPascal
