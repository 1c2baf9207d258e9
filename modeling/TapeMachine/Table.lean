/-!
# TapeMachine.Table

Tables from names to values, in the order in which the names were entered.

A table is a list of pairs, so its order is part of it and `List.lookup` is the way to look a name
up. Entries are only ever added at the end, and only for names the table does not have yet; so the
first entry of a name is its only one.

* `Table.has` — whether a name has an entry.
* `Table.add` — enters a name at the end.
* `Table.sameBy` — whether two tables hold the same entries, order aside.
-/

namespace TapeMachine

/-- A table from names to values, in order of entry. -/
abbrev Table (α : Type) := List (String × α)

namespace Table

variable {α : Type}

/-- Whether a name has an entry. -/
def has (table : Table α) (name : String) : Bool :=
  (table.lookup name).isSome

/-- Enters a name at the end. -/
def add (table : Table α) (name : String) (value : α) : Table α :=
  table ++ [(name, value)]

/-- The names of a table, in order. -/
def names (table : Table α) : List String :=
  table.map Prod.fst

/-- Whether two tables without repeated names hold the same entries, up to `same`, in any
order. -/
def sameBy (same : α → α → Bool) (left right : Table α) : Bool :=
  left.length == right.length &&
    left.all fun entry =>
      match right.lookup entry.1 with
      | some value => same entry.2 value
      | none => false

@[simp] theorem names_nil : names ([] : Table α) = [] := rfl

@[simp] theorem names_add (table : Table α) (name : String) (value : α) :
    (table.add name value).names = table.names ++ [name] := by
  simp [names, add]

@[simp] theorem has_nil (name : String) : has ([] : Table α) name = false := rfl

theorem lookup_append (table other : Table α) (name : String) :
    (table ++ other).lookup name = (table.lookup name).or (other.lookup name) := by
  induction table with
  | nil => simp
  | cons entry rest ih =>
    obtain ⟨key, value⟩ := entry
    by_cases h : name == key
    · simp [List.lookup_cons, h]
    · simp [List.lookup_cons, h, ih]

/-- A name that is already there keeps its entry. -/
theorem lookup_add (table : Table α) (key name : String) (value : α) :
    (table.add key value).lookup name =
      (table.lookup name).or (if name == key then some value else none) := by
  rw [add, lookup_append]
  by_cases h : name == key <;> simp [List.lookup_cons, h]

/-- A table has exactly its names. -/
theorem has_eq_true_iff (table : Table α) (name : String) :
    table.has name = true ↔ name ∈ table.names := by
  induction table with
  | nil => simp
  | cons entry rest ih =>
    obtain ⟨key, value⟩ := entry
    by_cases h : name = key
    · simp [has, names, h]
    · have hb : (name == key) = false := by simp [h]
      simp only [has, names, List.lookup_cons, hb, List.map_cons, List.mem_cons, h,
        false_or] at ih ⊢
      exact ih

theorem has_eq_false_iff (table : Table α) (name : String) :
    table.has name = false ↔ name ∉ table.names := by
  rw [← has_eq_true_iff, Bool.not_eq_true]

/-- Where no name is repeated, looking a name up finds its entry. -/
theorem lookup_eq_some_iff_mem {table : Table α} (h : table.names.Nodup) {name : String}
    {value : α} : table.lookup name = some value ↔ (name, value) ∈ table := by
  induction table with
  | nil => simp
  | cons entry rest ih =>
    obtain ⟨key, first⟩ := entry
    simp only [names, List.map_cons, List.nodup_cons] at h
    by_cases hkey : name = key
    · subst hkey
      have hnot : (name, value) ∉ rest := fun hmem => h.1 (List.mem_map_of_mem hmem)
      simp [hnot, eq_comm]
    · have hb : (name == key) = false := by simp [hkey]
      simp only [List.lookup_cons, hb, List.mem_cons, Prod.mk.injEq, hkey, false_and, false_or]
      exact ih h.2

/-- Where no name is repeated, the order of a table does not matter for looking names up. -/
theorem lookup_of_perm {table other : Table α} (hperm : table.Perm other)
    (h : table.names.Nodup) (name : String) : table.lookup name = other.lookup name := by
  have hother : other.names.Nodup := (hperm.map Prod.fst).nodup_iff.mp h
  apply Option.ext
  intro value
  rw [lookup_eq_some_iff_mem h, lookup_eq_some_iff_mem hother, hperm.mem_iff]

/-- Tables of one size hold the same entries if those of the one are entries of the other. -/
theorem sameBy_of_mem {same : α → α → Bool} {left right : Table α} (h : right.names.Nodup)
    (hlength : left.length = right.length) (hmem : ∀ entry ∈ left, entry ∈ right)
    (hsame : ∀ entry ∈ left, same entry.2 entry.2 = true) : sameBy same left right = true := by
  simp only [sameBy, hlength, beq_self_eq_true, Bool.true_and, List.all_eq_true]
  intro entry hentry
  have hlookup := (lookup_eq_some_iff_mem h).mpr (hmem entry hentry)
  simp only [hlookup]
  exact hsame entry hentry

end Table

end TapeMachine
