import CopyOnBind.Value
/-!
# Tables

The content of a hash: entries filed under keys. An entry that was allocated
may have no value yet. Each entry gets the next generation of its table when it
is created, so an entry can be told from a later one under the same key;
writing to an entry keeps it and its generation.

Entries are kept in the order of their creation. `sorted` lists them by key,
which is the order that every text shows.
-/

namespace CopyOnBind

structure Entry where
  key : Key
  /-- The key value as it was given when the entry was created. -/
  written : Value
  /-- Absent while the entry was allocated but not assigned. -/
  value : Option Value
  generation : UInt64
deriving DecidableEq, Repr

structure Table where
  entries : List Entry := []
  nextGeneration : UInt64 := 0
  /-- The next copy hands out the table itself. -/
  marked : Bool := false
deriving DecidableEq, Repr

instance : Inhabited Table := ⟨{}⟩

/-- Why no entry was created or written. -/
inductive AllocError where
  | alreadyPresent
  | unhashable (kind : Kind)
deriving DecidableEq, Repr

namespace AllocError

def message : AllocError → String
  | alreadyPresent => "an entry for this index already exists"
  | unhashable kind => kind.name ++ " cannot be used as an index"

def debug : AllocError → String
  | alreadyPresent => "AlreadyPresent"
  | unhashable kind => "Unhashable(" ++ kind.debug ++ ")"

end AllocError

namespace Table

def find? (t : Table) (k : Key) : Option Entry := t.entries.find? (·.key == k)

def contains (t : Table) (k : Key) : Bool := (t.find? k).isSome

def size (t : Table) : Nat := t.entries.length

/-- The value filed under a key, if there is an entry and it has one. -/
def get? (t : Table) (k : Key) : Option Value := (t.find? k).bind (·.value)

/-- The values of all entries that have one. -/
def values (t : Table) : List Value := t.entries.filterMap (·.value)

/-- Entries in ascending order of their keys. -/
def sorted (t : Table) : List Entry := t.entries.mergeSort (fun e f => e.key.le f.key)

/-- Files a new entry under `k`, which has none. -/
def create (t : Table) (k : Key) (written : Value) (value : Option Value) : Table :=
  { t with
    entries := t.entries ++ [⟨k, written, value, t.nextGeneration⟩]
    nextGeneration := t.nextGeneration + 1 }

/-- Writes the value of the entry filed under `k`. -/
def assign (t : Table) (k : Key) (value : Value) : Table :=
  { t with entries := t.entries.map fun e => if e.key = k then { e with value } else e }

/-- Writes under `k`, into the entry that is there or into a new one; the
first part is the value replaced. -/
def insert (t : Table) (k : Key) (written value : Value) : Option Value × Table :=
  match t.find? k with
  | some e => (e.value, t.assign k value)
  | none => (none, t.create k written value)

def erase (t : Table) (k : Key) : Table :=
  { t with entries := t.entries.filter (·.key != k) }

/-! ## Lookup after each change -/

variable {t : Table} {k l : Key}

theorem key_of_find?_eq_some {e : Entry} (h : t.find? k = some e) : e.key = k := by
  simpa using List.find?_some h

@[simp] theorem find?_assign_of_ne {value : Value} (h : l ≠ k) :
    (t.assign k value).find? l = t.find? l := by
  simp only [find?, assign]
  induction t.entries with
  | nil => rfl
  | cons e es ih =>
    by_cases he : e.key = k
    · simp [he, Ne.symm h, ih]
    · simp [List.find?_cons, he, ih]

@[simp] theorem find?_assign_self {value : Value} :
    (t.assign k value).find? k = (t.find? k).map ({ · with value }) := by
  simp only [find?, assign]
  induction t.entries with
  | nil => rfl
  | cons e es ih =>
    by_cases he : e.key = k
    · simp [he]
    · simp [he, ih]

@[simp] theorem find?_erase_self : (t.erase k).find? k = none := by
  simp [find?, erase, List.find?_eq_none]

@[simp] theorem find?_erase_of_ne (h : l ≠ k) : (t.erase k).find? l = t.find? l := by
  simp only [find?, erase]
  induction t.entries with
  | nil => rfl
  | cons e es ih =>
    by_cases he : e.key = k
    · simp [he, Ne.symm h, ih]
    · simp [List.find?_cons, he, ih]

theorem find?_create_of_ne {written : Value} {value : Option Value} (h : l ≠ k) :
    (t.create k written value).find? l = t.find? l := by
  simp [find?, create, List.find?_append, Ne.symm h]

theorem find?_create_self {written : Value} {value : Option Value} (h : t.find? k = none) :
    (t.create k written value).find? k = some ⟨k, written, value, t.nextGeneration⟩ := by
  simp only [find?] at h
  simp [find?, create, List.find?_append, h]

end Table

end CopyOnBind
