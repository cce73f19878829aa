import CopyOnBind.Store.Basic
/-!
# Copies

A copy has the content of what is copied and shares no container with it:
arrays and hashes are copied with all they hold, and a reference is replaced
by a copy of what it leads to. Scalars and callables are their own copies.

An array or hash can be marked: the next copy of it is then the container
itself, once. Only the value that is copied is asked for its mark, never a
container inside it.

A walk over the store is bounded by a number of steps, and has no result if it
needs more. `Store.span` steps are enough unless the data are cyclic.
-/

namespace CopyOnBind

namespace Store

/-! ## What a reference leads to -/

/-- The entry of a slot, while it exists. -/
def entry? (s : Store) (slot : Slot) : Option Entry :=
  ((s.hash slot.origin).find? slot.key).filter (·.generation == slot.generation)

/-- The value of a slot's entry, while the entry exists and has one. -/
def slotValue? (s : Store) (slot : Slot) : Option Value := (s.entry? slot).bind (·.value)

/-! ## Marks -/

/-- Marks a container, so that the next copy shares it; other values have no mark. -/
def mark (s : Store) : Value → Store
  | .array a => s.modifyArray a ({ · with marked := true })
  | .hash h => s.modifyHash h ({ · with marked := true })
  | _ => s

/-- Whether a value is a marked container. -/
def isMarked (s : Store) : Value → Bool
  | .array a => (s.array a).marked
  | .hash h => (s.hash h).marked
  | _ => false

/-- Removes the mark of a container. -/
def unmark (s : Store) : Value → Store
  | .array a => s.modifyArray a ({ · with marked := false })
  | .hash h => s.modifyHash h ({ · with marked := false })
  | _ => s

/-! ## Copying -/

/-- A copy that disregards marks, following at most `n` handles on each path. -/
def snapshotWithin : Nat → Value → StateT Store Option Value
  | 0, .array _ | 0, .hash _ | 0, .ref .. => failure
  | n + 1, .array a => do
    let elements ← ((← get).array a).elements.toList.mapM (snapshotWithin n)
    return .array (← modifyGet (·.newArray elements.toArray))
  | n + 1, .hash h => do
    let t := (← get).hash h
    let entries ← t.entries.mapM fun e => do
      let value ← e.value.mapM (snapshotWithin n)
      return { e with value }
    return .hash (← modifyGet (·.newHash { t with entries, marked := false }))
  | n + 1, .ref slot _ _ => do
    match (← get).slotValue? slot with
    | some v => snapshotWithin n v
    | none => return .void
  | _, v => return v

/-- A copy that disregards marks. -/
def snapshot (v : Value) : StateT Store Option Value := fun s => snapshotWithin s.span v s

/-- The value to store when `v` is bound to a name or put into a container: a
marked container gives itself and loses its mark, everything else is copied. -/
def copy (v : Value) : StateT Store Option Value := fun s =>
  if s.isMarked v then some (v, s.unmark v) else snapshot v s

/-! ## What a copy reads -/

/-- Whether a snapshot of a value reads the array `a`, following at most `n`
handles on each path. -/
def snapshotReadsWithin (s : Store) (a : ArrayId) : Nat → Value → Option Bool
  | 0, .array _ | 0, .hash _ | 0, .ref .. => none
  | n + 1, .array b =>
    if b = a then some true else (s.array b).elements.toList.anyM (s.snapshotReadsWithin a n)
  | n + 1, .hash h => (s.hash h).values.anyM (s.snapshotReadsWithin a n)
  | n + 1, .ref slot _ _ =>
    match s.slotValue? slot with
    | some v => s.snapshotReadsWithin a n v
    | none => some false
  | _, _ => some false

/-- Whether a copy of `v` reads the array `a`. Of a marked container a copy
reads the mark only. -/
def copyReads (s : Store) (v : Value) (a : ArrayId) : Option Bool :=
  if s.isMarked v then some (v == .array a) else s.snapshotReadsWithin a s.span v

end Store

end CopyOnBind
