import CopyOnBind.Store.Copy
/-!
# Slots and references

An entry of a hash can be allocated without a value, and a slot is a handle to
an entry that does not own it: the slot finds its entry again by key and
generation each time it is used, so once the entry has been removed the slot
leads nowhere, even when the key is used again. A reference is a slot with the
index it was obtained with; a constant one cannot be written.

A slot refuses a value from which its own hash can be reached, since storing it
would make the data cyclic.
-/

namespace CopyOnBind

/-- Why a slot was not written. -/
inductive SlotError where
  /-- The entry has been removed. -/
  | vacated
  /-- The value would contain the hash that it is stored in. -/
  | cycle
deriving DecidableEq, Repr

namespace SlotError

def message : SlotError → String
  | vacated => "slot was deallocated"
  | cycle => "a container cannot be stored inside itself"

def debug : SlotError → String
  | vacated => "Vacated"
  | cycle => "Cycle"

end SlotError

/-- Why nothing was written through a reference. -/
inductive ReferenceError where
  | constant
  | slot (e : SlotError)
deriving DecidableEq, Repr

namespace ReferenceError

def message : ReferenceError → String
  | constant => "cannot assign through a const reference"
  | slot e => e.message

def debug : ReferenceError → String
  | constant => "Constant"
  | slot e => "Slot(" ++ e.debug ++ ")"

end ReferenceError

def Slot.debug (slot : Slot) : String :=
  "Slot \x7b key: " ++ slot.key.debug ++ ", generation: " ++ toString slot.generation.toNat ++
    ", .. \x7d"

namespace Store

/-! ## Entries and their slots -/

/-- Creates an entry without a value; an entry that is already there is left alone. -/
def allocate (s : Store) (h : HashId) (index : Value) : Except AllocError Slot × Store :=
  match index.key? with
  | none => (.error (.unhashable index.kind), s)
  | some k =>
    if (s.hash h).contains k then (.error .alreadyPresent, s)
    else
      (.ok ⟨h, k, (s.hash h).nextGeneration⟩, s.modifyHash h (·.create k index none))

/-- Removes an entry and tells whether there was one. -/
def deallocate (s : Store) (h : HashId) (index : Value) : Bool × Store :=
  match index.key? with
  | none => (false, s)
  | some k => ((s.hash h).contains k, s.modifyHash h (·.erase k))

/-- A handle to the entry under `index`, if there is one. -/
def slot? (s : Store) (h : HashId) (index : Value) : Option Slot := do
  let k ← index.key?
  let e ← (s.hash h).find? k
  return ⟨h, k, e.generation⟩

/-- Whether a slot's entry still exists. -/
def isLive (s : Store) (slot : Slot) : Bool := (s.entry? slot).isSome

/-! ## Reachability -/

/-- Whether the hash `target` can be reached from `v`, following at most `n`
handles on each path. A reference into `target` reaches it. -/
def reachesWithin (s : Store) (target : HashId) : Nat → Value → Option Bool
  | 0, .array _ | 0, .hash _ | 0, .ref .. => none
  | n + 1, .array a => (s.array a).elements.toList.anyM (s.reachesWithin target n)
  | n + 1, .hash h =>
    if h = target then some true else (s.hash h).values.anyM (s.reachesWithin target n)
  | n + 1, .ref slot _ _ =>
    if slot.origin = target then some true
    else
      match s.slotValue? slot with
      | some v => s.reachesWithin target n v
      | none => some false
  | _, _ => some false

/-- Whether the hash `target` can be reached from `v`. -/
def reaches (s : Store) (v : Value) (target : HashId) : Option Bool :=
  s.reachesWithin target s.span v

/-! ## Writing -/

/-- Writes a slot's entry in place. -/
def setSlot (s : Store) (slot : Slot) (value : Value) :
    Option (Except SlotError Unit × Store) := do
  if ← s.reaches value slot.origin then return (.error .cycle, s)
  else if s.isLive slot then
    return (.ok (), s.modifyHash slot.origin (·.assign slot.key value))
  else return (.error .vacated, s)

/-- Writes through a reference. -/
def assignReference (s : Store) (r : Reference) (value : Value) :
    Option (Except ReferenceError Unit × Store) := do
  if r.constant then return (.error .constant, s)
  else
    let (result, s) ← s.setSlot r.slot value
    return (result.mapError .slot, s)

/-- A reference to a fresh entry of `h`. -/
def allocateReference (s : Store) (h : HashId) (index : Value) (constant : Bool) :
    Except AllocError Reference × Store :=
  let (result, s) := s.allocate h index
  (result.map fun slot => ⟨slot, index, constant⟩, s)

end Store

end CopyOnBind
