import CopyOnBind.Store.Basic
/-!
# Arrays and hashes

Reading and writing the containers of a store. A write that is refused leaves
the store as it was.
-/

namespace CopyOnBind

/-- The fault that a program sees when an entry is refused. -/
def AllocError.toFault : AllocError → Fault
  | .unhashable kind => .unhashableKey kind
  | e@.alreadyPresent => .custom e.message

/-- The greatest index that a fault can name. -/
def Fault.maxIndex : Nat := Nat.pow 2 63 - 1

namespace Table

/-- Writes under a key value; refused if the value is no key. -/
def insertValue (t : Table) (key value : Value) : Except AllocError (Option Value) × Table :=
  match key.key? with
  | none => (.error (.unhashable key.kind), t)
  | some k =>
    let (old, t) := t.insert k key value
    (.ok old, t)

/-- The table of a list of key and value pairs, later ones over earlier ones. -/
def ofPairs (pairs : List (Value × Value)) : Except Fault Table :=
  pairs.foldlM (fun t (key, value) =>
    match t.insertValue key value with
    | (.ok _, t) => .ok t
    | (.error e, _) => .error e.toFault) {}

end Table

namespace Store

/-! ## Arrays -/

def elements (s : Store) (a : ArrayId) : Array Value := (s.array a).elements

def push (s : Store) (a : ArrayId) (value : Value) : Store :=
  s.modifyArray a fun cell => { cell with elements := cell.elements.push value }

/-- Replaces the element at `index` and gives the one that was there. -/
def setElement (s : Store) (a : ArrayId) (index : Nat) (value : Value) :
    Except Fault Value × Store :=
  match (s.elements a)[index]? with
  | none =>
    (.error (.indexOutOfBounds (min index Fault.maxIndex : Nat) (s.elements a).size), s)
  | some old =>
    (.ok old, s.modifyArray a fun cell =>
      { cell with elements := cell.elements.setIfInBounds index value })

/-! ## Hashes -/

/-- A new hash with these entries; refused if some key value is no key. -/
def newHashOf (s : Store) (pairs : List (Value × Value)) : Except Fault HashId × Store :=
  match Table.ofPairs pairs with
  | .error f => (.error f, s)
  | .ok t =>
    let (h, s) := s.newHash t
    (.ok h, s)

/-- The value under a key value: absent if there is no entry, if it has no
value, or if the key value is no key. -/
def valueUnder? (s : Store) (h : HashId) (key : Value) : Option Value :=
  key.key?.bind (s.hash h).get?

def hasEntry (s : Store) (h : HashId) (key : Value) : Bool :=
  key.key?.any (s.hash h).contains

/-- Writes under a key value and gives the value that was there. -/
def insertEntry (s : Store) (h : HashId) (key value : Value) :
    Except AllocError (Option Value) × Store :=
  match (s.hash h).insertValue key value with
  | (.error e, _) => (.error e, s)
  | (.ok old, t) => (.ok old, s.modifyHash h fun _ => t)

/-- Removes the entry under a key value and gives it. -/
def removeEntry (s : Store) (h : HashId) (key : Value) : Option Entry × Store :=
  match key.key? with
  | none => (none, s)
  | some k => ((s.hash h).find? k, s.modifyHash h (·.erase k))

end Store

end CopyOnBind
