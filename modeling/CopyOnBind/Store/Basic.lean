import CopyOnBind.Fault
import CopyOnBind.Store.Table
/-!
# The store

Arrays, hashes and scopes live in a store and are named by handles. The store
only grows: a handle, once given out, names the same container for ever, and a
container is changed in place by everyone who holds a handle to it. Reading a
handle that the store does not know gives an empty container.
-/

namespace CopyOnBind

/-- The content of an array. -/
structure ArrayCell where
  elements : Array Value := #[]
  /-- The next copy hands out the array itself. -/
  marked : Bool := false
deriving DecidableEq, Repr

instance : Inhabited ArrayCell := ⟨{}⟩

/-- A name's value in a scope. -/
structure Binding where
  name : String
  value : Value
  isMutable : Bool
deriving DecidableEq, Repr

/-- The bindings of a scope and the scope around it. -/
structure Scope where
  bindings : List Binding := []
  parent : Option ScopeId := none
deriving DecidableEq, Repr

instance : Inhabited Scope := ⟨{}⟩

structure Store where
  arrays : Array ArrayCell := #[]
  hashes : Array Table := #[]
  scopes : Array Scope := #[]
deriving DecidableEq, Repr

instance : Inhabited Store := ⟨{}⟩

namespace Store

/-! ## Reading -/

def array (s : Store) (a : ArrayId) : ArrayCell := s.arrays.getD a.index {}

def hash (s : Store) (h : HashId) : Table := s.hashes.getD h.index {}

def scope (s : Store) (e : ScopeId) : Scope := s.scopes.getD e.index {}

/-- No walk that follows handles without meeting one twice takes more steps:
the number of containers and of entries that a reference could lead to. -/
def span (s : Store) : Nat :=
  s.arrays.size + s.hashes.size + (s.hashes.toList.flatMap Table.entries).length + 1

/-! ## Growing and changing -/

def newArray (s : Store) (elements : Array Value) : ArrayId × Store :=
  (⟨s.arrays.size⟩, { s with arrays := s.arrays.push { elements } })

def newHash (s : Store) (t : Table) : HashId × Store :=
  (⟨s.hashes.size⟩, { s with hashes := s.hashes.push t })

def newScope (s : Store) (parent : Option ScopeId) : ScopeId × Store :=
  (⟨s.scopes.size⟩, { s with scopes := s.scopes.push { parent } })

def modifyArray (s : Store) (a : ArrayId) (f : ArrayCell → ArrayCell) : Store :=
  { s with arrays := s.arrays.modify a.index f }

def modifyHash (s : Store) (h : HashId) (f : Table → Table) : Store :=
  { s with hashes := s.hashes.modify h.index f }

def modifyScope (s : Store) (e : ScopeId) (f : Scope → Scope) : Store :=
  { s with scopes := s.scopes.modify e.index f }

end Store

end CopyOnBind
