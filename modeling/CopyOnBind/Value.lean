import CopyOnBind.Decimal.Binary64
import CopyOnBind.Key
/-!
# Values

Scalars are values by themselves. Arrays and hashes are handles: the value
names a container that lives in the store, and two values with the same handle
name the same container. Callables hold the scope they were made in, and the
code of their body is opaque here. A reference is a handle to one entry of a
hash, together with the index it was made with.
-/

namespace CopyOnBind

/-! ## Handles -/

/-- Names an array of the store. -/
structure ArrayId where
  index : Nat
deriving DecidableEq, Repr

/-- Names a hash of the store. -/
structure HashId where
  index : Nat
deriving DecidableEq, Repr

/-- Names a scope of the store. -/
structure ScopeId where
  index : Nat
deriving DecidableEq, Repr

/-- A handle to one entry of the hash `origin`: the entry filed under `key`
with this generation, and no later one under the same key. -/
structure Slot where
  origin : HashId
  key : Key
  generation : UInt64
deriving DecidableEq, Repr

/-! ## Callables -/

/-- A block of code, known by its identity; only the evaluator that made it
can look inside. `size` is the number of its statements. -/
structure Body where
  id : Nat
  size : Nat
deriving DecidableEq, Repr

/-- A function: its parameters, its body and the scope it was made in. -/
structure Closure where
  params : List String
  body : Body
  scope : ScopeId
deriving DecidableEq, Repr

/-- A bare block `_ { … }`: a closure without parameters. -/
structure Underline where
  body : Body
  scope : ScopeId
deriving DecidableEq, Repr

/-- A callback of the host, known by its identity. -/
structure Native where
  id : Nat
  name : String
deriving DecidableEq, Repr

/-! ## Values -/

inductive Value where
  | int (n : Int64)
  | float (x : Binary64)
  | bool (b : Bool)
  | char (c : Char)
  | str (s : String)
  /-- No value. -/
  | void
  | array (a : ArrayId)
  | hash (h : HashId)
  | function (f : Closure)
  | underline (u : Underline)
  | native (n : Native)
  /-- A reference to the entry of `slot`. -/
  | ref (slot : Slot) (index : Value) (constant : Bool)
deriving DecidableEq, Repr

instance : Inhabited Value := ⟨.void⟩

/-- A reference: a slot, the index it was obtained with, and whether the
entry may be written through it. -/
structure Reference where
  slot : Slot
  index : Value
  constant : Bool
deriving DecidableEq, Repr

/-- A value as a number. -/
inductive Number where
  | int (n : Int64)
  | float (x : Binary64)
deriving DecidableEq, Repr

namespace Value

def kind : Value → Kind
  | int _ => .integer
  | float _ => .float
  | bool _ => .boolean
  | char _ => .character
  | str _ => .string
  | void => .void
  | array _ => .array
  | hash _ => .hash
  | function _ => .function
  | underline _ => .underline
  | native _ => .native
  | ref .. => .reference

def isCallable (v : Value) : Bool := v.kind.has .callable

/-- The key that a hash files this value under, if it is hashable. -/
def key? : Value → Option Key
  | int n => some (.int n)
  | bool b => some (.bool b)
  | char c => some (.char c)
  | str s => some (.str s)
  | _ => none

def number? : Value → Option Number
  | int n => some (.int n)
  | float x => some (.float x)
  | _ => none

/-- A value as plain text. -/
def letter? : Value → Option String
  | str s => some s
  | char c => some (String.singleton c)
  | _ => none

def int? : Value → Option Int64
  | int n => some n
  | _ => none

def bool? : Value → Option Bool
  | bool b => some b
  | _ => none

def str? : Value → Option String
  | str s => some s
  | _ => none

def array? : Value → Option ArrayId
  | array a => some a
  | _ => none

def hash? : Value → Option HashId
  | hash h => some h
  | _ => none

def reference? : Value → Option Reference
  | ref slot index constant => some ⟨slot, index, constant⟩
  | _ => none

/-- Whether two values are the same container; no answer for other pairs. -/
def sameContainer? : Value → Value → Option Bool
  | array a, array b => some (a == b)
  | hash a, hash b => some (a == b)
  | _, _ => none

end Value

def Reference.toValue (r : Reference) : Value := .ref r.slot r.index r.constant

end CopyOnBind
