/-!
# Kinds and capabilities

Every value of the language, and every control signal, has exactly one kind.
Capabilities say which operations apply to the values of a kind; they are
what an operation asks for when it does not care about the exact kind.
-/

namespace CopyOnBind

/-- What the values of a kind can be used for. -/
inductive Capability where
  | numeric
  | letter
  | callable
  | hashable
deriving DecidableEq, Repr

namespace Capability

/-- All capabilities, in the order in which they are listed. -/
def all : List Capability := [numeric, letter, callable, hashable]

def name : Capability → String
  | numeric => "NUMERIC"
  | letter => "LETTER"
  | callable => "CALLABLE"
  | hashable => "HASHABLE"

/-- A set of capabilities is also given as a number, one binary digit each. -/
def bit : Capability → Nat
  | numeric => 1
  | letter => 2
  | callable => 4
  | hashable => 8

end Capability

/-- The closed set of kinds, data and signals together. -/
inductive Kind where
  | integer
  | float
  | boolean
  | string
  | character
  | void
  | ret
  | out
  | jump
  | error
  | function
  | underline
  | native
  | array
  | reference
  | hash
deriving DecidableEq, Repr

namespace Kind

/-- All kinds, in their order. -/
def all : List Kind :=
  [integer, float, boolean, string, character, void, ret, out, jump, error, function, underline,
    native, array, reference, hash]

/-- The name used in diagnostics. -/
def name : Kind → String
  | integer => "INTEGER"
  | float => "FLOAT"
  | boolean => "BOOLEAN"
  | string => "STRING"
  | character => "CHARACTER"
  | void => "VOID"
  | ret => "RET"
  | out => "OUT"
  | jump => "JUMP"
  | error => "ERR"
  | function => "FUNCTION"
  | underline => "UNDERLINE"
  | native => "NATIVE"
  | array => "ARRAY"
  | reference => "REFERENCE"
  | hash => "HASH"

/-- The name used in debug texts. -/
def debug : Kind → String
  | integer => "Integer"
  | float => "Float"
  | boolean => "Boolean"
  | string => "String"
  | character => "Character"
  | void => "Void"
  | ret => "Return"
  | out => "Out"
  | jump => "Jump"
  | error => "Error"
  | function => "Function"
  | underline => "UnderLine"
  | native => "Native"
  | array => "Array"
  | reference => "Reference"
  | hash => "Hash"

def ofName? (s : String) : Option Kind := all.find? (·.name == s)

/-- Whether the kind belongs to a control signal rather than to data. -/
def isSignal : Kind → Bool
  | ret | out | jump | error => true
  | _ => false

def has : Kind → Capability → Bool
  | integer, .numeric | integer, .hashable => true
  | float, .numeric => true
  | boolean, .hashable => true
  | string, .letter | string, .hashable => true
  | character, .letter | character, .hashable => true
  | function, .callable | underline, .callable | native, .callable => true
  | _, _ => false

def capabilities (k : Kind) : List Capability := Capability.all.filter k.has

/-- The capabilities of a kind as one number. -/
def bits (k : Kind) : Nat := k.capabilities.foldl (fun n c => n + c.bit) 0

/-- Position in the order of kinds. -/
def rank (k : Kind) : Nat := all.idxOf k

/-- Kinds in their order; equal kinds stay as they are. -/
def sort (l : List Kind) : List Kind := l.mergeSort (fun a b => a.rank ≤ b.rank)

theorem ofName?_name (k : Kind) : ofName? k.name = some k := by cases k <;> decide

end Kind

end CopyOnBind
