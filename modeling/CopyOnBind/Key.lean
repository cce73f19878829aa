import CopyOnBind.Kind
import CopyOnBind.Text.Quoted
/-!
# Keys

A key is what a hash files an entry under: a scalar together with its kind, so
the integer `1`, the character `'1'` and the string `"1"` are three keys. Keys
are ordered: integers before booleans before characters before strings, and
within a kind by value, strings by the bytes of their UTF-8 form.
-/

namespace CopyOnBind

inductive Key where
  | int (n : Int64)
  | bool (b : Bool)
  | char (c : Char)
  | str (s : String)
deriving DecidableEq, Repr

namespace Key

def kind : Key → Kind
  | int _ => .integer
  | bool _ => .boolean
  | char _ => .character
  | str _ => .string

/-- The place of a key's kind in the order. -/
def rank : Key → Nat
  | int _ => 0
  | bool _ => 1
  | char _ => 2
  | str _ => 3

/-- The order of keys. -/
def compare : Key → Key → Ordering
  | int m, int n => Ord.compare m.toInt n.toInt
  | bool a, bool b => Ord.compare a.toNat b.toNat
  | char c, char d => Ord.compare c.toNat d.toNat
  | str s, str t => Ord.compare s.toUTF8.data.toList t.toUTF8.data.toList
  | k, l => Ord.compare k.rank l.rank

def le (k l : Key) : Bool := (k.compare l).isLE

def lt (k l : Key) : Bool := (k.compare l).isLT

/-- Keys in ascending order; equal keys stay as they are. -/
def sort (l : List Key) : List Key := l.mergeSort le

/-- The distinct keys of a list, each at its first place. -/
def distinct (l : List Key) : List Key :=
  l.foldl (fun seen k => if k ∈ seen then seen else seen ++ [k]) []

def inspect : Key → String
  | int n => toString n.toInt
  | bool b => toString b
  | char c => String.ofList ['\'', c, '\'']
  | str s => Text.quoted s

def debug : Key → String
  | int n => "Int(" ++ toString n.toInt ++ ")"
  | bool b => "Bool(" ++ toString b ++ ")"
  | char c => "Char(" ++ Text.quotedChar c ++ ")"
  | str s => "Str(" ++ Text.quoted s ++ ")"

end Key

end CopyOnBind
