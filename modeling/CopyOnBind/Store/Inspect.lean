import CopyOnBind.Decimal.Layout
import CopyOnBind.Store.Copy
/-!
# Inspecting values

The text by which a value is shown to the user of a program. Containers show
what they hold, hashes in the order of their keys; a reference shows what it
leads to; a callable shows its parameters and the size of its body.
-/

namespace CopyOnBind

def Body.inspect (b : Body) : String := "\x7b " ++ toString b.size ++ " statements \x7d"

/-- The text of a value that is neither a container nor a reference. -/
def Value.inspectFlat : Value → String
  | int n => toString n.toInt
  | float x => x.inspect
  | bool b => toString b
  | char c => String.ofList ['\'', c, '\'']
  | str s => Text.quoted s
  | function f => "func(" ++ ", ".intercalate f.params ++ ") " ++ f.body.inspect
  | underline u => "_ " ++ u.body.inspect
  | native _ => "func [Native]"
  | _ => "void"

namespace Store

/-- The text of a value, following at most `n` handles on each path. -/
def inspectWithin (s : Store) : Nat → Value → Option String
  | 0, .array _ | 0, .hash _ | 0, .ref .. => none
  | n + 1, .array a => do
    let items ← (s.array a).elements.toList.mapM (s.inspectWithin n)
    return "[" ++ ", ".intercalate items ++ "]"
  | n + 1, .hash h => do
    let items ← (s.hash h).sorted.mapM fun e => do
      let key ← s.inspectWithin n e.written
      let value ← s.inspectWithin n (e.value.getD .void)
      return key ++ ": " ++ value
    return "\x7b " ++ ", ".intercalate items ++ " \x7d"
  | n + 1, .ref slot _ constant => do
    let value ← s.inspectWithin n ((s.slotValue? slot).getD .void)
    return (if constant then "Const " else "") ++ "Reference: " ++ value
  | _, v => some v.inspectFlat

/-- The text of a value. -/
def inspect (s : Store) (v : Value) : Option String := s.inspectWithin s.span v

/-- The text of a value with its kind before it. -/
def display (s : Store) (v : Value) : Option String :=
  (s.inspect v).map fun text => v.kind.name ++ " " ++ text

end Store

end CopyOnBind
