import CopyOnBind.Decimal.Layout
import CopyOnBind.Store.Slot
/-!
# Debug texts

The text that shows how a value is made up: the kind of every part, entries
without a value, the slot and the index of a reference. A reference is not
followed, but its index is shown, whatever it is.
-/

namespace CopyOnBind

def Body.debug (b : Body) : String := "Block(" ++ toString b.size ++ ")"

/-- A list between brackets. -/
def debugList (items : List String) : String := "[" ++ ", ".intercalate items ++ "]"

def debugOptional : Option String → String
  | none => "None"
  | some text => "Some(" ++ text ++ ")"

namespace Value

/-- The debug text of a value, given those of the containers that it names. -/
def debugWith (array : ArrayId → Option String) (hash : HashId → Option String) :
    Value → Option String
  | int n => some ("Int(" ++ toString n.toInt ++ ")")
  | float x => some ("Float(" ++ x.debug ++ ")")
  | bool b => some ("Bool(" ++ toString b ++ ")")
  | char c => some ("Char(" ++ Text.quotedChar c ++ ")")
  | str s => some ("Str(" ++ Text.quoted s ++ ")")
  | void => some "Void"
  | .array a => (array a).map fun text => "Array(" ++ text ++ ")"
  | .hash h => (hash h).map fun text => "Hash(" ++ text ++ ")"
  | function f =>
    some ("Function(FunctionValue \x7b params: " ++ debugList (f.params.map Text.quoted) ++
      ", body: " ++ f.body.debug ++ ", .. \x7d)")
  | underline u => some ("UnderLine(UnderLineValue \x7b body: " ++ u.body.debug ++ ", .. \x7d)")
  | native n => some ("Native(NativeValue(" ++ n.name ++ "))")
  | ref slot index constant =>
    (index.debugWith array hash).map fun text =>
      "Ref(Reference \x7b slot: " ++ slot.debug ++ ", index: " ++ text ++ ", constant: " ++
        toString constant ++ " \x7d)"

end Value

namespace Store

/-- The debug text of a value, following at most `n` handles on each path. -/
def debugWithin (s : Store) : Nat → Value → Option String
  | 0 => Value.debugWith (fun _ => none) (fun _ => none)
  | n + 1 =>
    Value.debugWith
      (fun a => do
        return debugList (← (s.array a).elements.toList.mapM (s.debugWithin n)))
      (fun h => do
        let items ← (s.hash h).sorted.mapM fun e => do
          let key ← s.debugWithin n e.written
          let value ← e.value.mapM (s.debugWithin n)
          return key ++ ": " ++ debugOptional value
        return "\x7b" ++ ", ".intercalate items ++ "\x7d")

/-- The debug text of a value. -/
def debug (s : Store) (v : Value) : Option String := s.debugWithin s.span v

/-- The debug text of an array with its mark. -/
def debugArray (s : Store) (a : ArrayId) : Option String := do
  let items ← (s.array a).elements.toList.mapM s.debug
  return "Shared(RefCell \x7b value: ArrayValue \x7b elements: " ++ debugList items ++
    ", share_next_copy: " ++ toString (s.array a).marked ++ " \x7d \x7d)"

/-- The debug text of an entry with its generation. -/
def debugEntry (s : Store) (e : Entry) : Option String := do
  let key ← s.debug e.written
  let value ← e.value.mapM s.debug
  return "HashPair \x7b key: " ++ key ++ ", value: " ++ debugOptional value ++ ", generation: " ++
    toString e.generation.toNat ++ " \x7d"

/-- The debug text of a reference. -/
def debugReference (s : Store) (r : Reference) : Option String :=
  (s.debug r.index).map fun index =>
    "Reference \x7b slot: " ++ r.slot.debug ++ ", index: " ++ index ++ ", constant: " ++
      toString r.constant ++ " \x7d"

end Store

end CopyOnBind
