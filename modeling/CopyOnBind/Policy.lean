import CopyOnBind.Text.Blank
import CopyOnBind.Text.Quoted
/-!
# Evaluation policy

Copying at every binding is what programs observe, and the default. Copy
elision is an option: a value returned from a call is marked, and the copy
made when the caller binds it is then left out. The other setting limits how
deep calls may nest.

`Policy.read` takes both settings from the environment, where each may be
absent, and reports the first one that cannot be read.
-/

namespace CopyOnBind

structure Policy where
  /-- Whether a call result may be bound without a copy. -/
  copyElision : Bool := false
  /-- How many calls may be active at once. -/
  maxCallDepth : Nat := 1024
deriving DecidableEq, Repr

/-- The settings that the environment can override. -/
inductive Setting where
  | copyElision
  | maxCallDepth
deriving DecidableEq, Repr

/-- The environment variable that holds a setting. -/
def Setting.variable : Setting → String
  | copyElision => "TLANG_COPY_ELISION"
  | maxCallDepth => "TLANG_MAX_DEPTH"

/-- The variable of `setting` holds `text`, which is no value for it. -/
structure PolicyError where
  setting : Setting
  text : String
deriving DecidableEq, Repr

namespace PolicyError

def message (e : PolicyError) : String :=
  "invalid value `" ++ e.text ++ "` for " ++ e.setting.variable

def debug (e : PolicyError) : String :=
  "InvalidValue \x7b var: " ++ Text.quoted e.setting.variable ++ ", value: " ++
    Text.quoted e.text ++ " \x7d"

end PolicyError

namespace Policy

/-- Numbers above the machine's word are not accepted. -/
def wordLimit : Nat := Nat.pow 2 64

def readFlag? (s : String) : Option Bool :=
  match Text.trim s with
  | "1" | "true" => some true
  | "0" | "false" => some false
  | _ => none

/-- The number that decimal digits stand for, read after `acc`. -/
def readDigits (acc : Nat) (cs : List Char) : Nat :=
  cs.foldl (fun n c => 10 * n + (c.toNat - '0'.toNat)) acc

/-- Reads one or more decimal digits, with an optional `+` before them. -/
def readNumeral? (cs : List Char) : Option Nat :=
  let digits := match cs with
    | '+' :: rest => rest
    | _ => cs
  if digits ≠ [] ∧ digits.all Char.isDigit then some (readDigits 0 digits) else none

def readDepth? (s : String) : Option Nat :=
  (readNumeral? (Text.trimBlanks s.toList)).filter (· < wordLimit)

/-- The value of a setting: the one its text stands for, or `default` if it has no text. -/
def readSetting (name : Setting) (parse : String → Option α) (default : α) :
    Option String → Except PolicyError α
  | none => .ok default
  | some text =>
    match parse text with
    | some a => .ok a
    | none => .error ⟨name, text⟩

/-- The policy that the environment asks for; `lookup` gives the text of each setting. -/
def read (lookup : Setting → Option String) : Except PolicyError Policy := do
  let default : Policy := {}
  let copyElision ←
    readSetting .copyElision readFlag? default.copyElision (lookup .copyElision)
  let maxCallDepth ←
    readSetting .maxCallDepth readDepth? default.maxCallDepth (lookup .maxCallDepth)
  return { copyElision, maxCallDepth }

def debug (p : Policy) : String :=
  "EvalConfig \x7b copy_elision: " ++ toString p.copyElision ++ ", max_call_depth: " ++
    toString p.maxCallDepth ++ " \x7d"

end Policy

end CopyOnBind
