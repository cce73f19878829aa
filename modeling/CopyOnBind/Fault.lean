import CopyOnBind.Kind
import CopyOnBind.Text.Quoted
/-!
# Faults

What can go wrong while a program runs. A fault is its cause; the text shown
to the user follows from the cause.
-/

namespace CopyOnBind

inductive Fault where
  | kindMismatch (expected : String) (got : Kind)
  | notCallable (kind : Kind)
  | unhashableKey (kind : Kind)
  | indexOutOfBounds (index : Int) (length : Nat)
  | arityMismatch (expected got : Nat)
  /-- A write through a constant reference. -/
  | constReference
  /-- A signal that met a boundary before the construct that would stop it. -/
  | signalOutsideBoundary (signal : Kind) (boundary : String)
  | callDepthExceeded (limit : Nat)
  /-- Raised by a program or its host, with a text of its own. -/
  | custom (text : String)
deriving DecidableEq, Repr

namespace Fault

/-- The text shown to the user. -/
def message : Fault → String
  | kindMismatch expected got => "type mismatch: expected " ++ expected ++ ", got " ++ got.name
  | notCallable kind => kind.name ++ " is not callable"
  | unhashableKey kind => kind.name ++ " cannot be used as a hash key"
  | indexOutOfBounds index length =>
    "index " ++ toString index ++ " out of bounds for length " ++ toString length
  | arityMismatch expected got =>
    "expected " ++ toString expected ++ " arguments, got " ++ toString got
  | constReference => "cannot assign through a const reference"
  | signalOutsideBoundary signal boundary =>
    "`" ++ signal.name ++ "` escaped its enclosing " ++ boundary
  | callDepthExceeded limit => "maximum call depth exceeded (limit: " ++ toString limit ++ ")"
  | custom text => text

/-- Debug text of the cause. -/
def debugCause : Fault → String
  | kindMismatch expected got =>
    "TypeMismatch \x7b expected: " ++ Text.quoted expected ++ ", got: " ++ got.debug ++ " \x7d"
  | notCallable kind => "NotCallable \x7b tag: " ++ kind.debug ++ " \x7d"
  | unhashableKey kind => "UnhashableKey \x7b tag: " ++ kind.debug ++ " \x7d"
  | indexOutOfBounds index length =>
    "IndexOutOfBounds \x7b index: " ++ toString index ++ ", len: " ++ toString length ++ " \x7d"
  | arityMismatch expected got =>
    "ArityMismatch \x7b expected: " ++ toString expected ++ ", got: " ++ toString got ++ " \x7d"
  | constReference => "ConstReference"
  | signalOutsideBoundary signal boundary =>
    "SignalOutsideBoundary \x7b signal: " ++ signal.debug ++ ", boundary: " ++
      Text.quoted boundary ++ " \x7d"
  | callDepthExceeded limit => "CallDepthExceeded \x7b limit: " ++ toString limit ++ " \x7d"
  | custom text => "Custom(" ++ Text.quoted text ++ ")"

/-- Debug text of the cause with its message. -/
def debug (f : Fault) : String :=
  "EvalError \x7b kind: " ++ f.debugCause ++ ", message: " ++ Text.quoted f.message ++ " \x7d"

end Fault

end CopyOnBind
