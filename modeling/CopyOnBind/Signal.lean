import CopyOnBind.Store.Debug
import CopyOnBind.Store.Inspect
/-!
# Signals and outcomes

Evaluation ends in a value or in a signal. A signal leaves one construct after
another until it meets the one that stops it: a return stops at the function
call, an out at the nearest loop or bare block, a jump at the nearest loop, and
a fault at the whole program. The functions on `Outcome` say what each
construct makes of the outcome of its inside.
-/

namespace CopyOnBind

inductive Signal where
  | ret (v : Value)
  | out (v : Value)
  | jump
  | error (f : Fault)
deriving DecidableEq, Repr

namespace Signal

def kind : Signal → Kind
  | ret _ => .ret
  | out _ => .out
  | jump => .jump
  | error _ => .error

def isError : Signal → Bool
  | error _ => true
  | _ => false

/-- The value that a signal carries. -/
def value? : Signal → Option Value
  | ret v | out v => some v
  | _ => none

end Signal

/-- How an evaluation ends. -/
abbrev Outcome := Except Signal Value

/-- What a loop does after one round of its body. -/
inductive AfterRound where
  /-- Test the condition again. -/
  | again
  /-- Leave the loop with this value. -/
  | leave (v : Value)
  /-- Leave the loop and pass the signal on. -/
  | pass (s : Signal)
deriving DecidableEq, Repr

namespace Outcome

/-- What a loop makes of a round: a jump ends the round, an out the loop. -/
def afterRound : Outcome → AfterRound
  | .ok _ | .error .jump => .again
  | .error (.out v) => .leave v
  | .error s => .pass s

/-- A bare block turns an out into its value; a jump belongs to the loop around it. -/
def closeBlock : Outcome → Outcome
  | .error (.out v) => .ok v
  | r => r

/-- A function call turns a return into its value. An out or a jump that gets
here has not found its loop, and must not find one of the caller's. -/
def closeCall : Outcome → Outcome
  | .ok v | .error (.ret v) => .ok v
  | .error (.error f) => .error (.error f)
  | .error s => .error (.error (.signalOutsideBoundary s.kind "function"))

/-- A program ends with a value or a fault. -/
def closeProgram : Outcome → Except Fault Value
  | .ok v | .error (.ret v) => .ok v
  | .error (.error f) => .error f
  | .error s => .error (.signalOutsideBoundary s.kind "program")

end Outcome

/-! ## Texts -/

namespace Store

def inspectSignal (s : Store) : Signal → Option String
  | .ret v | .out v => s.inspect v
  | .jump => some "jump"
  | .error f => some ("ERROR: " ++ f.message)

def debugSignal (s : Store) : Signal → Option String
  | .ret v => (s.debug v).map fun text => "Return(" ++ text ++ ")"
  | .out v => (s.debug v).map fun text => "Out(" ++ text ++ ")"
  | .jump => some "Jump"
  | .error f => some ("Error(" ++ f.debug ++ ")")

def debugAfterRound (s : Store) : AfterRound → Option String
  | .again => some "Continue"
  | .leave v => (s.debug v).map fun text => "Break(" ++ text ++ ")"
  | .pass sig => (s.debugSignal sig).map fun text => "Propagate(" ++ text ++ ")"

end Store

end CopyOnBind
