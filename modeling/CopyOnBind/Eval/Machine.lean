import CopyOnBind.Eval.Basic
import CopyOnBind.Policy
import CopyOnBind.Store.Scope
/-!
# The machine

The machine knows the policy and how many calls are active, and decides what
is stored when a value is bound. `World` is the state of a running program: a
store, a machine, and notes for whoever watches the run.
-/

namespace CopyOnBind

structure Machine where
  policy : Policy := {}
  /-- The number of calls now active. -/
  depth : Nat := 0
deriving DecidableEq, Repr

namespace Machine

/-- One more call, unless as many are active as may be. -/
def enter (m : Machine) : Except Fault Machine :=
  if m.policy.maxCallDepth ≤ m.depth then .error (.callDepthExceeded m.policy.maxCallDepth)
  else .ok { m with depth := m.depth + 1 }

/-- One call less. -/
def leave (m : Machine) : Machine := { m with depth := m.depth - 1 }

/-- What to store when `v` is bound to a name or put into a container. -/
def bound (_ : Machine) (v : Value) : StateT Store Option Value := Store.copy v

/-- What to store when nobody else holds `v`: `v` itself. -/
def owned (_ : Machine) (v : Value) : Value := v

/-- What a call hands to its caller. The result may still be bound elsewhere,
so with copy elision it is copied here, and marked, so that binding it takes
it as it is. -/
def handBack (m : Machine) (v : Value) : StateT Store Option Value :=
  if m.policy.copyElision then do
    let fresh ← Store.copy v
    modify (·.mark fresh)
    return fresh
  else pure v

def debug (m : Machine) : String :=
  "Machine \x7b config: " ++ m.policy.debug ++ ", depth: " ++ toString m.depth ++ " \x7d"

end Machine

/-- The state of a running program. -/
structure World (ω : Type) where
  store : Store := {}
  machine : Machine := {}
  notes : ω
  /-- The run was broken off, and did not just run out of steps. -/
  broken : Bool := false

namespace Eval

variable {ω α : Type}

/-- Acts on the store alone. -/
def onStore (x : Eval Store α) : Eval (World ω) α :=
  x.focus World.store fun w store => { w with store }

/-- A walk over the store that may change it. -/
def ofWalk (x : StateT Store Option α) : Eval Store α :=
  ExceptT.lift fun s =>
    match x s with
    | some (a, s) => (some a, s)
    | none => (none, s)

/-- A change of the store that gives an answer. -/
def change (f : Store → α × Store) : Eval (World ω) α :=
  modifyGet fun w =>
    let (a, store) := f w.store
    (a, { w with store })

/-- A walk over the store of a running program. -/
def walk (x : StateT Store Option α) : Eval (World ω) α := onStore (ofWalk x)

/-- A walk that only reads the store. -/
def examine (f : Store → Option α) : Eval (World ω) α := do
  ofOption (f (← get).store)

/-- Breaks the run off. No construct stops this: the state stays as it is now. -/
def breakOff : Eval (World ω) α := do
  modify ({ · with broken := true })
  unfinished

/-- What to store when `v` is bound. -/
def bound (v : Value) : Eval (World ω) Value := do
  walk ((← get).machine.bound v)

/-- What a call hands to its caller. -/
def handBack (v : Value) : Eval (World ω) Value := do
  walk ((← get).machine.handBack v)

/-- A part of the run that counts as an active call. However the part ends,
its call is no longer counted afterwards. -/
def calling (body : Eval (World ω) Value) : Eval (World ω) Outcome := do
  let machine ← orFault (← get).machine.enter
  modify ({ · with machine })
  let r ← body.outcome
  modify fun w => { w with machine := w.machine.leave }
  return r

end Eval

end CopyOnBind
