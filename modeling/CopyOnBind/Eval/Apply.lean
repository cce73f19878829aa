import CopyOnBind.Eval.Machine
/-!
# Calls

Arguments are copied when they are bound in the scope of the callee. A
function runs in a new scope inside the one it was made in, and the caller's
scope is shown to natives only. A reference to a callable can be called like
the callable; one reference is followed, not a chain of them.

How bodies are evaluated and what natives do is the host's affair.
-/

namespace CopyOnBind

/-- What a call needs to know of the code it runs. -/
structure Host (ω : Type) where
  /-- Evaluates the body of a function or underline in a scope. -/
  runBody : Body → ScopeId → Eval (World ω) Value
  /-- Runs a native, given the scope of its caller. -/
  runNative : Native → ScopeId → List Value → Eval Store Value

/-- As many arguments as parameters. -/
def Closure.checkArity (f : Closure) (args : List Value) : Except Fault Unit :=
  if args.length = f.params.length then .ok ()
  else .error (.arityMismatch f.params.length args.length)

/-- A new scope in which the parameters of `f` are bound to copies of the
arguments, as far as there are both. -/
def Machine.callScope (m : Machine) (f : Closure) (args : List Value) :
    StateT Store Option ScopeId := do
  let e ← modifyGet (·.newScope (some f.scope))
  (f.params.zip args).forM fun (param, arg) => do
    let value ← m.bound arg
    modify (·.define e param value true)
  return e

/-- The value that is called when `v` is: what a reference leads to, or `v` itself. -/
def Store.callee (s : Store) : Value → Value
  | .ref slot _ _ => (s.slotValue? slot).getD .void
  | v => v

namespace Eval

variable {ω : Type}

def applyClosure (host : Host ω) (f : Closure) (args : List Value) : Eval (World ω) Value := do
  orFault (f.checkArity args)
  let e ← walk ((← get).machine.callScope f args)
  let r ← calling (host.runBody f.body e)
  handBack (← ofExcept r.closeCall)

/-- An underline takes no arguments. A return or a jump in it belongs to the
function and the loop around the call. -/
def applyUnderline (host : Host ω) (u : Underline) (args : List Value) :
    Eval (World ω) Value := do
  if args ≠ [] then fault (.arityMismatch 0 args.length)
  let e ← change (·.newScope (some u.scope))
  ofExcept (← calling (bareBlock (host.runBody u.body e)))

/-- What a native does counts as done at the place of the call: its signals go on from there. -/
def applyNative (host : Host ω) (n : Native) (caller : ScopeId) (args : List Value) :
    Eval (World ω) Value := do
  let args ← args.mapM bound
  let r ← calling (onStore (host.runNative n caller args))
  handBack (← ofExcept r)

/-- Calls a value. -/
def apply (host : Host ω) (callee : Value) (caller : ScopeId) (args : List Value) :
    Eval (World ω) Value := do
  match (← get).store.callee callee with
  | .function f => applyClosure host f args
  | .underline u => applyUnderline host u args
  | .native n => applyNative host n caller args
  | v => fault (.notCallable v.kind)

end Eval

end CopyOnBind
