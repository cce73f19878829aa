import CopyOnBind.Eval.Machine
import CopyOnBind.Script.Basic
import CopyOnBind.Store.Container
/-!
# What builtins do

A builtin sees its arguments and the scope of its caller, and acts on the store.
-/

namespace CopyOnBind.Script

/-- The fault of a value that is not of the kind wanted. -/
def mismatch {σ α : Type} (want : Kind) (v : Value) : Eval σ α :=
  Eval.fault (.kindMismatch want.name v.kind)

namespace Builtin

/-- What a builtin does with its arguments; where it wants one and has none, it takes a void. -/
def call (b : Builtin) (caller : ScopeId) (args : List Value) : Eval Store Value :=
  let arg := args.headD .void
  match b with
  | .value v => return v
  | .first => return arg
  | .collect => return .array (← modifyGet (·.newArray args.toArray))
  | .count => return .int (.ofNat args.length)
  | .ret => throw (.ret arg)
  | .out => throw (.out arg)
  | .jump => throw .jump
  | .fail => do Eval.fault (.custom (← Eval.ofOption ((← get).inspect arg)))
  | .push =>
    match arg with
    | .array a => do
      modify (·.push a .void)
      return arg
    | _ => mismatch .array arg
  | .lookup =>
    match arg with
    | .str name => return ((← get).lookup caller name).getD .void
    | _ => mismatch .string arg
  | .define =>
    match arg with
    | .str name => do
      modify (·.define caller name ((args.drop 1).headD .void) true)
      return .void
    | _ => mismatch .string arg

end Builtin

namespace Program

/-- Runs the builtin that a native stands for. -/
def runNative (p : Program) (native : Native) (caller : ScopeId) (args : List Value) :
    Eval Store Value :=
  match p.builtins[native.id]? with
  | some b => b.call caller args
  | none => return .void

end Program

end CopyOnBind.Script
