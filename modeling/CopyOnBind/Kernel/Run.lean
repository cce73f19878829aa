import CopyOnBind.Eval.Apply
import CopyOnBind.Kernel.Basic
import CopyOnBind.Store.Container
import CopyOnBind.Store.Equality
/-!
# Running kernel programs

Names are read as handles; what is defined, assigned, pushed or put into an
array is bound, that is copied. An operand of the wrong kind ends the
evaluation at once, before the next operand is looked at. Integers wrap around.

A push holds its array for writing while the value is copied. If the copy has
to read this array, the two are in conflict, and the run is broken off there: no
construct of the program sees it, and nothing is done any more.

A run can be watched: the watcher is shown the world whenever a statement
starts and whenever it finishes, at any depth of calls, and whenever the
operands of a call or of a comparison all have their values. Evaluation is
bounded by a number of steps, and what the watcher noted is kept when they run
out.
-/

namespace CopyOnBind.Kernel

/-- When a watcher is shown the world. -/
inductive Moment where
  | started
  | finished
  /-- All operands have their values. Those that are results of calls may have
  waited for others: each comes with the store as its call left it. -/
  | ready (results : List (Value × Store))
deriving DecidableEq, Repr

/-- What a watcher notes at each moment. -/
abbrev Watcher (ω : Type) := Moment → World ω → ω

/-- Evaluations of a kernel program. -/
abbrev Run (ω : Type) := Eval (World ω)

variable {ω : Type}

def observe (watch : Watcher ω) (m : Moment) : Run ω Unit :=
  modify fun w => { w with notes := watch m w }

/-- A fault of the program, told by a text. -/
def fault {α : Type} (text : String) : Run ω α := Eval.fault (.custom text)

def wantInt (v : Value) : Run ω Int64 :=
  match v.int? with
  | some n => return n
  | none => fault "expected an integer"

def wantBool (v : Value) : Run ω Bool :=
  match v.bool? with
  | some b => return b
  | none => fault "condition is not a boolean"

def wantArray (v : Value) : Run ω ArrayId :=
  match v.array? with
  | some a => return a
  | none => fault "not an array"

def define (e : ScopeId) (x : String) (v : Value) : Run ω Value := do
  let v ← Eval.bound v
  modify fun w => { w with store := w.store.define e x v true }
  return .void

def assign (e : ScopeId) (x : String) (v : Value) : Run ω Value := do
  let v ← Eval.bound v
  match ← Eval.change (·.assign e x v) with
  | .ok () => return .void
  | .error err => fault err.message

def push (e : ScopeId) (x : String) (v : Value) : Run ω Value := do
  match (← get).store.lookup e x with
  | none => fault "undefined"
  | some target => do
    let a ← wantArray target
    if ← Eval.examine (·.copyReads v a) then Eval.breakOff else
      let v ← Eval.bound v
      modify fun w => { w with store := w.store.push a v }
      return .void

/-- A loop written out over what each round asks for. -/
def whileLoop (cond : Run ω Bool) (body : Run ω Value) : Nat → Run ω Value
  | 0 => Eval.unfinished
  | n + 1 => do
    unless ← cond do return .void
    match Outcome.afterRound (← body.outcome) with
    | .again => whileLoop cond body n
    | .leave v => return v
    | .pass s => throw s

/-- How the bodies of a program are run, given how its blocks are. -/
def Program.host (p : Program) (exec : ScopeId → List Stmt → Run ω Value) : Host ω where
  runBody body scope := exec scope (p.code body)
  runNative := p.natives

def Expr.isCall : Expr → Bool
  | .call .. => true
  | _ => false

/-- The value of an operand, and what a watcher is told of it. -/
def operand (eval : Expr → Run ω Value) (a : Expr) : Run ω (Value × List (Value × Store)) := do
  let v ← eval a
  let w ← get
  return (v, if a.isCall then [(v, w.store)] else [])

mutual

/-- The value of an expression in a scope. -/
def evalExpr (p : Program) (watch : Watcher ω) : Nat → ScopeId → Expr → Run ω Value
  | 0, _, _ => Eval.unfinished
  | n + 1, e, expr =>
    let eval := evalExpr p watch n e
    match expr with
    | .int k => return .int k
    | .name x => do
      match (← get).store.lookup e x with
      | some v => return v
      | none => fault ("undefined " ++ x)
    | .add a b => do
      let k ← wantInt (← eval a)
      return .int (k + (← wantInt (← eval b)))
    | .less a b => do
      let k ← wantInt (← eval a)
      return .bool (k < (← wantInt (← eval b)))
    | .equal a b => do
      let (a, ra) ← operand eval a
      let (b, rb) ← operand eval b
      observe watch (.ready (ra ++ rb))
      return .bool (← Eval.examine (·.eq a b))
    | .call f args => do
      let (f, rf) ← operand eval f
      let args ← args.mapM (operand eval)
      observe watch (.ready (rf ++ args.flatMap Prod.snd))
      Eval.apply (p.host (execBlock p watch n)) f e (args.map Prod.fst)
    | .function params body => return .function ⟨params, body, e⟩
    | .underline body => return .underline ⟨body, e⟩
    | .array items => do
      let values ← items.mapM fun item => do Eval.bound (← eval item)
      return .array (← Eval.change (·.newArray values.toArray))
    | .length a => do
      let a ← wantArray (← eval a)
      return .int (.ofNat ((← get).store.elements a).size)

/-- The effect and the value of a statement in a scope. -/
def execStmt (p : Program) (watch : Watcher ω) : Nat → ScopeId → Stmt → Run ω Value
  | 0, _, _ => Eval.unfinished
  | n + 1, e, stmt => do
    let eval := evalExpr p watch n e
    let cond (c : Expr) : Run ω Bool := do wantBool (← eval c)
    observe watch .started
    let r ← Eval.outcome <| match stmt with
      | .expr a => eval a
      | .define x a => do define e x (← eval a)
      | .assign x a => do assign e x (← eval a)
      | .push x a => do push e x (← eval a)
      | .cond c yes => do
        if ← cond c then execBlock p watch n e yes else return .void
      | .while c body => whileLoop (cond c) (execBlock p watch n e body) n
      | .ret a => do throw (.ret (← eval a))
      | .out a => do throw (.out (← eval a))
      | .jump => throw .jump
      | .fail text => fault text
    observe watch .finished
    Eval.ofExcept r

/-- Statements in a scope, in order. -/
def execBlock (p : Program) (watch : Watcher ω) : Nat → ScopeId → List Stmt → Run ω Value
  | 0, _, _ => Eval.unfinished
  | n + 1, e, stmts => Eval.block (execStmt p watch n e) stmts

end

/-- How a whole program ends. -/
inductive Ending where
  | value (v : Value)
  | fault (f : Fault)
  /-- A push had to copy a value out of the array that it writes. -/
  | conflict
deriving DecidableEq, Repr

def Ending.ofResult : Except Fault Value → Ending
  | .ok v => .value v
  | .error f => .fault f

/-- The ending of a run that gave an outcome, or nothing. -/
def Ending.of (broken : Bool) : Option Outcome → Option Ending
  | some r => some (.ofResult r.closeProgram)
  | none => if broken then some .conflict else none

/-- A whole program in a scope, and how it ends, if it does within `n` steps. -/
def run (p : Program) (watch : Watcher ω) (n : Nat) (e : ScopeId) (code : List Stmt)
    (w : World ω) : Option Ending × World ω :=
  let q := (execBlock p watch n e code).runOn { w with broken := false }
  (Ending.of q.2.broken q.1, q.2)

end CopyOnBind.Kernel
