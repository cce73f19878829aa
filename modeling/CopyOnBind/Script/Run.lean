import CopyOnBind.Eval.Apply
import CopyOnBind.Script.Builtin
import CopyOnBind.Store.Equality
/-!
# Running scripts

Operands are evaluated from left to right, all of them before the operation,
and any signal ends the evaluation. Names, elements and entries are read as
handles; what is stored is bound, that is copied.

Evaluation is bounded by a number of steps. `Tally` is what a run leaves
behind for its reader: the lines logged, the statements started, and the
greatest depth of calls.
-/

namespace CopyOnBind.Script

structure Tally where
  log : List String := []
  /-- Statements started. -/
  evaluated : Nat := 0
  /-- The greatest depth at which a body was entered. -/
  maxDepth : Nat := 0
deriving DecidableEq, Repr

/-- Evaluations of a script. -/
abbrev Run := Eval (World Tally)

/-! ## Operations on values -/

def wantInt : Value → Run Int64
  | .int n => return n
  | v => mismatch .integer v

def wantBool : Value → Run Bool
  | .bool b => return b
  | v => mismatch .boolean v

def wantArray : Value → Run ArrayId
  | .array a => return a
  | v => mismatch .array v

def wantHash : Value → Run HashId
  | .hash h => return h
  | v => mismatch .hash v

def wantReference : Value → Run Reference
  | .ref slot index constant => return ⟨slot, index, constant⟩
  | v => mismatch .reference v

/-- A sum that fits into the range of integers. -/
def sum (m n : Int64) : Run Value :=
  let k := m.toInt + n.toInt
  if Int64.minValue.toInt ≤ k ∧ k ≤ Int64.maxValue.toInt then return .int (.ofInt k)
  else Eval.fault (.custom "integer overflow")

/-- The element of an array, which must have one at this index. -/
def element (a : ArrayId) (index : Int64) : Run Value := do
  let elements := (← get).store.elements a
  match (if index.toInt < 0 then none else elements[index.toInt.toNat]?) with
  | some v => return v
  | none => Eval.fault (.indexOutOfBounds index.toInt elements.size)

def size : Value → Run Value
  | .array a => return .int (.ofNat ((← get).store.elements a).size)
  | .hash h => return .int (.ofNat ((← get).store.hash h).size)
  | v => mismatch .array v

/-- A reference to the entry under `index`, which is made if there is none. -/
def reference (h : HashId) (index : Value) (constant : Bool) : Run Value := do
  match (← get).store.slot? h index with
  | some slot => return .ref slot index constant
  | none =>
    match ← Eval.change (·.allocateReference h index constant) with
    | .ok r => return r.toValue
    | .error e => Eval.fault e.toFault

def setAt (a : ArrayId) (index : Int64) (v : Value) : Run Value := do
  if index.toInt < 0 then
    Eval.fault (.indexOutOfBounds index.toInt ((← get).store.elements a).size)
  let v ← Eval.bound v
  Eval.orFault (← Eval.change (·.setElement a index.toInt.toNat v))

def put (h : HashId) (key v : Value) : Run Value := do
  let v ← Eval.bound v
  match ← Eval.change (·.insertEntry h key v) with
  | .ok old => return old.getD .void
  | .error e => Eval.fault e.toFault

def assignName (e : ScopeId) (x : String) (v : Value) : Run Value := do
  let v ← Eval.bound v
  match ← Eval.change (·.assign e x v) with
  | .ok () => return .void
  | .error err => Eval.fault (.custom err.message)

def write (r : Reference) (v : Value) : Run Value := do
  let v ← Eval.bound v
  match ← Eval.walk (·.assignReference r v) with
  | .ok () => return .void
  | .error .constant => Eval.fault .constReference
  | .error e => Eval.fault (.custom e.message)

/-- Appends a line to the log. -/
def logLine (v : Value) : Run Value := do
  let line ← Eval.examine (·.display v)
  modify fun w => { w with notes := { w.notes with log := w.notes.log ++ [line] } }
  return .void

def define (e : ScopeId) (x : String) (v : Value) (isMutable : Bool) : Run Value := do
  modify fun w => { w with store := w.store.define e x v isMutable }
  return .void

/-- Counts a statement. -/
def started : Run Unit :=
  modify fun w => { w with notes := { w.notes with evaluated := w.notes.evaluated + 1 } }

/-- Notes the depth at which a body is entered. -/
def entered : Run Unit :=
  modify fun w =>
    { w with notes := { w.notes with maxDepth := max w.notes.maxDepth w.machine.depth } }

/-! ## Evaluation -/

/-- How the bodies and natives of a program are run, given how its blocks are. -/
def Program.host (p : Program) (exec : ScopeId → List Stmt → Run Value) : Host Tally where
  runBody body scope := do
    entered
    exec scope (p.code body)
  runNative := p.runNative

mutual

/-- The value of an expression in a scope. -/
def evalExpr (p : Program) : Nat → ScopeId → Expr → Run Value
  | 0, _, _ => Eval.unfinished
  | n + 1, e, expr =>
    let eval := evalExpr p n e
    match expr with
    | .literal l => return l.toValue
    | .name x => do
      match (← get).store.lookup e x with
      | some v => return v
      | none => Eval.fault (.custom ("undefined " ++ x))
    | .function params body => return .function ⟨params, body, e⟩
    | .underline body => return .underline ⟨body, e⟩
    | .array items => do
      let values ← items.mapM fun item => do Eval.bound (← eval item)
      return .array (← Eval.change (·.newArray values.toArray))
    | .hash pairs => do
      let pairs ← pairs.mapM fun (k, item) => do
        let key ← eval k
        return (key, ← Eval.bound (← eval item))
      return .hash (← Eval.orFault (← Eval.change (·.newHashOf pairs)))
    | .ref h index constant => do
      let h ← eval h
      let index ← eval index
      reference (← wantHash h) index constant
    | .call f args => do
      let f ← eval f
      let args ← args.mapM eval
      Eval.apply (p.host (execBlock p n)) f e args
    | .add a b => do
      let a ← eval a
      let b ← eval b
      let m ← wantInt a
      sum m (← wantInt b)
    | .less a b => do
      let a ← eval a
      let b ← eval b
      let m ← wantInt a
      return .bool (m < (← wantInt b))
    | .equal a b => do
      let a ← eval a
      let b ← eval b
      return .bool (← Eval.examine (·.eq a b))
    | .at a index => do
      let a ← eval a
      let index ← eval index
      let a ← wantArray a
      element a (← wantInt index)
    | .get h key => do
      let h ← eval h
      let key ← eval key
      let h ← wantHash h
      return ((← get).store.valueUnder? h key).getD .void
    | .length a => do size (← eval a)
    | .copy a => do Eval.walk (Store.copy (← eval a))
    | .text a => do
      let v ← eval a
      return .str (← Eval.examine (·.inspect v))
    | .kind a => return .str (← eval a).kind.name
    | .deref a => do
      let r ← wantReference (← eval a)
      return ((← get).store.slotValue? r.slot).getD .void

/-- The effect and the value of a statement in a scope. -/
def execStmt (p : Program) : Nat → ScopeId → Stmt → Run Value
  | 0, _, _ => Eval.unfinished
  | n + 1, e, stmt => do
    let eval := evalExpr p n e
    let cond (c : Expr) : Run Bool := do wantBool (← eval c)
    started
    match stmt with
    | .define x a isMutable => do define e x (← Eval.bound (← eval a)) isMutable
    | .own x a => do define e x ((← get).machine.owned (← eval a)) true
    | .assign x a => do assignName e x (← eval a)
    | .expr a => eval a
    | .ret a => do throw (.ret (← eval a))
    | .out a => do throw (.out (← eval a))
    | .jump => throw .jump
    | .fail text => Eval.fault (.custom text)
    | .log a => do logLine (← eval a)
    | .share a => do
      match ← eval a with
      | v@(.array _) | v@(.hash _) => do
        modify fun w => { w with store := w.store.mark v }
        return .void
      | v => mismatch .array v
    | .push a b => do
      let a ← eval a
      let v ← eval b
      let a ← wantArray a
      let v ← Eval.bound v
      modify fun w => { w with store := w.store.push a v }
      return .void
    | .setAt a index b => do
      let a ← eval a
      let index ← eval index
      let v ← eval b
      let a ← wantArray a
      setAt a (← wantInt index) v
    | .put h key b => do
      let h ← eval h
      let key ← eval key
      let v ← eval b
      put (← wantHash h) key v
    | .delete h key => do
      let h ← eval h
      let key ← eval key
      let h ← wantHash h
      return .bool (← Eval.change (·.deallocate h key))
    | .write r b => do
      let r ← eval r
      let v ← eval b
      write (← wantReference r) v
    | .cond c yes no => do
      if ← cond c then execBlock p n e yes else execBlock p n e no
    | .while c body => Eval.loop (cond c) (execBlock p n e body) n
    | .bare body => do
      let inner ← Eval.change (·.newScope (some e))
      Eval.bareBlock (execBlock p n inner body)
    | .scope body => do
      let inner ← Eval.change (·.newScope (some e))
      execBlock p n inner body

/-- Statements in a scope, in order. -/
def execBlock (p : Program) : Nat → ScopeId → List Stmt → Run Value
  | 0, _, _ => Eval.unfinished
  | n + 1, e, stmts => Eval.block (execStmt p n e) stmts

end

/-! ## Whole runs -/

/-- More steps than a run takes that ends in practice. -/
def steps : Nat := Nat.pow 2 40

namespace Program

/-- Calls a value from outside a script. -/
def apply (p : Program) (callee : Value) (caller : ScopeId) (args : List Value) : Run Value :=
  Eval.apply (p.host (execBlock p steps)) callee caller args

/-- Statements in a scope. -/
def block (p : Program) (e : ScopeId) (code : List Stmt) : Run Value := execBlock p steps e code

/-- Statements in a scope, where an out gives the value. -/
def bareBlock (p : Program) (e : ScopeId) (code : List Stmt) : Run Value :=
  Eval.bareBlock (p.block e code)

/-- A loop over statements in a scope. -/
def loop (p : Program) (e : ScopeId) (cond : Expr) (code : List Stmt) : Run Value :=
  Eval.loop (do wantBool (← evalExpr p steps e cond)) (p.block e code) steps

end Program

end CopyOnBind.Script
