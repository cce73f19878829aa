import CopyOnBind.Eval.Basic
import CopyOnBind.Store.Basic
/-!
# The kernel language

The part of the language that is about binding and calling: integers, arrays
and closures, with names, pushes, conditions, loops and signals. It makes no
hashes, references or natives, so all sharing that it brings about comes from
arrays, scopes and closures.

As in scripts, a body is named, and its code is kept in a table. Natives are the
host's: what they do is a parameter here.
-/

namespace CopyOnBind.Kernel

inductive Expr where
  | int (n : Int64)
  | name (x : String)
  | add (a b : Expr)
  | less (a b : Expr)
  | equal (a b : Expr)
  | call (callee : Expr) (args : List Expr)
  | function (params : List String) (body : Body)
  | underline (body : Body)
  | array (items : List Expr)
  | length (e : Expr)

inductive Stmt where
  | expr (e : Expr)
  | define (x : String) (e : Expr)
  | assign (x : String) (e : Expr)
  /-- Pushes onto the array that a name stands for. -/
  | push (x : String) (e : Expr)
  | cond (c : Expr) (yes : List Stmt)
  | while (c : Expr) (body : List Stmt)
  | ret (e : Expr)
  | out (e : Expr)
  | jump
  | fail (text : String)

/-- The code of the bodies, each named by its place, and whatever the natives do
that a program finds in the store it starts with. -/
structure Program where
  blocks : Array (List Stmt) := #[]
  natives : Native → ScopeId → List Value → Eval Store Value := fun _ _ _ => Eval.unfinished

def Program.code (p : Program) (b : Body) : List Stmt := p.blocks.getD b.id []

end CopyOnBind.Kernel
