import CopyOnBind.Value
/-!
# Scripts

A small language of expressions and statements over the values of this
library. A function or block in an expression is named by its body, and the
code of all bodies is kept in one table, so evaluating an expression twice
gives two closures with the same body.
-/

namespace CopyOnBind.Script

/-- A scalar written in the code. -/
inductive Literal where
  | void
  | int (n : Int64)
  | float (x : Binary64)
  | bool (b : Bool)
  | char (c : Char)
  | str (s : String)
deriving DecidableEq, Repr

def Literal.toValue : Literal → Value
  | void => .void
  | int n => .int n
  | float x => .float x
  | bool b => .bool b
  | char c => .char c
  | str s => .str s

inductive Expr where
  | literal (l : Literal)
  | name (x : String)
  | function (params : List String) (body : Body)
  | underline (body : Body)
  | array (items : List Expr)
  | hash (pairs : List (Expr × Expr))
  /-- A reference into a hash, to a new entry if there is none. -/
  | ref (hash index : Expr) (constant : Bool)
  | call (callee : Expr) (args : List Expr)
  | add (a b : Expr)
  | less (a b : Expr)
  | equal (a b : Expr)
  /-- The element of an array. -/
  | at (array index : Expr)
  /-- The value in a hash. -/
  | get (hash key : Expr)
  | length (e : Expr)
  | copy (e : Expr)
  /-- The text of a value as a string. -/
  | text (e : Expr)
  /-- The name of a value's kind as a string. -/
  | kind (e : Expr)
  /-- What a reference leads to. -/
  | deref (e : Expr)

inductive Stmt where
  | define (x : String) (e : Expr) (isMutable : Bool)
  /-- Defines a name and takes the value over without a copy. -/
  | own (x : String) (e : Expr)
  | assign (x : String) (e : Expr)
  | expr (e : Expr)
  | ret (e : Expr)
  | out (e : Expr)
  | jump
  | fail (text : String)
  | log (e : Expr)
  /-- Marks a container to be shared by its next copy. -/
  | share (e : Expr)
  | push (array e : Expr)
  | setAt (array index e : Expr)
  | put (hash key e : Expr)
  | delete (hash key : Expr)
  /-- Writes through a reference. -/
  | write (ref e : Expr)
  | cond (c : Expr) (yes no : List Stmt)
  | while (c : Expr) (body : List Stmt)
  | bare (body : List Stmt)
  | scope (body : List Stmt)

/-- The callbacks that scripts can call. -/
inductive Builtin where
  /-- Gives this value. -/
  | value (v : Value)
  /-- Gives its first argument. -/
  | first
  /-- Gives an array of its arguments. -/
  | collect
  /-- Gives the number of its arguments. -/
  | count
  | ret
  | out
  | jump
  | fail
  /-- Pushes a void onto its first argument and gives it. -/
  | push
  /-- Looks up a name in the scope of the caller. -/
  | lookup
  /-- Defines a name in the scope of the caller. -/
  | define

/-- The code of bodies and the meaning of natives, each named by its place. -/
structure Program where
  blocks : Array (List Stmt) := #[]
  builtins : Array Builtin := #[]

instance : Inhabited Program := ⟨{}⟩

namespace Program

/-- Adds a block of code under a new identity. -/
def addBlock (p : Program) (code : List Stmt) : Body × Program :=
  (⟨p.blocks.size, code.length⟩, { p with blocks := p.blocks.push code })

/-- Adds a callback under a new identity. -/
def addBuiltin (p : Program) (name : String) (b : Builtin) : Native × Program :=
  (⟨p.builtins.size, name⟩, { p with builtins := p.builtins.push b })

def code (p : Program) (b : Body) : List Stmt := p.blocks.getD b.id []

end Program

end CopyOnBind.Script
