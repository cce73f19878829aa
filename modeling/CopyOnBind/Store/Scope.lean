import CopyOnBind.Store.Basic
/-!
# Scopes

A scope binds names to values and may lie inside another one. A name means
what the nearest scope outward that binds it says: `resolve` finds that scope,
and lookup and assignment both go through it. Closures hold the scope they
were made in, so a later assignment in it is seen by all of them.
-/

namespace CopyOnBind

/-- Why a name could not be assigned. -/
inductive AssignError where
  | isImmutable
  | isUndefined
deriving DecidableEq, Repr

namespace AssignError

def message : AssignError → String
  | isImmutable => "binding is immutable"
  | isUndefined => "binding is undefined"

def debug : AssignError → String
  | isImmutable => "Immutable"
  | isUndefined => "Undefined"

end AssignError

namespace Scope

def find? (e : Scope) (name : String) : Option Binding := e.bindings.find? (·.name == name)

def binds (e : Scope) (name : String) : Bool := (e.find? name).isSome

/-- Binds a name here, in place of a binding that is already here. -/
def define (e : Scope) (b : Binding) : Scope :=
  if e.binds b.name then
    { e with bindings := e.bindings.map fun c => if c.name = b.name then b else c }
  else { e with bindings := e.bindings ++ [b] }

def debug (e : Scope) : String :=
  "Environment \x7b bindings: " ++ toString e.bindings.length ++ ", has_parent: " ++
    toString e.parent.isSome ++ " \x7d"

end Scope

namespace Store

/-- Binds a name in a scope, or shadows an outer binding of it. -/
def define (s : Store) (e : ScopeId) (name : String) (value : Value) (isMutable : Bool) : Store :=
  s.modifyScope e (·.define { name, value, isMutable })

/-- The nearest scope that binds `name`, among the first `n` scopes from `e` outward. -/
def resolveWithin (s : Store) (name : String) : Nat → ScopeId → Option ScopeId
  | 0, _ => none
  | n + 1, e =>
    if (s.scope e).binds name then some e
    else (s.scope e).parent.bind (s.resolveWithin name n)

/-- The nearest scope from `e` outward that binds `name`. A scope is younger
than the one around it, so there are at most `e.index + 1` of them. -/
def resolve (s : Store) (e : ScopeId) (name : String) : Option ScopeId :=
  s.resolveWithin name (e.index + 1) e

/-- The binding that a name has in a scope. -/
def binding? (s : Store) (e : ScopeId) (name : String) : Option Binding :=
  (s.resolve e name).bind fun r => (s.scope r).find? name

/-- The value that a name has in a scope. A container comes as its handle. -/
def lookup (s : Store) (e : ScopeId) (name : String) : Option Value :=
  (s.binding? e name).map (·.value)

/-- Gives a name a new value in the nearest scope that binds it. -/
def assign (s : Store) (e : ScopeId) (name : String) (value : Value) :
    Except AssignError Unit × Store :=
  match s.resolve e name with
  | none => (.error .isUndefined, s)
  | some r =>
    match (s.scope r).find? name with
    | none => (.error .isUndefined, s)
    | some b =>
      if b.isMutable then (.ok (), s.define r name value true) else (.error .isImmutable, s)

end Store

end CopyOnBind
