import CopyOnBind.Store.Basic
/-!
# Equality of values

Data are equal by content, callables and references by identity. Two handles
to one container are equal whatever it holds, so a container with a NaN inside
equals itself. Hashes are equal when they have the same keys with equal values;
generations and marks do not count.
-/

namespace CopyOnBind

/-- Equality of values that are no containers. -/
def Value.eqFlat : Value → Value → Bool
  | int m, int n => m == n
  | float x, float y => x.eq y
  | bool a, bool b => a == b
  | char c, char d => c == d
  | str s, str t => s == t
  | void, void => true
  | function f, function g => f.body.id == g.body.id && f.scope == g.scope
  | underline u, underline v => u.body.id == v.body.id && u.scope == v.scope
  | native m, native n => m.id == n.id
  | ref s _ _, ref t _ _ => s == t
  | _, _ => false

namespace Store

/-- Equality of two contents that may be absent. -/
def eqOptional (eq : Value → Value → Option Bool) : Option Value → Option Value → Option Bool
  | none, none => some true
  | some v, some w => eq v w
  | _, _ => some false

/-- Equality element by element. -/
def eqElements (eq : Value → Value → Option Bool) (xs ys : Array Value) : Option Bool :=
  if xs.size = ys.size then (xs.toList.zip ys.toList).allM fun (x, y) => eq x y
  else some false

/-- Equality of tables by keys and values. -/
def eqTables (eq : Value → Value → Option Bool) (t u : Table) : Option Bool :=
  if t.size = u.size then
    t.entries.allM fun e =>
      match u.find? e.key with
      | none => some false
      | some f => eqOptional eq e.value f.value
  else some false

/-- Equality of values, following at most `n` handles on each path. -/
def eqWithin (s : Store) : Nat → Value → Value → Option Bool
  | n, .array a, .array b =>
    if a = b then some true
    else
      match n with
      | 0 => none
      | n + 1 => eqElements (s.eqWithin n) (s.array a).elements (s.array b).elements
  | n, .hash h, .hash i =>
    if h = i then some true
    else
      match n with
      | 0 => none
      | n + 1 => eqTables (s.eqWithin n) (s.hash h) (s.hash i)
  | _, v, w => some (v.eqFlat w)

/-- Equality of values. -/
def eq (s : Store) (v w : Value) : Option Bool := s.eqWithin s.span v w

end Store

end CopyOnBind
