import CopyOnBind.Decimal.Binary64
/-!
# The shortest decimal that reads back

A positive number `m * 2 ^ q` is the nearest of its format for a whole
interval of reals, which reaches half way to the number above and half way to
the number below; the two ends belong to it when `m` is even. `shortest` gives
the fewest digits of a decimal in that interval. On a grid of decimals with a
given number of digits only the two neighbours of the number need a look: if
any point of the grid is in the interval, one of them is. Of two hits the
nearer is taken, and the upper one where both are equally near.

All arithmetic is on natural numbers.
-/

namespace CopyOnBind

/-- The decimal `d.ddd * 10 ^ exponent`, with the first of `digits` before the point. -/
structure Decimal where
  digits : List Nat
  exponent : Int
deriving DecidableEq, Repr

namespace Decimal

/-- The decimal digits of `n`, most significant first. -/
def digitsOf (n : Nat) : List Nat := (Nat.toDigits 10 n).map (fun c => c.toNat - '0'.toNat)

/-- How many decimal digits `n` has; zero has none. -/
def digitCount (n : Nat) : Nat := if n = 0 then 0 else (Nat.toDigits 10 n).length

/-- The integer `e` with `10 ^ e ≤ num / den < 10 ^ (e + 1)`, for positive `num` and `den`. -/
def magnitude (num den : Nat) : Int :=
  if den ≤ num then digitCount (num / den) - 1 else -(digitCount ((den - 1) / num) : Int)

/-- The fractions `below / den < num / den < above / den`, and whether the
ends `below` and `above` count as near enough to `num`. -/
structure Interval where
  below : Nat
  num : Nat
  above : Nat
  den : Nat
  closed : Bool

/-- Whether `k * step / 1` lies in the interval, where `step` and `one` scale the two sides. -/
def Interval.covers (i : Interval) (k step one : Nat) : Bool :=
  let x := k * step * i.den
  let lo := i.below * one
  let hi := i.above * one
  if i.closed then lo ≤ x && x ≤ hi else lo < x && x < hi

/-- The decimal with `n` digits that is taken for the interval's number, of
magnitude `e`, if one with that many digits lies in the interval. -/
def Interval.withDigits? (i : Interval) (e : Int) (n : Nat) : Option Decimal :=
  -- grid points are `k * step / one`
  let shift := e - (n : Int) + 1
  let step := Nat.pow 10 shift.toNat
  let one := Nat.pow 10 (-shift).toNat
  let down := i.num * one / (step * i.den)
  let up := down + 1
  let chosen :=
    match i.covers down step one, i.covers up step one with
    | true, true =>
      -- twice the number against the sum of its neighbours
      if 2 * (i.num * one) < (down + up) * step * i.den then some down else some up
    | true, false => some down
    | false, true => some up
    | false, false => none
  chosen.map fun k => if k = Nat.pow 10 n then ⟨[1], e + 1⟩ else ⟨digitsOf k, e⟩

/-- The first decimal found with `n`, `n + 1`, … digits; `tries` numbers of digits are tried. -/
def Interval.search (i : Interval) (e : Int) : (tries n : Nat) → Option Decimal
  | 0, _ => none
  | tries + 1, n => (i.withDigits? e n).orElse fun _ => i.search e tries (n + 1)

/-- The interval of reals that are read as `m * 2 ^ q`. -/
def Interval.ofBinary (m : Nat) (q : Int) (closerBelow : Bool) : Interval :=
  -- in quarters of `2 ^ q`
  let scale := Nat.pow 2 (q - 2).toNat
  { below := (4 * m - if closerBelow then 1 else 2) * scale
    num := 4 * m * scale
    above := (4 * m + 2) * scale
    den := Nat.pow 2 (2 - q).toNat
    closed := m % 2 == 0 }

/-- The shortest decimal of `m * 2 ^ q`; seventeen digits always suffice. -/
def shortest (m : Nat) (q : Int) (closerBelow : Bool) : Decimal :=
  if m = 0 then ⟨[0], 0⟩
  else
    let i := Interval.ofBinary m q closerBelow
    (i.search (magnitude i.num i.den) 17 1).getD ⟨[0], 0⟩

end Decimal

end CopyOnBind
