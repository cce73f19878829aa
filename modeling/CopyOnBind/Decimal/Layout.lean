import CopyOnBind.Decimal.Shortest
/-!
# Written decimals

Two ways to write a decimal: positional, with zeros filled in up to the point
or after it, and with a power of ten. `Binary64.inspect` uses the first for
moderate magnitudes and the second beyond; `Binary64.debug` uses the first only.
-/

namespace CopyOnBind

namespace Decimal

/-- The character of a digit. -/
def digitChars (ds : List Nat) : List Char := ds.map Nat.digitChar

def zeros (n : Nat) : List Char := List.replicate n '0'

/-- Digits with a point after the first `n`, if any digit follows. -/
def pointed (n : Nat) (cs : List Char) : List Char :=
  if cs.length ≤ n then cs else cs.take n ++ '.' :: cs.drop n

/-- Positional notation. -/
def positional (d : Decimal) : List Char :=
  match d.exponent with
  | .negSucc k => '0' :: '.' :: (zeros k ++ digitChars d.digits)
  | .ofNat k => pointed (k + 1) (digitChars d.digits ++ zeros (k + 1 - d.digits.length))

/-- A power of ten in the notation with exponent: a sign and at least two digits. -/
def exponentChars (e : Int) : List Char :=
  let digits := digitChars (digitsOf e.natAbs)
  'e' :: (if e < 0 then '-' else '+') :: (zeros (2 - digits.length) ++ digits)

/-- Notation with a power of ten. -/
def exponential (d : Decimal) : List Char :=
  pointed 1 (digitChars d.digits) ++ exponentChars d.exponent

/-- Whether a decimal of this exponent is inspected in positional notation. -/
def isModerate (e : Int) : Bool := -4 ≤ e && e < 6

def inspect (d : Decimal) : List Char :=
  if isModerate d.exponent then d.positional else d.exponential

/-- A written decimal with its sign. -/
def signed (negative : Bool) (cs : List Char) : String :=
  String.ofList (if negative then '-' :: cs else cs)

end Decimal

namespace Binary64

/-- The text by which a program's values are shown. -/
def inspect (x : Binary64) : String :=
  match x.reading with
  | .nan => "NaN"
  | .infinite negative => if negative then "-Inf" else "+Inf"
  | .finite negative m q =>
    Decimal.signed negative (Decimal.shortest m q x.closerBelow).inspect

/-- The text used in debug texts: never an exponent. -/
def debug (x : Binary64) : String :=
  match x.reading with
  | .nan => "NaN"
  | .infinite negative => if negative then "-inf" else "inf"
  | .finite negative m q =>
    Decimal.signed negative (Decimal.shortest m q x.closerBelow).positional

end Binary64

end CopyOnBind
