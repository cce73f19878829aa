/-!
# Binary floating point numbers

A number of the 64-bit binary format is kept as its bits. `Binary64.reading`
says what they stand for: a finite number is `m * 2 ^ q` with its sign, and
each such number has one pair `m`, `q` (the two zeros apart). `Binary64.eq` is
the numeric comparison: the zeros are equal, and a NaN equals nothing.
-/

namespace CopyOnBind

structure Binary64 where
  bits : UInt64
deriving DecidableEq, Repr

namespace Binary64

/-- The lower 52 bits. -/
def fraction (x : Binary64) : Nat := x.bits.toNat % Nat.pow 2 52

/-- The 11 bits above the fraction. -/
def biased (x : Binary64) : Nat := x.bits.toNat / Nat.pow 2 52 % Nat.pow 2 11

/-- The top bit. -/
def isNegative (x : Binary64) : Bool := Nat.pow 2 63 ≤ x.bits.toNat

/-- What the bits stand for; a finite number is `m * 2 ^ q`. -/
inductive Reading where
  | nan
  | infinite (negative : Bool)
  | finite (negative : Bool) (m : Nat) (q : Int)
deriving DecidableEq, Repr

def reading (x : Binary64) : Reading :=
  if x.biased = 2047 then
    if x.fraction = 0 then .infinite x.isNegative else .nan
  else if x.biased = 0 then .finite x.isNegative x.fraction (-1074)
  else .finite x.isNegative (Nat.pow 2 52 + x.fraction) (x.biased - 1075)

def isNaN (x : Binary64) : Bool := x.biased == 2047 && x.fraction != 0

def isZero (x : Binary64) : Bool := x.biased == 0 && x.fraction == 0

/-- Numeric equality. -/
def eq (x y : Binary64) : Bool :=
  !x.isNaN && !y.isNaN && (x.bits == y.bits || (x.isZero && y.isZero))

/-- Whether the number below is half as far away as the number above: at a
power of two, except where the exponent is the least one. -/
def closerBelow (x : Binary64) : Bool := x.fraction == 0 && 1 < x.biased

theorem isNaN_iff (x : Binary64) : x.isNaN = true ↔ x.reading = .nan := by
  simp only [isNaN, reading]
  split <;> rename_i h
  · split <;> simp_all
  · split <;> simp_all

end Binary64

end CopyOnBind
