import ProblemSolving.Number.Rounding
import ProblemSolving.Number.Scalar

/-!
# Doubles

Binary floating-point numbers of 64 bits, by sign and magnitude. The magnitude is the position in
the ascending row of non-negative doubles: zero, the subnormals, the normal numbers, infinity, and
one undefined value at the end. Finite doubles are whole multiples of the least positive one, so
all arithmetic is arithmetic of integers followed by one rounding.

* `Double` : sign and magnitude.
* `Double.units` : the value as a multiple of the least positive double.
* `Double.ofRatio` : a quotient of units, rounded to the nearest double.
* `Double.add`, `Double.mul`, `Double.div` : exact results, rounded once.
* `Double.lt`, `Double.le` : comparison as numbers.
* `Double.rank` : the total order, from the negative undefined value to the positive one.
-/

namespace ProblemSolving

/-- The magnitude of infinity: the first position after the finite doubles. -/
def infinityMagnitude : Nat := 0x7FF0000000000000

/-- A double by its sign and its place among the non-negative doubles. The undefined values of one
sign are one double here: the bits in which they differ are left out, and the order among them. -/
structure Double where
  /-- Whether the sign bit is set. -/
  negative : Bool
  /-- The place in the ascending row of non-negative doubles; infinity is followed by the one
  undefined value. -/
  magnitude : Nat
  magnitude_le : magnitude ≤ infinityMagnitude + 1 := by decide
deriving DecidableEq

namespace Double

/-! ## Special values -/

def zero : Double := ⟨false, 0, by decide⟩

def infinity : Double := ⟨false, infinityMagnitude, by decide⟩

/-- The undefined value of the given sign. -/
def nan (negative : Bool) : Double := ⟨negative, infinityMagnitude + 1, Nat.le_refl _⟩

/-- What an operation without a defined result gives: the undefined value whose sign bit is
set. -/
def undefined : Double := nan true

def isNaN (x : Double) : Bool := infinityMagnitude < x.magnitude

def isFinite (x : Double) : Bool := x.magnitude < infinityMagnitude

def isInfinite (x : Double) : Bool := x.magnitude == infinityMagnitude

/-! ## Values in units -/

/-- How many times the least positive double fits into a unit. -/
def unitsPerOne : Nat := Nat.pow 2 1074

/-- The value at a place of the row, in units. Places up to `2 ^ 53` are their own value; after
that each run of `2 ^ 52` places has twice the spacing of the one before. -/
def unitsAt (place : Nat) : Nat :=
  let scale := place / Nat.pow 2 52
  if scale = 0 then place else (place % Nat.pow 2 52 + Nat.pow 2 52) * Nat.pow 2 (scale - 1)

/-- The value in units, without the sign. -/
def absUnits (x : Double) : Nat := unitsAt x.magnitude

/-- The value in units. -/
def units (x : Double) : Int := if x.negative then -(x.absUnits : Int) else x.absUnits

/-- The place nearest to `num / den` units, a half going to the even place. Rounding keeps 53
bits; a carry out of them lands on the first place of the next run by itself. -/
def placeOfRatio (num den : Nat) : Nat :=
  let dropped := (num / den).log2 - 52
  dropped * Nat.pow 2 52 + roundDiv .toEven num (den * Nat.pow 2 dropped)

/-- The double nearest to `num / den` units; beyond the greatest finite one it is infinite. -/
def ofRatio (negative : Bool) (num den : Nat) : Double :=
  ⟨negative, min (placeOfRatio num den) infinityMagnitude,
    Nat.le_trans (Nat.min_le_right _ _) (Nat.le_succ _)⟩

/-- The double nearest to a whole number of units. -/
def ofUnits (u : Int) : Double := ofRatio (u < 0) u.natAbs 1

/-- The double nearest to an integer. -/
def ofInt (n : Int) : Double := ofRatio (n < 0) (n.natAbs * unitsPerOne) 1

/-- The double nearest to a natural number. -/
def ofNat (n : Nat) : Double := ofRatio false (n * unitsPerOne) 1

def one : Double := ofNat 1

/-- Decimal exponents beyond this bound, counted from the first digit, leave the range of
doubles. -/
def decimalBound : Nat := 400

/-- The double nearest to `coefficient * 10 ^ exponent`. Exponents so far out that the result is
certainly infinite or zero are answered without computing the power. -/
def ofDecimal (negative : Bool) (coefficient : Nat) (exponent : Int) : Double :=
  if coefficient = 0 then ⟨negative, 0, by decide⟩
  else if (decimalBound : Int) < exponent then ⟨negative, infinityMagnitude, by decide⟩
  else match exponent with
    | .ofNat e => ofRatio negative (coefficient * Nat.pow 10 e * unitsPerOne) 1
    | .negSucc e =>
      if coefficient.log2 + decimalBound < e then ⟨negative, 0, by decide⟩
      else ofRatio negative (coefficient * unitsPerOne) (Nat.pow 10 (e + 1))

/-! ## Arithmetic -/

/-- The double of the opposite sign. -/
def neg (x : Double) : Double := { x with negative := !x.negative }

/-- The double without its sign. -/
def abs (x : Double) : Double := { x with negative := false }

/-- The sum. Two zeros keep a common sign, every other sum of zero is positive. -/
def add (x y : Double) : Double :=
  if x.isNaN then x
  else if y.isNaN then y
  else if x.isInfinite then
    if y.isInfinite && x.negative != y.negative then undefined else x
  else if y.isInfinite then y
  else
    let sum := x.units + y.units
    if sum = 0 then ⟨x.negative && y.negative, 0, by decide⟩ else ofUnits sum

/-- The difference. -/
def sub (x y : Double) : Double := if y.isNaN && !x.isNaN then y else x.add y.neg

/-- The product. -/
def mul (x y : Double) : Double :=
  let negative := x.negative != y.negative
  if x.isNaN then x
  else if y.isNaN then y
  else if x.isInfinite || y.isInfinite then
    if x.magnitude = 0 || y.magnitude = 0 then undefined
    else ⟨negative, infinityMagnitude, by decide⟩
  else ofRatio negative (x.absUnits * y.absUnits) unitsPerOne

/-- The quotient. -/
def div (x y : Double) : Double :=
  let negative := x.negative != y.negative
  if x.isNaN then x
  else if y.isNaN then y
  else if x.isInfinite then
    if y.isInfinite then undefined else ⟨negative, infinityMagnitude, by decide⟩
  else if y.isInfinite then ⟨negative, 0, by decide⟩
  else if y.magnitude = 0 then
    if x.magnitude = 0 then undefined else ⟨negative, infinityMagnitude, by decide⟩
  else ofRatio negative (x.absUnits * unitsPerOne) y.absUnits

/-- The length of the hypotenuse over two legs, correctly rounded and without overflow on the
way. An infinite leg decides even beside an undefined one. The root is taken of sixteen times the
sum of squares, and one more bit says whether it was exact, so the final rounding sees on which
side of every midpoint the true length lies. -/
def hypot (x y : Double) : Double :=
  if x.isInfinite || y.isInfinite then infinity
  else if x.isNaN then x
  else if y.isNaN then y
  else
    let square := 16 * (x.absUnits * x.absUnits + y.absUnits * y.absUnits)
    let root := sqrtFloor square
    ofRatio false (2 * root + if root * root = square then 0 else 1) 8

/-! ## Comparison -/

/-- The magnitude with the sign; the two zeros share a key. -/
def signedMagnitude (x : Double) : Int := if x.negative then -(x.magnitude : Int) else x.magnitude

/-- Strictly below, as numbers: an undefined value is below nothing and above nothing. -/
def lt (x y : Double) : Bool := !x.isNaN && !y.isNaN && x.signedMagnitude < y.signedMagnitude

/-- At most, as numbers. -/
def le (x y : Double) : Bool := !x.isNaN && !y.isNaN && x.signedMagnitude ≤ y.signedMagnitude

/-- The place in the total order: negative values descend from `-1`, so the negative zero comes
just before the positive one. -/
def rankKey (x : Double) : Int :=
  if x.negative then -(x.magnitude : Int) - 1 else x.magnitude

/-- The total order of all doubles. -/
def rank (x y : Double) : Ordering := compare x.rankKey y.rankKey

/-! ## Bits -/

/-- The 64 bits of the double; an undefined value is the quiet one. -/
def toBits (x : Double) : UInt64 :=
  let body := if x.isNaN then 0x7FF8000000000000 else x.magnitude
  UInt64.ofNat (if x.negative then Nat.pow 2 63 + body else body)

/-- The double of 64 bits; all undefined values of one sign are one. -/
def ofBits (bits : UInt64) : Double :=
  ⟨bits.toNat / Nat.pow 2 63 == 1, min (bits.toNat % Nat.pow 2 63) (infinityMagnitude + 1),
    Nat.min_le_right _ _⟩

/-- The exponential function of the machine. -/
def exp (x : Double) : Double := ofBits (Float.ofBits x.toBits).exp.toBits

instance : Scalar Double where
  zero := zero
  one := one
  add := add
  sub := sub
  mul := mul
  div := div
  neg := neg
  ofNat := ofNat
  abs := abs
  infinity := infinity
  isNaN := isNaN
  isFinite := isFinite
  lt := lt
  le := le
  rank := rank

end Double

end ProblemSolving
