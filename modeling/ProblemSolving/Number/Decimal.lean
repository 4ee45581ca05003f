import ProblemSolving.Number.Double

/-!
# Decimal texts of doubles

Which digits stand for a double, and how they are laid out.

* `Decimal` : a coefficient times a power of ten.
* `Double.shortest` : the decimal with the fewest digits that rounds to the double.
* `Layout` : the decisions of one written format.
* `Double.text` : a double in a layout.
* `Double.fixed` : a double with a set number of places.
-/

namespace ProblemSolving

/-- The number `coefficient * 10 ^ exponent`. -/
structure Decimal where
  coefficient : Nat
  exponent : Int
deriving DecidableEq

/-- The exponent of the leading decimal digit of a positive natural. -/
def leadingExponent (n : Nat) : Nat :=
  if n < 10 then 0 else leadingExponent (n / 10) + 1

/-- The least `k` with `den ≤ num * 10 ^ k`, searched up to `bound`. -/
def leadingZeros (num den : Nat) : (bound : Nat) → Nat
  | 0 => 0
  | bound + 1 => if den ≤ num then 0 else leadingZeros (num * 10) den bound + 1

/-- A decimal without trailing zeros in its coefficient. -/
def Decimal.trim (d : Decimal) : Decimal :=
  if _h : d.coefficient ≠ 0 ∧ d.coefficient % 10 = 0 then
    Decimal.trim ⟨d.coefficient / 10, d.exponent + 1⟩
  else d
termination_by d.coefficient
decreasing_by
  show d.coefficient / 10 < d.coefficient
  omega

namespace Double

/-- The decimal exponent of the leading digit of a positive finite double. -/
def decimalExponent (x : Double) : Int :=
  if unitsPerOne ≤ x.absUnits then leadingExponent (x.absUnits / unitsPerOne)
  else -(leadingZeros x.absUnits unitsPerOne decimalBound : Int)

/-- `units * 10 ^ (-exponent)` as a fraction of ones. -/
def scaled (units : Nat) (exponent : Int) : Nat × Nat :=
  match exponent with
  | .ofNat e => (units, unitsPerOne * Nat.pow 10 e)
  | .negSucc e => (units * Nat.pow 10 (e + 1), unitsPerOne)

/-- Whether `coefficient * 10 ^ exponent` rounds to the positive double at `place`: it lies
between the midpoints to the two neighbours, which themselves round to the even place. -/
def reads (place coefficient : Nat) (exponent : Int) : Bool :=
  let (low, one) := scaled (unitsAt (place - 1) + unitsAt place) exponent
  let (high, _) := scaled (unitsAt place + unitsAt (place + 1)) exponent
  let middle := 2 * coefficient * one
  if place % 2 = 0 then low ≤ middle && middle ≤ high else low < middle && middle < high

/-- On the grid of multiples of `10 ^ exponent`, the one nearer to the double at `place` of those
next to it that round to it, if one does. -/
def onGrid? (tie : Tie) (place : Nat) (exponent : Int) : Option Decimal :=
  let (num, den) := scaled (unitsAt place) exponent
  let below := num / den
  let nearest := roundDiv tie num den
  let farther := if nearest = below then below + 1 else below
  if reads place nearest exponent then some ⟨nearest, exponent⟩
  else if reads place farther exponent then some ⟨farther, exponent⟩
  else none

/-- The first grid with a hit for the double at `place`, whose leading digit has the exponent `leading`,
from `digits` digits on, with `more` finer grids to try. -/
def shortestFrom (tie : Tie) (place : Nat) (leading : Int) (digits : Nat) : (more : Nat) → Decimal
  | 0 => ⟨0, 0⟩
  | more + 1 =>
    match onGrid? tie place (leading - digits) with
    | some d => d.trim
    | none => shortestFrom tie place leading (digits + 1) more

/-- The decimal with the fewest digits that rounds to the finite double, the nearest of those, the
sign left out. Seventeen digits always suffice. -/
def shortest (tie : Tie) (x : Double) : Decimal :=
  if x.magnitude = 0 then ⟨0, 0⟩ else shortestFrom tie x.magnitude x.decimalExponent 0 17

end Double

/-! ## Layouts -/

/-- How the digits of a finite double are written. -/
structure Layout where
  /-- Which digits an exact half between two shortest decimals takes. -/
  tie : Tie
  /-- Whether a number with this leading exponent is written without an exponent. -/
  positional : Int → Bool
  /-- Whether a whole number written without an exponent keeps a fraction of `.0`. -/
  keepFraction : Bool

/-- The digits with a point `places` digits before the end. -/
def withPoint (digits : String) (places : Nat) : String :=
  let padded := "".pushn '0' (places + 1 - digits.length) ++ digits
  let whole := padded.length - places
  (padded.take whole).toString ++ "." ++ (padded.drop whole).toString

/-- A decimal in a layout. -/
def Decimal.text (layout : Layout) (d : Decimal) : String :=
  let digits := toString d.coefficient
  let leading : Int := d.exponent + digits.length - 1
  if layout.positional leading then
    match d.exponent with
    | .ofNat e => digits.pushn '0' e ++ if layout.keepFraction then ".0" else ""
    | .negSucc e => withPoint digits (e + 1)
  else
    let mantissa := if digits.length = 1 then digits else withPoint digits (digits.length - 1)
    let sign := if leading < 0 then "-" else "+"
    mantissa ++ "e" ++ sign ++ toString leading.natAbs

namespace Double

/-- The text of the sign. -/
def signText (x : Double) : String := if x.negative then "-" else ""

/-- A double in a layout; values that are no numbers have names, and only infinities keep their
sign. -/
def text (layout : Layout) (x : Double) : String :=
  if x.isNaN then "NaN"
  else if x.isInfinite then x.signText ++ "inf"
  else x.signText ++ (x.shortest layout.tie).text layout

/-- A double with exactly `places` places, a half going to the even digit. The value that is
rounded is the exact one. -/
def fixed (places : Nat) (x : Double) : String :=
  if x.isNaN then "NaN"
  else if x.isInfinite then x.signText ++ "inf"
  else
    let rounded := roundDiv .toEven (x.absUnits * Nat.pow 10 places) unitsPerOne
    x.signText ++ withPoint (toString rounded) places

/-- In sentences numbers have no exponent, and whole ones no point; a half between two shortest
texts goes up. -/
def sentence : Layout := ⟨.away, fun _ => true, false⟩

end Double

end ProblemSolving
