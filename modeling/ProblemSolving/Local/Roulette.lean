import ProblemSolving.Random.Source

/-!
# Roulette wheels

A wheel gives each place a sector as wide as its weight.

* `weightOfFitness` : the weight of an individual.
* `Wheel.ofWeights?` : the wheel of some weights, if their total is finite.
* `Wheel.spin` : a place.
-/

namespace ProblemSolving

/-- Positive finite fitness is its own weight; all other fitness weighs nothing. -/
def weightOfFitness (fitness : Double) : Double :=
  if fitness.isFinite && Double.zero.lt fitness then fitness else .zero

/-- A wheel with at least one place. -/
inductive Wheel where
  /-- Where each sector but the first begins, and the width that is spun over. -/
  | weighted (starts : List Double) (width : Double)
  /-- All places alike. -/
  | uniform (places : Nat)

namespace Wheel

/-- The running totals before each weight but the first, and the total of all. -/
def totals (total : Double) : List Double → List Double × Double
  | [] => ([], total)
  | weight :: rest =>
    let (starts, sum) := totals (total + weight) rest
    (total :: starts, sum)

/-- The greatest of the numbers that a draw scales the width by: one less `2 ^ (-52)`. -/
def greatestPart : Double := .ofRatio false ((Nat.pow 2 52 - 1) * Double.unitsPerOne) (Nat.pow 2 52)

/-- The widest span whose greatest draw stays below the total. Only totals of few units have to
give way, and one unit is enough for them. -/
def spanBelow (total : Double) : Double :=
  if total.le (greatestPart * total) then
    ⟨total.negative, total.magnitude - 1, Nat.le_trans (Nat.sub_le _ _) total.magnitude_le⟩
  else total

/-- The wheel of some weights: without any weight all places are alike; an infinite total has no
wheel. -/
def ofWeights? : List Double → Option Wheel
  | [] => some (.uniform 0)
  | first :: rest =>
    let (starts, total) := totals first rest
    if total.magnitude = 0 then some (.uniform (rest.length + 1))
    else if total.isFinite then some (.weighted starts (spanBelow total))
    else none

/-- A place of the wheel. -/
def spin {ρ : Type} [RandomSource ρ] : Wheel → Draw ρ Nat
  | weighted starts width => do
    let part : Double := .ofNat ((← Draw.word64) / Nat.pow 2 12) / .ofNat (Nat.pow 2 52)
    let point := part * width
    return starts.countP (fun start => start.le point)
  | uniform places => Draw.below64 places

end Wheel

end ProblemSolving
