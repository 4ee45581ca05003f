import ProblemSolving.Constraint.Model
import ProblemSolving.Number.Word

/-!
# Relations of whole numbers

* `NumberRelation` : comparisons, distances, sums and tables.
* `NumberRelation.holds` : what they mean.
* `NumberRelation.relation` : the relation for a constraint, in the arithmetic of words.
-/

namespace ProblemSolving

/-- A relation of two whole numbers `x` and `y`. -/
inductive NumberRelation where
  | equal
  | unequal
  | below
  | atMost
  | above
  /-- The distance of `x` and `y` is `k`. -/
  | atDistance (k : Int)
  | notAtDistance (k : Int)
  /-- The distance of `x` and `y` is at least `k`. -/
  | apart (k : Int)
  /-- The sum of `x` and `y` is `k`. -/
  | sum (k : Int)
  /-- The difference of `x` and `y` is `k`: `x` is `y + k`. -/
  | offset (k : Int)
  /-- The pair of `x` and `y` is in the table. -/
  | among (pairs : List (Int × Int))
  | never
  | always
deriving DecidableEq

namespace NumberRelation

def holds : NumberRelation → Int → Int → Bool
  | equal, x, y => x == y
  | unequal, x, y => x != y
  | below, x, y => x < y
  | atMost, x, y => x ≤ y
  | above, x, y => y < x
  | atDistance k, x, y => ((x - y).natAbs : Int) == k
  | notAtDistance k, x, y => ((x - y).natAbs : Int) != k
  | apart k, x, y => k ≤ (x - y).natAbs
  | sum k, x, y => x + y == k
  | offset k, x, y => x == y + k
  | among pairs, x, y => pairs.contains (x, y)
  | never, _, _ => false
  | always, _, _ => true

/-- The numbers for which everything that has to be computed is a word; comparisons and tables
compute nothing. -/
def limits : NumberRelation → Option (Int → Int → Bool)
  | atDistance _ | notAtDistance _ | apart _ => some fun x y => isSymmetricWord (x - y)
  | sum _ => some fun x y => isWord (x + y)
  | offset k => some fun _ y => isWord (y + k)
  | _ => none

/-- The relation for a constraint. -/
def relation (r : NumberRelation) : Relation Int := ⟨r.holds, r.limits⟩

end NumberRelation

end ProblemSolving
