/-!
# Scalars

The arithmetic that costs, estimates and values are made of. The solvers are written over any
scalar type, so one definition runs on doubles and is reasoned about over exact numbers.

* `Scalar` : the operations.
-/

namespace ProblemSolving

/-- Arithmetic with a partial comparison (`lt`, `le`, both false on undefined values) and a total
order (`rank`) that also places the undefined values. -/
class Scalar (κ : Type) extends Zero κ, One κ, Add κ, Sub κ, Mul κ, Div κ, Neg κ where
  /-- The scalar of a count. -/
  ofNat : Nat → κ
  /-- The distance from zero. -/
  abs : κ → κ
  /-- A value above every finite one. -/
  infinity : κ
  /-- Whether the value stands for no number. -/
  isNaN : κ → Bool
  /-- Whether the value is a number and not an infinity. -/
  isFinite : κ → Bool
  /-- Strictly below, as numbers. -/
  lt : κ → κ → Bool
  /-- At most, as numbers. -/
  le : κ → κ → Bool
  /-- The total order by which frontiers are sorted. -/
  rank : κ → κ → Ordering

end ProblemSolving
