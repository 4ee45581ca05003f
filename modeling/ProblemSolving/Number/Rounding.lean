/-!
# Rounding quotients

Exact integer arithmetic that the number formats share.

* `Tie` : which neighbour takes an exact half.
* `roundDiv` : a quotient of naturals, rounded to the nearest natural.
* `sqrtFloor` : the integer part of a square root.
-/

namespace ProblemSolving

/-- Which neighbour takes a value that lies exactly between two. -/
inductive Tie where
  | toEven
  | away
deriving DecidableEq

/-- The natural nearest to `num / den`; an exact half goes as `tie` says. -/
def roundDiv (tie : Tie) (num den : Nat) : Nat :=
  let q := num / den
  match compare (2 * (num % den)) den with
  | .lt => q
  | .gt => q + 1
  | .eq => match tie with
    | .toEven => q + q % 2
    | .away => q + 1

/-- The integer part of the square root of `n`, found bit by bit from the `bits`-th one down:
`root` holds the bits found so far. -/
def sqrtBits (n : Nat) : (bits : Nat) → (root : Nat) → Nat
  | 0, root => root
  | bits + 1, root =>
    let next := root + Nat.pow 2 bits
    sqrtBits n bits (if next * next ≤ n then next else root)

/-- The integer part of the square root of `n`. -/
def sqrtFloor (n : Nat) : Nat :=
  sqrtBits n (n.log2 / 2 + 1) 0

end ProblemSolving
