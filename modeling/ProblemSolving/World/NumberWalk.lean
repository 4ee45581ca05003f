import ProblemSolving.Number.Word
import ProblemSolving.StateSpace.Problem

/-!
# Walks over whole numbers

* `NumberMove` : multiplies a number and adds to it.
* `NumberWalk` : a range of numbers, the moves, and the numbers to reach.
* `NumberWalk.problem` : the search for a way, in the arithmetic of words.
-/

namespace ProblemSolving

/-- Goes from `s` to `s * factor + summand`. -/
structure NumberMove (κ : Type) where
  label : String
  factor : Int
  summand : Int
  cost : κ

namespace NumberMove

variable {κ : Type}

def apply (m : NumberMove κ) (s : Int) : Int := s * m.factor + m.summand

/-- Whether the product and the sum are words. -/
def isDefined (m : NumberMove κ) (s : Int) : Bool := isWord (s * m.factor) && isWord (m.apply s)

end NumberMove

/-- Moves among the numbers from `least` to `greatest`. -/
structure NumberWalk (κ : Type) where
  initial : Int
  goals : List Int
  moves : Array (NumberMove κ)
  least : Int
  greatest : Int
  /-- What a distance of one counts in the estimate. -/
  scale : κ

namespace NumberWalk

variable {κ : Type} [Scalar κ] (w : NumberWalk κ)

/-- A move is named by its label and its place. -/
def legalMoves (s : Int) : List (String × Nat) :=
  (w.moves.toList.zipIdx.filter fun (m, _) =>
    w.least ≤ m.apply s && m.apply s ≤ w.greatest).map fun (m, i) => (m.label, i)

/-- The search for a way to a goal. The estimate is the distance to the first goal, scaled. -/
def problem : Problem Int (String × Nat) κ where
  initial := w.initial
  actions := w.legalMoves
  result s a := (w.moves[a.2]?.map (·.apply s)).getD s
  isGoal s := w.goals.contains s
  pathCost cost _ a _ := cost + (w.moves[a.2]?.map (·.cost)).getD 0
  heuristic node :=
    match w.goals with
    | goal :: _ => Scalar.ofNat (goal - node.state).natAbs * w.scale
    | [] => 0
  isDefined s := w.moves.all (·.isDefined s)
  isEstimable node := w.goals.head?.all fun goal => isSymmetricWord (goal - node.state)

end NumberWalk

end ProblemSolving
