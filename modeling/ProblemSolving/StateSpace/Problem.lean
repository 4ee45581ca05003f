import ProblemSolving.Number.Scalar

/-!
# Problems

A state space with a start, actions, a goal test, and costs.

* `Node` : a state with the path that reached it.
* `Problem` : the space that is searched.
* `Problem.replay` : the state that a list of actions leads to.
* `Problem.unitCost`, `Problem.noEstimate`, `Problem.withDefaults` : the costs and estimates of
  problems that have none.
-/

namespace ProblemSolving

/-- A state together with how it was reached. -/
structure Node (σ α κ : Type) where
  state : σ
  /-- The number of the parent node and the action applied there; a root has none. -/
  origin : Option (Nat × α)
  /-- The cost of the path from the root. -/
  cost : κ
  /-- The number of actions from the root. -/
  depth : Nat

/-- A state space to be searched. The actions of a state are finitely many and in a fixed order;
costs along a path are meant not to decrease and estimates not to be negative, and what is asked for
is meant to be defined, which the searches check. -/
structure Problem (σ α κ : Type) where
  initial : σ
  actions : σ → List α
  result : σ → α → σ
  isGoal : σ → Bool
  /-- The cost of a path that goes on from a state by an action to the next state, from the cost so
  far. -/
  pathCost : κ → σ → α → σ → κ
  /-- The estimated cost from a node to a goal. -/
  heuristic : Node σ α κ → κ
  /-- Whether the actions of a state, and what they lead to, are defined. -/
  isDefined : σ → Bool := fun _ => true
  /-- Whether the estimate of a node is defined. -/
  isEstimable : Node σ α κ → Bool := fun _ => true

namespace Problem

variable {σ α κ : Type}

/-- The state after a list of actions, from the initial state. -/
def replay (P : Problem σ α κ) (actions : List α) : σ :=
  actions.foldl P.result P.initial

/-- Every action costs one. -/
def unitCost [Scalar κ] : κ → σ → α → σ → κ := fun cost _ _ _ => cost + 1

/-- The estimate that knows nothing. -/
def noEstimate [Scalar κ] : Node σ α κ → κ := fun _ => 0

/-- The problem without its own costs and estimates. -/
def withDefaults [Scalar κ] (P : Problem σ α κ) : Problem σ α κ :=
  { P with pathCost := unitCost, heuristic := noEstimate, isEstimable := fun _ => true }

end Problem

end ProblemSolving
