/-!
# Landscapes

* `Landscape` : complete states with a value to maximize and moves between them.
* `LocalTermination`, `LocalOutcome` : how a local search ends.
-/

namespace ProblemSolving

/-- Complete states, the moves from each, and the value that is maximized. -/
structure Landscape (σ α κ : Type) where
  initial : σ
  moves : σ → List α
  apply : σ → α → σ
  value : σ → κ

/-- Why a local search ended. -/
inductive LocalTermination where
  | localMaximum
  | noNeighbors
  | stepBudgetExceeded
  | scheduleExhausted
  | timeBudgetExceeded
deriving DecidableEq

/-- Where a local search ended. -/
structure LocalOutcome (σ κ : Type) where
  state : σ
  value : κ
  steps : Nat
  termination : LocalTermination

end ProblemSolving
