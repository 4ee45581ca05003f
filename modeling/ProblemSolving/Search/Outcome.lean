import ProblemSolving.Number.Decimal
import ProblemSolving.StateSpace.SearchTree

/-!
# Outcomes of searches

* `Termination` : why a search ended.
* `Stats` : what it counted.
* `ExpandEvent`, `Trace` : the record of its expansions.
* `Result` : all of it, with the tree.
-/

namespace ProblemSolving

/-- The sentence that reports a violation. -/
def Violation.message : Violation Double → String
  | .negativeHeuristic depth value =>
    "heuristic returned " ++ value.text Double.sentence ++ " at depth " ++ toString depth
  | .negativeStepCost depth step =>
    "step cost " ++ step.text Double.sentence ++ " reaching depth " ++ toString depth
  | .undefined depth => "undefined at depth " ++ toString depth

/-- Why a search ended. -/
inductive Termination (κ : Type) where
  /-- The node with this number is a goal. -/
  | goalReached (node : Nat)
  /-- Nothing is left to expand, and nothing was left out. -/
  | frontierExhausted
  /-- A path was cut at the depth limit. -/
  | cutoff
  | expansionBudgetExceeded
  | depthBudgetExceeded
  | timeBudgetExceeded
  | contractViolation (violation : Violation κ)
deriving DecidableEq

namespace Termination

variable {κ : Type}

def label : Termination κ → String
  | goalReached _ => "goal_reached"
  | frontierExhausted => "frontier_exhausted"
  | cutoff => "cutoff"
  | expansionBudgetExceeded => "expansion_budget_exceeded"
  | depthBudgetExceeded => "depth_budget_exceeded"
  | timeBudgetExceeded => "time_budget_exceeded"
  | contractViolation _ => "contract_violation"

/-- Whether a larger budget might change the outcome. -/
def isBudgetLimited : Termination κ → Bool
  | cutoff | expansionBudgetExceeded | depthBudgetExceeded | timeBudgetExceeded => true
  | _ => false

/-- Whether the search came to something that its problem does not define. -/
def isUndefined : Termination κ → Bool
  | contractViolation (.undefined _) => true
  | _ => false

end Termination

/-- What a search counts. -/
structure Stats where
  /-- Nodes whose children were made. -/
  expansions : Nat := 0
  /-- Children made. -/
  generated : Nat := 0
  /-- Children dropped because their state was known. -/
  duplicates : Nat := 0
  /-- Expanded states that were opened again on a cheaper path. -/
  reopened : Nat := 0
  /-- Children dropped because they lie too deep. -/
  depthSkipped : Nat := 0
  /-- The most nodes that ever waited. -/
  highWater : Nat := 0
deriving DecidableEq

/-- One expansion. -/
structure ExpandEvent (κ : Type) where
  /-- Its place among the expansions. -/
  order : Nat
  /-- The number of the node. -/
  node : Nat
  depth : Nat
  /-- The value by which the node was chosen. -/
  f : κ
  /-- The numbers of the children. -/
  children : List Nat
deriving DecidableEq

/-- The record of a search. -/
structure Trace (κ : Type) where
  algorithm : String
  events : List (ExpandEvent κ)
  /-- The label of the termination, once the search has ended. -/
  termination : Option String
deriving DecidableEq

/-- The outcome of a search. -/
structure Result (σ α κ : Type) where
  termination : Termination κ
  tree : SearchTree σ α κ
  stats : Stats
  trace : Option (Trace κ)

namespace Result

variable {σ α κ : Type} (r : Result σ α κ)

/-- The number of the goal node. -/
def goalId? : Option Nat :=
  match r.termination with
  | .goalReached id => some id
  | _ => none

def isGoalReached : Bool := r.goalId?.isSome

/-- The goal node. -/
def goal? : Option (Node σ α κ) := r.goalId?.bind r.tree.get?

def pathCost? : Option κ := r.goal?.map (·.cost)

/-- The actions from the root to the goal. -/
def solution? : Option (List α) := r.goalId?.map r.tree.solution

/-- The states from the root to the goal. -/
def pathStates? : Option (List σ) := r.goalId?.map r.tree.pathStates

end Result

end ProblemSolving
