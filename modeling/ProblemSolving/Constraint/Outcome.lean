import ProblemSolving.Constraint.Model

/-!
# Outcomes of constraint solvers

* `Solution` : how a solver ended.
* `SolverStats` : what it counted.
-/

namespace ProblemSolving

/-- How a solver ended. -/
inductive Solution (ν : Type) where
  | solved (assignment : Assignment ν)
  | unsatisfiable
  | budgetExceeded
  /-- A relation was asked about values for which it is undefined. -/
  | undefined
deriving DecidableEq

def Solution.name {ν : Type} : Solution ν → String
  | solved _ => "Solved"
  | unsatisfiable => "Unsatisfiable"
  | budgetExceeded => "BudgetExceeded"
  | undefined => "Undefined"

/-- What a solver counts. -/
structure SolverStats where
  assignments : Nat := 0
  backtracks : Nat := 0
  prunings : Nat := 0
  restarts : Nat := 0
deriving DecidableEq

/-- The outcome of a solver. -/
structure SolverOutcome (ν : Type) where
  solution : Solution ν
  stats : SolverStats
deriving DecidableEq

/-- The assignment that was found. -/
def SolverOutcome.assignment? {ν : Type} (o : SolverOutcome ν) : Option (Assignment ν) :=
  match o.solution with
  | .solved assignment => some assignment
  | _ => none

end ProblemSolving
