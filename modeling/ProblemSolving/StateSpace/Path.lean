import ProblemSolving.StateSpace.Problem

/-!
# Paths

What the searches are about, said without them.

* `Problem.Path` : a list of legal actions leads from one state to another.
* `Problem.costFrom` : the cost of a list of actions.
* `Problem.Solution` : a list of legal actions from the initial state to a goal.
-/

namespace ProblemSolving

namespace Problem

variable {σ α κ : Type} (P : Problem σ α κ)

/-- The actions lead from the first state to the second, each one legal where it is applied. -/
inductive Path : σ → List α → σ → Prop
  | nil (s : σ) : Path s [] s
  | cons {s t : σ} {a : α} {as : List α} (legal : a ∈ P.actions s) (rest : Path (P.result s a) as t) :
      Path s (a :: as) t

/-- The cost after the actions, applied from a state that was reached at some cost. -/
def costFrom : κ → σ → List α → κ
  | cost, _, [] => cost
  | cost, s, a :: as => costFrom (P.pathCost cost s a (P.result s a)) (P.result s a) as

/-- The cost of the actions from the initial state. -/
def totalCost [Scalar κ] (actions : List α) : κ := P.costFrom 0 P.initial actions

/-- The actions lead legally from the initial state to a goal. -/
def Solution (actions : List α) : Prop :=
  ∃ s, P.Path P.initial actions s ∧ P.isGoal s = true

/-- Some legal actions lead from the initial state to this one. -/
def Reachable (s : σ) : Prop := ∃ actions, P.Path P.initial actions s

end Problem

end ProblemSolving
