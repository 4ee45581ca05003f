import ProblemSolving.Search.Strategies

/-!
# Every strategy

* `Waiting` : the disciplines of a frontier.
* `Strategy` : the searches, with what they take besides a problem and a policy.
* `Strategy.run` : runs one of them.
-/

namespace ProblemSolving

/-- What decides which node comes next. -/
inductive Waiting where
  | queue
  | stack
  | ranked
deriving DecidableEq

/-- The searches, with what they take besides a problem and a policy. -/
inductive Strategy (σ α κ : Type) where
  | tree (waiting : Waiting)
  | graph (waiting : Waiting)
  | breadthFirstTree
  | breadthFirstGraph
  | depthFirstTree
  | depthFirstGraph
  | cappedBreadthFirstTree
  | bestFirst (eval : Evaluation σ α κ) (reopening : Reopening)
  | uniformCost
  | greedy
  | astar
  | depthLimited (limit : Nat)
  | iterativeDeepening

variable {σ α κ : Type} [Scalar κ] [BEq σ] [Hashable σ]

/-- Runs a search on a problem under a policy. -/
def Strategy.run : Strategy σ α κ → Problem σ α κ → TimedPolicy → Result σ α κ
  | tree .queue => treeSearch Queue
  | tree .stack => treeSearch Stack
  | tree .ranked => treeSearch (Ranked κ)
  | graph .queue => graphSearch Queue
  | graph .stack => graphSearch Stack
  | graph .ranked => graphSearch (Ranked κ)
  | breadthFirstTree => breadthFirstTreeSearch
  | breadthFirstGraph => breadthFirstGraphSearch
  | depthFirstTree => depthFirstTreeSearch
  | depthFirstGraph => depthFirstGraphSearch
  | cappedBreadthFirstTree => cappedBreadthFirstTreeSearch
  | bestFirst eval reopening => fun P => bestFirstGraphSearch P eval reopening
  | uniformCost => uniformCostSearch
  | greedy => greedyBestFirstSearch
  | astar => astarSearch
  | depthLimited limit => fun P => depthLimitedSearch P limit
  | iterativeDeepening => iterativeDeepeningSearch

end ProblemSolving
