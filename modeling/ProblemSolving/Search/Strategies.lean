import ProblemSolving.Search.BestFirst
import ProblemSolving.Search.DepthLimited
import ProblemSolving.Search.Explore

/-!
# Named strategies

* `breadthFirstTreeSearch`, `breadthFirstGraphSearch`, `depthFirstTreeSearch`,
  `depthFirstGraphSearch` : the loops of `explore` with a queue or a stack.
* `cappedBreadthFirstTreeSearch` : the breadth-first tree search of comparisons.
* `Searcher`, `standardSearchers` : the strategies that are compared.
-/

namespace ProblemSolving

variable {σ α κ : Type} [Scalar κ]

def breadthFirstTreeSearch (P : Problem σ α κ) (policy : TimedPolicy) : Result σ α κ :=
  exploreFromRoot Queue P policy .forgetful "breadth_first_tree_search"

def depthFirstTreeSearch (P : Problem σ α κ) (policy : TimedPolicy) : Result σ α κ :=
  exploreFromRoot Stack P policy .forgetful "depth_first_tree_search"

def breadthFirstGraphSearch [BEq σ] [Hashable σ] (P : Problem σ α κ) (policy : TimedPolicy) :
    Result σ α κ :=
  exploreFromRoot Queue P policy .seen "breadth_first_graph_search"

def depthFirstGraphSearch [BEq σ] [Hashable σ] (P : Problem σ α κ) (policy : TimedPolicy) :
    Result σ α κ :=
  exploreFromRoot Stack P policy .seen "depth_first_graph_search"

/-- The most expansions of a tree search in a comparison. -/
def treeSearchCap : Nat := 50000

/-- Breadth-first tree search with a budget of its own, since repeated states may grow its frontier
without end. -/
def cappedBreadthFirstTreeSearch (P : Problem σ α κ) (policy : TimedPolicy) : Result σ α κ :=
  breadthFirstTreeSearch P { policy with maxExpansions := min policy.maxExpansions treeSearchCap }

/-- A strategy with its name. -/
structure Searcher (σ α κ : Type) where
  name : String
  search : Problem σ α κ → TimedPolicy → Result σ α κ

/-- The strategies of a comparison, in its order. -/
def standardSearchers [BEq σ] [Hashable σ] : List (Searcher σ α κ) := [
  ⟨"breadth_first_tree_search", cappedBreadthFirstTreeSearch⟩,
  ⟨"breadth_first_graph_search", breadthFirstGraphSearch⟩,
  ⟨"depth_first_graph_search", depthFirstGraphSearch⟩,
  ⟨"uniform_cost_search", uniformCostSearch⟩,
  ⟨"iterative_deepening_search", iterativeDeepeningSearch⟩,
  ⟨"greedy_best_first_graph_search", greedyBestFirstSearch⟩,
  ⟨"astar_search", astarSearch⟩]

end ProblemSolving
