import ProblemSolving.Search.Run

/-!
# Depth-limited search and iterative deepening

Depth first, keeping only the nodes beside the current path: the nodes of a subtree without a goal
are dropped again.

* `Verdict` : what came of a subtree.
* `descend` : the search below a node.
* `depthLimitedSearch` : one pass.
* `iterativeDeepeningSearch` : passes with growing limits.
-/

namespace ProblemSolving

/-- What came of a subtree. -/
inductive Verdict (κ : Type) where
  /-- The node with this number is a goal. -/
  | found (node : Nat)
  /-- There is no goal within the limit, but paths go on. -/
  | cutoff
  /-- There is no goal. -/
  | failure
  | stopped (termination : Termination κ)

variable {σ α κ : Type} [Scalar κ]

/-- Visits nodes one after the other until one decides the search; `cut` says whether some path
was cut before. -/
def visitEach (visit : Run σ α κ → Placed σ α κ → Run σ α κ × Verdict κ) :
    Run σ α κ → List (Placed σ α κ) → (cut : Bool) → Run σ α κ × Verdict κ
  | run, [], cut => (run, if cut then .cutoff else .failure)
  | run, child :: rest, cut =>
    match visit run child with
    | (run, .cutoff) => visitEach visit run rest true
    | (run, .failure) => visitEach visit run rest cut
    | decided => decided

/-- Drops the nodes of subtrees without a goal, from the first of these children on. -/
def Run.dropFailed : List (Placed σ α κ) → Run σ α κ × Verdict κ → Run σ α κ × Verdict κ
  | first :: _, (run, .cutoff) => (run.truncate first.id, .cutoff)
  | first :: _, (run, .failure) => (run.truncate first.id, .failure)
  | _, decided => decided

/-- Searches the subtree of a node, at most `remaining` actions deep. -/
def descend (P : Problem σ α κ) (policy : TimedPolicy) :
    (remaining : Nat) → Run σ α κ → Placed σ α κ → Run σ α κ × Verdict κ
  | remaining, run, here =>
    if P.isGoal here.node.state then (run, .found here.id)
    else match remaining with
    | 0 => (run, .cutoff)
    | remaining + 1 =>
      match policy.stop? run.stats.expansions with
      | some termination => (run, .stopped termination)
      | none =>
        match run.expand P here (Scalar.ofNat here.node.depth) with
        | (run, .error violation) => (run, .stopped (.contractViolation violation))
        | (expanded, .ok children) =>
          let expanded := expanded.noteHighWater expanded.tree.size
          Run.dropFailed children
            (visitEach (descend P policy remaining) expanded children false)

/-- Searches from a fresh root, at most `limit` actions deep. -/
def Run.pass (P : Problem σ α κ) (policy : TimedPolicy) (limit : Nat) (run : Run σ α κ) :
    Run σ α κ × Termination κ :=
  let (tree, root) := SearchTree.empty.addRoot P.initial
  match descend P policy limit { run with tree } root with
  | (run, .found node) => (run, .goalReached node)
  | (run, .cutoff) => (run, .cutoff)
  | (run, .failure) => (run, .frontierExhausted)
  | (run, .stopped termination) => (run, termination)

/-- Depth-first search that goes no deeper than `limit`. -/
def depthLimitedSearch (P : Problem σ α κ) (limit : Nat) (policy : TimedPolicy) : Result σ α κ :=
  let (run, termination) := Run.pass P policy limit (.empty policy)
  run.finish "depth_limited_search" termination

/-- Passes with the limits from `limit` on, `passes` of them at most, until one is not cut off. -/
def Run.deepen (P : Problem σ α κ) (policy : TimedPolicy) :
    (passes limit : Nat) → Run σ α κ → Run σ α κ × Termination κ
  | 0, _, run => (run, .depthBudgetExceeded)
  | passes + 1, limit, run =>
    match run.pass P policy limit with
    | (run, .cutoff) => deepen P policy passes (limit + 1) run
    | ended => ended

/-- Depth-limited search with the limits `0, 1, …` up to the policy's depth, counted together. -/
def iterativeDeepeningSearch (P : Problem σ α κ) (policy : TimedPolicy) : Result σ α κ :=
  let (run, termination) := Run.deepen P policy (policy.maxDepth + 1) 0 (.empty policy)
  run.finish "iterative_deepening_search" termination

end ProblemSolving
