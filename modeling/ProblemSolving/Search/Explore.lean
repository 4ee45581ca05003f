import Std.Data.HashSet
import ProblemSolving.Frontier.Basic
import ProblemSolving.Search.Run

/-!
# Tree search and graph search

One loop, over any frontier discipline. A tree search forgets what it has seen; a graph search
drops every state that it generated before.

* `Memory` : which states are admitted to the frontier.
* `explore` : the loop.
* `treeSearch`, `graphSearch` : the two searches.
-/

namespace ProblemSolving

/-- Decides whether a state goes on the frontier, and remembers it. -/
structure Memory (σ μ : Type) where
  initial : σ → μ
  take : μ → σ → Bool × μ

/-- Admits everything. -/
def Memory.forgetful {σ : Type} : Memory σ Unit := ⟨fun _ => (), fun _ _ => (true, ())⟩

/-- Admits each state once. -/
def Memory.seen {σ : Type} [BEq σ] [Hashable σ] : Memory σ (Std.HashSet σ) where
  initial s := Std.HashSet.emptyWithCapacity.insert s
  take seen s := if seen.contains s then (false, seen) else (true, seen.insert s)

variable {σ α κ μ : Type} [Scalar κ] {δ : Type → Type} [Discipline δ κ]

/-- What the expansion of a node may change besides the tree. -/
structure Horizon (σ α κ μ : Type) (δ : Type → Type) where
  stats : Stats
  frontier : Frontier δ (Placed σ α κ)
  memory : μ

/-- Puts children on the frontier, except those that lie too deep or are not admitted. -/
def Horizon.offer (policy : TimedPolicy) (memory : Memory σ μ) :
    List (Placed σ α κ) → Horizon σ α κ μ δ → Horizon σ α κ μ δ
  | [], h => h
  | child :: rest, ⟨stats, frontier, seen⟩ =>
    if policy.maxDepth < child.node.depth then
      offer policy memory rest
        ⟨{ stats with depthSkipped := stats.depthSkipped + 1 }, frontier, seen⟩
    else
      match memory.take seen child.node.state with
      | (true, seen) =>
        offer policy memory rest ⟨stats, frontier.push child child.node.cost, seen⟩
      | (false, seen) =>
        offer policy memory rest
          ⟨{ stats with duplicates := stats.duplicates + 1 }, frontier, seen⟩

/-- Takes nodes from the frontier until one is a goal, with `left` expansions to go. -/
def explore (P : Problem σ α κ) (policy : TimedPolicy) (memory : Memory σ μ) (algorithm : String) :
    (left : Nat) → Run σ α κ → Frontier δ (Placed σ α κ) → μ → Result σ α κ
  | left, run, frontier, seen =>
    let run := run.noteHighWater frontier.highWater
    if frontier.size κ = 0 then run.finish algorithm run.exhausted
    else match left with
    | 0 => run.finish algorithm .expansionBudgetExceeded
    | left + 1 =>
      if policy.timeIsUp run.stats.expansions then
        run.finish algorithm .timeBudgetExceeded
      else match frontier.pop? κ with
      | none => run.finish algorithm run.exhausted
      | some (here, frontier) =>
        if P.isGoal here.node.state then run.finish algorithm (.goalReached here.id)
        else match run.expand P here here.node.cost with
        | (run, .error violation) => run.finish algorithm (.contractViolation violation)
        | (⟨tree, stats, log⟩, .ok children) =>
          match Horizon.offer policy memory children ⟨stats, frontier, seen⟩ with
          | ⟨stats, frontier, seen⟩ =>
            explore P policy memory algorithm left ⟨tree, stats, log⟩ frontier seen

/-- Explores from the root on. -/
def exploreFromRoot (δ : Type → Type) [Discipline δ κ] (P : Problem σ α κ) (policy : TimedPolicy)
    (memory : Memory σ μ) (algorithm : String) : Result σ α κ :=
  let (run, root) := Run.start P policy
  explore P policy memory algorithm policy.maxExpansions run
    ((Frontier.empty κ : Frontier δ (Placed σ α κ)).push root (0 : κ)) (memory.initial P.initial)

/-- Search that expands every path on its own. -/
def treeSearch (δ : Type → Type) [Discipline δ κ] (P : Problem σ α κ) (policy : TimedPolicy) :
    Result σ α κ :=
  exploreFromRoot δ P policy .forgetful "tree_search"

/-- Search that puts every state on the frontier at most once. -/
def graphSearch (δ : Type → Type) [Discipline δ κ] [BEq σ] [Hashable σ] (P : Problem σ α κ)
    (policy : TimedPolicy) : Result σ α κ :=
  exploreFromRoot δ P policy .seen "graph_search"

end ProblemSolving
