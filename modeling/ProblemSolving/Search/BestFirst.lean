import Std.Data.HashMap
import ProblemSolving.Frontier.Basic
import ProblemSolving.Search.Run

/-!
# Best-first search

Nodes are expanded in the order of an evaluation. A better way to a waiting state replaces its
entry; the entry that it replaces stays on the frontier and is passed over when its turn comes.

* `Reopening` : what happens to a cheaper way to an expanded state.
* `BestFirst` : the search at work.
* `bestFirst` : the search, with an evaluation that may report a violation.
* `bestFirstGraphSearch`, `uniformCostSearch`, `greedyBestFirstSearch`, `astarSearch` : its
  instances.
-/

namespace ProblemSolving

/-- What happens to a path to a state that was expanded before. -/
inductive Reopening where
  /-- It is dropped. -/
  | never
  /-- If it is cheaper, the state is opened again. -/
  | onCheaperPath
deriving DecidableEq

/-- The entry of a waiting state: its node, and the value it waits with. -/
structure OpenEntry (κ : Type) where
  node : Nat
  f : κ

/-- A best-first search at work. -/
structure BestFirst (σ α κ : Type) [BEq σ] [Hashable σ] where
  run : Run σ α κ
  frontier : Frontier (Ranked κ) (Placed σ α κ)
  /-- The states that wait. -/
  opened : Std.HashMap σ (OpenEntry κ)
  /-- The states that were expanded, with the path cost at which they were. -/
  closed : Std.HashMap σ κ

/-- The value of a node, or the violation that it shows. -/
abbrev Evaluation (σ α κ : Type) := Node σ α κ → Except (Violation κ) κ

namespace BestFirst

variable {σ α κ : Type} [Scalar κ] [BEq σ] [Hashable σ]

/-- Lets a node wait with a value. -/
def enter : BestFirst σ α κ → (child : Placed σ α κ) → (f : κ) → BestFirst σ α κ
  | ⟨run, frontier, opened, closed⟩, child, f =>
    ⟨run, frontier.push child f, opened.insert child.node.state ⟨child.id, f⟩, closed⟩

/-- Counts a child that is dropped because its state is known. -/
def suppress (s : BestFirst σ α κ) : BestFirst σ α κ :=
  { s with run := { s.run with
      stats := { s.run.stats with duplicates := s.run.stats.duplicates + 1 } } }

/-- Counts a child that is dropped because it lies too deep. -/
def skipDeep (s : BestFirst σ α κ) : BestFirst σ α κ :=
  { s with run := { s.run with
      stats := { s.run.stats with depthSkipped := s.run.stats.depthSkipped + 1 } } }

/-- Takes an expanded state back. -/
def reopen : BestFirst σ α κ → (state : σ) → BestFirst σ α κ
  | ⟨⟨tree, stats, log⟩, frontier, opened, closed⟩, state =>
    ⟨⟨tree, { stats with reopened := stats.reopened + 1 }, log⟩, frontier, opened,
      closed.erase state⟩

/-- Lets a node wait, unless its state already waits with a value that is no worse. -/
def enterOpen (s : BestFirst σ α κ) (child : Placed σ α κ) (f : κ) : BestFirst σ α κ :=
  match s.opened.get? child.node.state with
  | some entry => if Scalar.le entry.f f then s.suppress else s.enter child f
  | none => s.enter child f

/-- Lets a node wait, if its state is new, or waits with a worse value, or was expanded on a dearer
path and may be reopened. -/
def offer (reopening : Reopening) (s : BestFirst σ α κ) (child : Placed σ α κ) (f : κ) :
    BestFirst σ α κ :=
  match s.closed.get? child.node.state with
  | some expandedCost =>
    if reopening = .onCheaperPath && Scalar.lt child.node.cost expandedCost then
      (s.reopen child.node.state).enterOpen child f
    else s.suppress
  | none => s.enterOpen child f

/-- Offers children in order, until one shows a violation. -/
def offerAll (eval : Evaluation σ α κ) (reopening : Reopening) (policy : TimedPolicy) :
    BestFirst σ α κ → List (Placed σ α κ) → BestFirst σ α κ × Option (Violation κ)
  | s, [] => (s, none)
  | s, child :: rest =>
    if policy.maxDepth < child.node.depth then offerAll eval reopening policy s.skipDeep rest
    else match eval child.node with
    | .error violation => (s, some violation)
    | .ok f => offerAll eval reopening policy (s.offer reopening child f) rest

/-- The first of the next `entries` entries that is not replaced, with the value it waits with and
the frontier after it. -/
def popLive? (opened : Std.HashMap σ (OpenEntry κ)) :
    (entries : Nat) → Frontier (Ranked κ) (Placed σ α κ) →
      Option (Placed σ α κ × κ × Frontier (Ranked κ) (Placed σ α κ))
  | 0, _ => none
  | entries + 1, frontier =>
    match frontier.pop? κ with
    | none => none
    | some (here, frontier) =>
      match opened.get? here.node.state with
      | some entry =>
        if entry.node = here.id then some (here, entry.f, frontier)
        else popLive? opened entries frontier
      | none => popLive? opened entries frontier

/-- Expands the waiting nodes in the order of their values until one is a goal, with `left`
expansions to go. -/
def loop (P : Problem σ α κ) (eval : Evaluation σ α κ) (reopening : Reopening)
    (policy : TimedPolicy) (algorithm : String) : (left : Nat) → BestFirst σ α κ → Result σ α κ
  | left, ⟨run, frontier, opened, closed⟩ =>
    let run := run.noteHighWater frontier.highWater
    if opened.isEmpty then run.finish algorithm run.exhausted
    else match left with
    | 0 => run.finish algorithm .expansionBudgetExceeded
    | left + 1 =>
      if policy.timeIsUp run.stats.expansions then
        run.finish algorithm .timeBudgetExceeded
      else match popLive? opened (frontier.size κ) frontier with
      | none => run.finish algorithm run.exhausted
      | some (here, f, frontier) =>
        let opened := opened.erase here.node.state
        if P.isGoal here.node.state then run.finish algorithm (.goalReached here.id)
        else
          let closed := closed.insert here.node.state here.node.cost
          match run.expand P here f with
          | (run, .error violation) => run.finish algorithm (.contractViolation violation)
          | (run, .ok children) =>
            match offerAll eval reopening policy ⟨run, frontier, opened, closed⟩ children with
            | (s, some violation) => s.run.finish algorithm (.contractViolation violation)
            | (s, none) => loop P eval reopening policy algorithm left s

end BestFirst

section
variable {σ α κ : Type} [Scalar κ] [BEq σ] [Hashable σ]

/-- Best-first search by an evaluation that may report a violation. -/
def bestFirst (P : Problem σ α κ) (eval : Evaluation σ α κ) (reopening : Reopening)
    (policy : TimedPolicy) (algorithm : String) : Result σ α κ :=
  let (run, root) := Run.start P policy
  match eval root.node with
  | .error violation => run.finish algorithm (.contractViolation violation)
  | .ok f =>
    let s : BestFirst σ α κ :=
      ⟨run, Frontier.empty κ, Std.HashMap.emptyWithCapacity, Std.HashMap.emptyWithCapacity⟩
    BestFirst.loop P eval reopening policy algorithm policy.maxExpansions (s.enter root f)

/-- The estimate of a node, which must be defined. -/
def estimate (P : Problem σ α κ) : Evaluation σ α κ := fun node =>
  if P.isEstimable node then .ok (P.heuristic node) else .error (.undefined node.depth)

/-- The estimate of a node, which must be a number and not negative. -/
def checkedHeuristic (P : Problem σ α κ) : Evaluation σ α κ := fun node =>
  match estimate P node with
  | .error violation => .error violation
  | .ok h =>
    if Scalar.isNaN h || Scalar.lt h 0 then .error (.negativeHeuristic node.depth h) else .ok h

/-- Best-first search by any evaluation. -/
def bestFirstGraphSearch (P : Problem σ α κ) (eval : Evaluation σ α κ) (reopening : Reopening)
    (policy : TimedPolicy) : Result σ α κ :=
  bestFirst P eval reopening policy "best_first_graph_search"

/-- Expands the cheapest path first. -/
def uniformCostSearch (P : Problem σ α κ) (policy : TimedPolicy) : Result σ α κ :=
  bestFirst P (fun node => .ok node.cost) .never policy "uniform_cost_search"

/-- Expands the node that seems nearest to a goal first. -/
def greedyBestFirstSearch (P : Problem σ α κ) (policy : TimedPolicy) : Result σ α κ :=
  bestFirst P (checkedHeuristic P) .never policy "greedy_best_first_graph_search"

/-- Expands the node on the path that seems cheapest in all first. -/
def astarSearch (P : Problem σ α κ) (policy : TimedPolicy) : Result σ α κ :=
  bestFirst P (fun node => (checkedHeuristic P node).map (node.cost + ·)) .onCheaperPath policy
    "astar_search"

end

end ProblemSolving
