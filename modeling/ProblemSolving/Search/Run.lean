import ProblemSolving.Search.Outcome
import ProblemSolving.Search.Policy

/-!
# Runs

What every search carries along while it works.

* `Run` : the tree, the counts, and the record so far.
* `Run.expand` : one expansion, counted and recorded.
* `Run.finish` : the outcome.
-/

namespace ProblemSolving

/-- A search at work. -/
structure Run (σ α κ : Type) where
  tree : SearchTree σ α κ
  stats : Stats
  /-- The expansions so far, latest last, if they are recorded. -/
  log : Option (Array (ExpandEvent κ))

/-- How a search may be stopped by its policy after a number of expansions. -/
def TimedPolicy.stop? {κ : Type} (policy : TimedPolicy) (expansions : Nat) :
    Option (Termination κ) :=
  if policy.maxExpansions ≤ expansions then some .expansionBudgetExceeded
  else if policy.timeIsUp expansions then some .timeBudgetExceeded
  else none

namespace Run

variable {σ α κ : Type} [Scalar κ]

/-- A run before its first node. -/
def empty (policy : TimedPolicy) : Run σ α κ :=
  ⟨.empty, {}, if policy.recordTrace then some #[] else none⟩

/-- The run with another tree. -/
def withTree (run : Run σ α κ) (tree : SearchTree σ α κ) : Run σ α κ := { run with tree }

/-- A run with the root, and the root. -/
def start (P : Problem σ α κ) (policy : TimedPolicy) : Run σ α κ × Placed σ α κ :=
  let (tree, root) := SearchTree.empty.addRoot P.initial
  ((empty policy).withTree tree, root)

/-- The run after an expansion with these children. -/
def record (parent : Placed σ α κ) (f : κ) (children : List (Placed σ α κ)) :
    Run σ α κ → Run σ α κ
  | ⟨tree, stats, log⟩ =>
    { tree
      stats := { stats with
        expansions := stats.expansions + 1
        generated := stats.generated + children.length }
      log := log.map fun events =>
        events.push ⟨events.size, parent.id, parent.node.depth, f, children.map (·.id)⟩ }

/-- Expands a node that was chosen by the value `f`. A violation leaves the counts alone. -/
def expand (P : Problem σ α κ) :
    Run σ α κ → (parent : Placed σ α κ) → (f : κ) →
      Run σ α κ × Except (Violation κ) (List (Placed σ α κ))
  | ⟨tree, stats, log⟩, parent, f =>
    match tree.expand P parent with
    | (tree, .error violation) => (⟨tree, stats, log⟩, .error violation)
    | (tree, .ok children) => (record parent f children ⟨tree, stats, log⟩, .ok children)

/-- The run without the nodes from a number on. -/
def truncate (size : Nat) : Run σ α κ → Run σ α κ
  | ⟨tree, stats, log⟩ => ⟨tree.truncate size, stats, log⟩

/-- Notes how many nodes wait. -/
def noteHighWater (run : Run σ α κ) (size : Nat) : Run σ α κ :=
  { run with stats := { run.stats with highWater := max run.stats.highWater size } }

/-- How a search ends when nothing waits: nodes that were left out for their depth are a budget
stop. -/
def exhausted (run : Run σ α κ) : Termination κ :=
  if 0 < run.stats.depthSkipped then .depthBudgetExceeded else .frontierExhausted

/-- The outcome of the run. -/
def finish (run : Run σ α κ) (algorithm : String) (termination : Termination κ) : Result σ α κ :=
  ⟨termination, run.tree, run.stats,
    run.log.map fun events => ⟨algorithm, events.toList, some termination.label⟩⟩

end Run

end ProblemSolving
