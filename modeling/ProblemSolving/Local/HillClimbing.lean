import ProblemSolving.Local.Landscape
import ProblemSolving.Number.Scalar

/-!
# Hill climbing

* `Landscape.steepest?` : the first neighbour of the highest value.
* `hillClimbing` : moves there as long as the value rises.
-/

namespace ProblemSolving

/-- How long a climb may be. -/
structure ClimbConfig where
  maxSteps : Nat := 10000
deriving DecidableEq

variable {σ α κ : Type} [Scalar κ]

/-- The better of a leader and a challenger; the leader keeps its place unless it is beaten. -/
def better (best : Option (σ × κ)) (next : σ) (value : κ) : Option (σ × κ) :=
  match best with
  | some (_, bestValue) => if Scalar.lt bestValue value then some (next, value) else best
  | none => some (next, value)

/-- The first neighbour whose value no later one beats, with its value. -/
def Landscape.steepest? (L : Landscape σ α κ) (state : σ) : Option (σ × κ) :=
  (L.moves state).foldl
    (fun best move => let next := L.apply state move; better best next (L.value next)) none

/-- Climbs from a state of a known value, at most `left` more steps. -/
def Landscape.climb (L : Landscape σ α κ) :
    (left steps : Nat) → (state : σ) → (value : κ) → LocalOutcome σ κ
  | 0, steps, state, value => ⟨state, value, steps, .stepBudgetExceeded⟩
  | left + 1, steps, state, value =>
    match L.steepest? state with
    | none => ⟨state, value, steps, .noNeighbors⟩
    | some (next, nextValue) =>
      if Scalar.le nextValue value then ⟨state, value, steps, .localMaximum⟩
      else L.climb left (steps + 1) next nextValue

/-- Climbs from the initial state. -/
def hillClimbing (L : Landscape σ α κ) (config : ClimbConfig) : LocalOutcome σ κ :=
  L.climb config.maxSteps 0 L.initial (L.value L.initial)

end ProblemSolving
