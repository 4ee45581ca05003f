import ProblemSolving.Constraint.Outcome
import ProblemSolving.Random.Source

/-!
# Repair by least conflicts

A complete assignment is repaired one variable at a time.

* `RepairConfig` : the budget, and when to start anew.
* `leastConflictPlace` : a place of a variable with the fewest conflicts.
* `greedyStart` : a first assignment.
* `minConflicts` : the repair.
-/

namespace ProblemSolving

/-- How a repair runs. -/
structure RepairConfig where
  maxSteps : Nat := 100000
  /-- After how many steps without progress a new start is made, if ever. -/
  restartAfter : Option Nat := some 100
deriving DecidableEq

/-- A repair at work. -/
structure Repair where
  current : Array (Option Nat)
  /-- The fewest variables in conflict since the start, if any were counted. -/
  fewest : Option Nat
  /-- The steps since that number fell. -/
  stalled : Nat
  restarts : Nat

section
variable {ν ρ : Type} [RandomSource ρ] (m : Model ν)

/-- The places of a variable with the fewest conflicts. -/
def leastConflictPlaces (current : Array (Option Nat)) (v : Nat) : List Nat :=
  let places := List.range (m.domain v).size
  let counts := places.map (m.conflictsAt current v)
  let fewest := counts.min?.getD 0
  (counts.zipIdx.filter fun (count, _) => count == fewest).map (·.2)

/-- One of the places with the fewest conflicts, every one equally likely. -/
def leastConflictPlace (current : Array (Option Nat)) (v : Nat) : Draw ρ Nat := do
  return (← Draw.choose (leastConflictPlaces m current v)).getD 0

/-- Whether the places with the fewest conflicts are defined. -/
def canPlace (current : Array (Option Nat)) (v : Nat) : Bool :=
  m.canCountAll current v (List.range (m.domain v).size)

/-- Gives each variable of a list a place with the fewest conflicts with those before it, if those
are defined. -/
def assignGreedily : (vs : List Nat) → Array (Option Nat) → Draw ρ (Option (Array (Option Nat)))
  | [], current => return some current
  | v :: rest, current =>
    if !canPlace m current v then return none
    else do
      let ix ← leastConflictPlace m current v
      assignGreedily rest (current.setIfInBounds v (some ix))

/-- A complete assignment, made one variable after the other. -/
def greedyStart : Draw ρ (Option (Array (Option Nat))) :=
  assignGreedily m (List.range m.size) (Array.replicate m.size none)

/-- The variables in conflict. -/
def conflicted (current : Array (Option Nat)) : List Nat :=
  (List.range m.size).filter fun v =>
    match current[v]? with
    | some (some ix) => m.conflictsAt current v ix != 0
    | _ => false

/-- Whether it is defined which variables are in conflict. -/
def canJudge (current : Array (Option Nat)) : Bool :=
  (List.range m.size).all fun v =>
    match current[v]? with
    | some (some ix) => m.canCount current v ix
    | _ => true

/-- What a repair does with a variable in conflict: the state for the next step, or none if a new
start is to be made. -/
def Repair.progress? (config : RepairConfig) (s : Repair) (inConflict : Nat) : Option Repair :=
  if s.fewest.all (inConflict < ·) then some { s with fewest := some inConflict, stalled := 0 }
  else if config.restartAfter.any (· ≤ s.stalled) then none
  else some s

/-- A repair after a new start. -/
def Repair.restart (s : Repair) : Draw ρ (Option Repair) := do
  return (← greedyStart m).map fun current => ⟨current, none, 0, s.restarts + 1⟩

/-- Gives a variable a place with the fewest conflicts. -/
def Repair.reassign (s : Repair) (v : Nat) : Draw ρ (Option Repair) :=
  if !canPlace m s.current v then return none
  else do
    let ix ← leastConflictPlace m s.current v
    return some
      { s with current := s.current.setIfInBounds v (some ix), stalled := s.stalled + 1 }

/-- One of the variables in conflict, every one equally likely, if it is defined which those are. -/
def chooseConflicted (current : Array (Option Nat)) : Draw ρ (Option (Option Nat)) := do
  if canJudge m current then return some (← Draw.choose (conflicted m current)) else return none

/-- Repairs until nothing is in conflict, with `left` steps to go and `step` steps made. A new
start counts no step; after it the first count of conflicts is always progress, so the second draw
of a variable is followed by a step. -/
def repair (config : RepairConfig) : (left step : Nat) → Repair → Draw ρ (SolverOutcome ν)
  | left, step, s => do
    let stats (s : Repair) : SolverStats := { assignments := step, restarts := s.restarts }
    match ← chooseConflicted m s.current with
    | none => return ⟨.undefined, stats s⟩
    | some none => return ⟨.solved (m.materialize s.current), stats s⟩
    | some (some v) =>
      match left with
      | 0 => return ⟨.budgetExceeded, stats s⟩
      | left + 1 =>
        match s.progress? config (conflicted m s.current).length with
        | some s =>
          let some next ← s.reassign m v | return ⟨.undefined, stats s⟩
          repair config left (step + 1) next
        | none =>
          let some s ← s.restart m | return ⟨.undefined, stats s⟩
          match ← chooseConflicted m s.current with
          | none => return ⟨.undefined, stats s⟩
          | some none => return ⟨.solved (m.materialize s.current), stats s⟩
          | some (some v) =>
            let s := { s with fewest := some (conflicted m s.current).length }
            let some next ← s.reassign m v | return ⟨.undefined, stats s⟩
            repair config left (step + 1) next

/-- Repairs a greedy start. A variable without values has no assignment at all. -/
def minConflicts (config : RepairConfig) : Draw ρ (SolverOutcome ν) := do
  if m.vars.any (·.domain.isEmpty) then return ⟨.unsatisfiable, {}⟩
  else
    let some current ← greedyStart m | return ⟨.undefined, {}⟩
    repair m config config.maxSteps 0 ⟨current, none, 0, 0⟩

end

end ProblemSolving
