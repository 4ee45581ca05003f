import ProblemSolving.Local.Landscape
import ProblemSolving.Number.Decimal
import ProblemSolving.Random.Source
import ProblemSolving.Search.Policy

/-!
# Simulated annealing

* `Cooling` : a temperature that falls exponentially and drops to zero at a limit.
* `Cooling.fault?` : what is wrong with one.
* `AnnealConfig`, `TimedAnnealing` : the settings of a run, and its clock.
* `anneal` : the search, over any exponential function.
* `simulatedAnnealing` : with the one of doubles.
-/

namespace ProblemSolving

/-- The temperature `k * exp (-lambda * t)` for ticks `t` below the limit, and zero from there
on. -/
structure Cooling (κ : Type) where
  k : κ
  lambda : κ
  limit : Nat

/-- What is wrong with a schedule. -/
inductive CoolingFault (κ : Type) where
  | start (k : κ)
  | rate (lambda : κ)

/-- The sentence that reports a faulty schedule. -/
def CoolingFault.message : CoolingFault Double → String
  | .start k =>
    "invalid annealing schedule: k must be positive and finite, got " ++ k.text Double.sentence
  | .rate lambda =>
    "invalid annealing schedule: lambda must be non-negative and finite, got "
      ++ lambda.text Double.sentence

namespace Cooling

variable {κ : Type} [Scalar κ]

def temperature (exp : κ → κ) (c : Cooling κ) (t : Nat) : κ :=
  if t < c.limit then c.k * exp (-c.lambda * Scalar.ofNat t) else 0

/-- A schedule starts at a positive finite temperature and does not heat up. -/
def fault? (c : Cooling κ) : Option (CoolingFault κ) :=
  if !(Scalar.isFinite c.k && Scalar.lt 0 c.k) then some (.start c.k)
  else if !(Scalar.isFinite c.lambda && Scalar.le 0 c.lambda) then some (.rate c.lambda)
  else none

/-- The schedule that is used unless another is given. -/
def standard : Cooling Double := ⟨.ofNat 20, .ofDecimal false 5 (-3), 100⟩

end Cooling

/-- An annealing run: its schedule, and the longest time it may take. -/
structure AnnealConfig (κ : Type) where
  schedule : Cooling κ
  timeLimit : Option Duration := none

/-- An annealing run, with the clock that it reads at its ticks. -/
structure TimedAnnealing (κ : Type) extends AnnealConfig κ where
  clock : Clock := .still

/-- An annealing run on its own takes no time. -/
instance {κ : Type} : Coe (AnnealConfig κ) (TimedAnnealing κ) := ⟨fun config => { config with }⟩

/-- Whether the time of an annealing run is up at a tick. -/
def TimedAnnealing.timeIsUp {κ : Type} (config : TimedAnnealing κ) (t : Nat) : Bool :=
  config.clock.expired config.timeLimit t

section
variable {σ α κ ρ : Type} [Scalar κ] [RandomSource ρ]

/-- Whether a change of value is accepted: a gain always, anything else with a probability that
falls with the loss and rises with the temperature. Only the second draws. -/
def accepts (exp : κ → κ) (change temperature : κ) : Draw ρ Bool := do
  if Scalar.lt 0 change then return true
  else return Scalar.lt (← Draw.unit) (exp (change / temperature))

/-- Anneals from tick `t` on, with `left` ticks until the limit. -/
def annealFrom (exp : κ → κ) (L : Landscape σ α κ) (config : TimedAnnealing κ) :
    (left t : Nat) → (state : σ) → (value : κ) → Draw ρ (LocalOutcome σ κ)
  | 0, t, state, value => return ⟨state, value, t, .scheduleExhausted⟩
  | left + 1, t, state, value => do
    let temperature := config.schedule.temperature exp t
    if Scalar.le temperature 0 then return ⟨state, value, t, .scheduleExhausted⟩
    else if config.timeIsUp t then return ⟨state, value, t, .timeBudgetExceeded⟩
    else match ← Draw.choose (L.moves state) with
    | none => return ⟨state, value, t, .noNeighbors⟩
    | some move =>
      let next := L.apply state move
      let nextValue := L.value next
      if ← accepts exp (nextValue - value) temperature then
        annealFrom exp L config left (t + 1) next nextValue
      else annealFrom exp L config left (t + 1) state value

/-- Anneals from the initial state, if the schedule has no fault. -/
def anneal (exp : κ → κ) (L : Landscape σ α κ) (config : TimedAnnealing κ) :
    Draw ρ (Except (CoolingFault κ) (LocalOutcome σ κ)) :=
  match config.schedule.fault? with
  | some fault => return .error fault
  | none => do
    return .ok (← annealFrom exp L config config.schedule.limit 0 L.initial (L.value L.initial))

end

/-- Annealing with the exponential function of doubles. -/
def simulatedAnnealing {σ α ρ : Type} [RandomSource ρ] (L : Landscape σ α Double)
    (config : TimedAnnealing Double) :
    Draw ρ (Except (CoolingFault Double) (LocalOutcome σ Double)) :=
  anneal Double.exp L config

end ProblemSolving
