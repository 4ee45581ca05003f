import ProblemSolving.Constraint.Backtracking
import ProblemSolving.Constraint.MinConflicts
import ProblemSolving.Local.Annealing
import ProblemSolving.Local.Genetic
import ProblemSolving.Local.HillClimbing
import ProblemSolving.Planning.MeansEnds
import ProblemSolving.Search.BestFirst
import ProblemSolving.Settings.Record
import ProblemSolving.World.River
import ProblemSolving.World.SlidingPuzzle

/-!
# Formats of settings

How settings and a few values are read from documents and written to them. Fields of settings may
be missing and then have their defaults; written documents have all of them, in order.

* `Format` : a reader and a writer.
* `formats` : every format by its name.
* `Format.reload` : reads a text and writes it again.
-/

namespace ProblemSolving

/-- How values of a type are read and written. -/
structure Format (α : Type) where
  read? : Json → Option α
  toJson : α → Json

namespace Format

open Record

/-- The format of a choice between names. -/
def choice {α : Type} [DecidableEq α] (choices : List (String × α)) : Format α :=
  ⟨Choice.read? choices, Choice.toJson choices⟩

/-- A duration; billionths beyond a second are carried over. -/
def duration : Format Duration where
  read? value := do
    let [secs, nanos] ← closedFields? ["secs", "nanos"] value | none
    let secs ← required nat64? secs
    let nanos ← required nat32? nanos
    let secs := secs + nanos / 1000000000
    if secs < Nat.pow 2 64 then some ⟨secs, nanos % 1000000000⟩ else none
  toJson d := .object [("secs", Json.ofNat d.secs), ("nanos", Json.ofNat d.nanos)]

def policy : Format Policy where
  read? value := do
    let [expansions, depth, time, trace] ←
      fields? ["max_expansions", "max_depth", "time_limit", "record_trace"] value | none
    let d : Policy := {}
    return {
      maxExpansions := ← orDefault d.maxExpansions nat64? expansions
      maxDepth := ← orDefault d.maxDepth nat32? depth
      timeLimit := ← orDefault d.timeLimit (optional? duration.read?) time
      recordTrace := ← orDefault d.recordTrace bool? trace }
  toJson p := .object [("max_expansions", Json.ofNat p.maxExpansions),
    ("max_depth", Json.ofNat p.maxDepth),
    ("time_limit", Json.ofOption duration.toJson p.timeLimit),
    ("record_trace", .bool p.recordTrace)]

def climb : Format ClimbConfig where
  read? value := do
    let [steps] ← fields? ["max_steps"] value | none
    let d : ClimbConfig := {}
    return { maxSteps := ← orDefault d.maxSteps nat64? steps }
  toJson c := .object [("max_steps", Json.ofNat c.maxSteps)]

def cooling : Format (Cooling Double) where
  read? value := do
    let [k, lambda, limit] ← fields? ["k", "lambda", "limit"] value | none
    let d := Cooling.standard
    return ⟨← orDefault d.k Json.double? k, ← orDefault d.lambda Json.double? lambda,
      ← orDefault d.limit nat64? limit⟩
  toJson c := .object [("k", Json.ofDouble c.k), ("lambda", Json.ofDouble c.lambda),
    ("limit", Json.ofNat c.limit)]

def annealing : Format (AnnealConfig Double) where
  read? value := do
    let [schedule, time] ← fields? ["schedule", "time_limit"] value | none
    return ⟨← orDefault Cooling.standard cooling.read? schedule,
      ← orDefault none (optional? duration.read?) time⟩
  toJson c := .object [("schedule", cooling.toJson c.schedule),
    ("time_limit", Json.ofOption duration.toJson c.timeLimit)]

def genetic : Format GeneticConfig where
  read? value := do
    let [generations, rate, target] ←
      fields? ["generations", "mutation_rate", "target_fitness"] value | none
    let d : GeneticConfig := {}
    return ⟨← orDefault d.generations nat64? generations,
      ← orDefault d.mutationRate Json.double? rate,
      ← orDefault d.targetFitness (optional? Json.double?) target⟩
  toJson c := .object [("generations", Json.ofNat c.generations),
    ("mutation_rate", Json.ofDouble c.mutationRate),
    ("target_fitness", Json.ofOption Json.ofDouble c.targetFitness)]

def localTermination : Format LocalTermination := choice [
  ("LocalMaximum", .localMaximum), ("NoNeighbors", .noNeighbors),
  ("StepBudgetExceeded", .stepBudgetExceeded), ("ScheduleExhausted", .scheduleExhausted),
  ("TimeBudgetExceeded", .timeBudgetExceeded)]

def reopening : Format Reopening :=
  choice [("Never", .never), ("OnCheaperPath", .onCheaperPath)]

def variableOrder : Format VariableOrder := choice [
  ("FirstUnassigned", .firstUnassigned), ("Mrv", .fewestValues),
  ("MrvDegree", .fewestValuesThenDegree)]

def valueOrder : Format ValueOrder :=
  choice [("DomainOrder", .domainOrder), ("LeastConstraining", .leastConstraining)]

def inference : Format Inference := choice [
  ("None", .nothing), ("ForwardChecking", .forwardChecking), ("Mac", .arcConsistency)]

def backtracking : Format BacktrackConfig where
  read? value := do
    let [order, values, inferred, budget] ←
      fields? ["variable_order", "value_order", "inference", "max_assignments"] value | none
    let d : BacktrackConfig := {}
    return ⟨← orDefault d.variableOrder variableOrder.read? order,
      ← orDefault d.valueOrder valueOrder.read? values,
      ← orDefault d.inference inference.read? inferred,
      ← orDefault d.maxAssignments (optional? nat64?) budget⟩
  toJson c := .object [("variable_order", variableOrder.toJson c.variableOrder),
    ("value_order", valueOrder.toJson c.valueOrder), ("inference", inference.toJson c.inference),
    ("max_assignments", Json.ofOption Json.ofNat c.maxAssignments)]

def repair : Format RepairConfig where
  read? value := do
    let [steps, restart] ← fields? ["max_steps", "restart_after"] value | none
    let d : RepairConfig := {}
    return ⟨← orDefault d.maxSteps nat64? steps,
      ← orDefault d.restartAfter (optional? nat64?) restart⟩
  toJson c := .object [("max_steps", Json.ofNat c.maxSteps),
    ("restart_after", Json.ofOption Json.ofNat c.restartAfter)]

def planning : Format PlanConfig where
  read? value := do
    let [depth, cycles] ← fields? ["max_depth", "detect_goal_cycles"] value | none
    let d : PlanConfig := {}
    return ⟨← orDefault d.maxDepth nat64? depth, ← orDefault d.detectGoalCycles bool? cycles⟩
  toJson c := .object [("max_depth", Json.ofNat c.maxDepth),
    ("detect_goal_cycles", .bool c.detectGoalCycles)]

/-- A list of texts. -/
def texts : Format (List String) := ⟨list? text?, Json.ofList .string⟩

def schema : Format Schema where
  read? value := do
    let [action, preconditions, add, delete] ←
      fields? ["action", "preconditions", "add", "delete"] value | none
    return ⟨← required text? action, ← required texts.read? preconditions,
      ← required texts.read? add, ← required texts.read? delete⟩
  toJson s := .object [("action", .string s.action), ("preconditions", texts.toJson s.preconditions),
    ("add", texts.toJson s.add), ("delete", texts.toJson s.delete)]

/-- A state as its list of facts, which is taken as it stands. -/
def factState : Format FactState where
  read? value := do
    let [facts] ← fields? ["facts"] value | none
    return ⟨← required texts.read? facts⟩
  toJson s := .object [("facts", texts.toJson s.facts)]

def move : Format Move :=
  choice [("Up", .up), ("Down", .down), ("Left", .left), ("Right", .right)]

def puzzleHeuristic : Format PuzzleHeuristic := choice [
  ("Zero", .zero), ("MisplacedTiles", .misplacedTiles), ("Manhattan", .manhattan)]

def side : Format Side := choice [("Left", .left), ("Right", .right)]

/-- Two head counts. -/
def counts : Format (Nat × Nat) where
  read? value := do
    let [a, b] ← list? nat8? value | none
    return (a, b)
  toJson p := .array [Json.ofNat p.1, Json.ofNat p.2]

/-- The people by kind, then by bank. -/
def riverState : Format RiverState where
  read? value := do
    let [missionaries, cannibals, boat] ←
      fields? ["missionaries", "cannibals", "boat"] value | none
    let ms ← required counts.read? missionaries
    let cs ← required counts.read? cannibals
    return ⟨⟨ms.1, cs.1⟩, ⟨ms.2, cs.2⟩, ← required side.read? boat⟩
  toJson s := .object [
    ("missionaries", counts.toJson (s.left.missionaries, s.right.missionaries)),
    ("cannibals", counts.toJson (s.left.cannibals, s.right.cannibals)),
    ("boat", side.toJson s.boat)]

def crossing : Format Crossing where
  read? value := do
    let [missionaries, cannibals] ← fields? ["missionaries", "cannibals"] value | none
    return ⟨← required nat8? missionaries, ← required nat8? cannibals⟩
  toJson c := .object [("missionaries", Json.ofNat c.missionaries),
    ("cannibals", Json.ofNat c.cannibals)]

/-- The document that a document is read and written as. -/
def rewriteJson {α : Type} (f : Format α) (value : Json) : Option Json :=
  (f.read? value).map f.toJson

/-- Every format by its name, as what it makes of a document. -/
def formats : List (String × (Json → Option Json)) := [
  ("SearchPolicy", policy.rewriteJson), ("HillClimbingConfig", climb.rewriteJson),
  ("ExpSchedule", cooling.rewriteJson), ("AnnealingConfig", annealing.rewriteJson),
  ("LocalTermination", localTermination.rewriteJson), ("GeneticConfig", genetic.rewriteJson),
  ("ReopenPolicy", reopening.rewriteJson), ("BacktrackingConfig", backtracking.rewriteJson),
  ("MinConflictsConfig", repair.rewriteJson), ("GpsConfig", planning.rewriteJson),
  ("Schema", schema.rewriteJson), ("FactState", factState.rewriteJson),
  ("Move", move.rewriteJson), ("PuzzleHeuristic", puzzleHeuristic.rewriteJson),
  ("RiverState", riverState.rewriteJson), ("Crossing", crossing.rewriteJson)]

/-- Reads a text in the format of a name and writes it again. -/
def reload (name text : String) : Option String := do
  let (_, rewrite) ← formats.find? (·.1 == name)
  return (← rewrite (← Json.parse? text)).compact

end Format

end ProblemSolving
