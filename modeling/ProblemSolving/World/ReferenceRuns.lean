import ProblemSolving.Constraint.MinConflicts
import ProblemSolving.Random.ChaCha
import ProblemSolving.Search.Strategies
import ProblemSolving.Search.TraceText
import ProblemSolving.World.Models
import ProblemSolving.World.Queens
import ProblemSolving.World.River
import ProblemSolving.World.RoadMap
import ProblemSolving.World.SlidingPuzzle
import ProblemSolving.Local.Annealing

/-!
# Reference runs

A fixed set of runs with fixed seeds. Whoever gets the same lines makes the same decisions.

* `referenceLines` : one line for each run.
* `ReferenceFailure` : why there are no lines.
* `randomPriorities` : priorities by which frontiers are compared.
-/

namespace ProblemSolving

/-- The board on which the reference puzzles end. -/
def orderedBoard : String := "012345678"

/-- The puzzle that ends on the ordered board, with an estimate. -/
def puzzleToOrder (board : String) (heuristic : PuzzleHeuristic) :
    Except InvalidBoard SlidingPuzzle :=
  (SlidingPuzzle.parse board orderedBoard).map fun p => { p with heuristic }

/-- Numbers below 64, `n` of them, from the stream whose seed is `n`. -/
def randomPriorities (n : Nat) : List Nat :=
  ((List.range n).mapM fun _ => (Draw.below32 64 : Draw ChaCha Nat)).run (.ofSeed (.ofNat n)) |>.1

/-- Why there are no reference lines. -/
inductive ReferenceFailure where
  | place (e : UnknownPlace)
  | board (e : InvalidBoard)
  | model (e : ModelError)
  | schedule (e : CoolingFault Double)
  | breeding (e : GeneticFailure)
  /-- The sentence says which run kept no trace. -/
  | untraced (sentence : String)

/-- The sentence that reports why a genetic search has no outcome. -/
def GeneticFailure.message : GeneticFailure → String
  | rejected reason => reason.message
  | undefinedFitness => "a genome has no fitness"
  | infiniteTotal => "the weights of a population add up to infinity"

/-- The sentence that reports a failure. -/
def ReferenceFailure.message : ReferenceFailure → String
  | place e => "world construction failed: " ++ e.message
  | board e => "world construction failed: " ++ e.message
  | model e => "model construction failed: " ++ e.message
  | schedule e => "solver rejected its input: " ++ e.message
  | breeding e => "solver rejected its input: " ++ e.message
  | untraced sentence => sentence

/-- Searches that keep a trace. -/
def tracingPolicy : Policy := { recordTrace := true }

/-- The stream of the seeded reference runs. -/
def referenceStream : ChaCha := .ofSeed 2024

/-- A value that may be missing, as the lines show it. -/
def shown : Option String → String
  | none => "None"
  | some text => "Some(" ++ text ++ ")"

/-- Rows of a board, as the lines show them. -/
def shownRows (rows : List Nat) : String := listed (rows.map toString)

/-- The line with the digest of a traced search. -/
def digestLine {σ α : Type} (run : String) (r : Result σ α Double) :
    Except ReferenceFailure String :=
  match r.digest run with
  | .ok digest => .ok (run ++ "_digest=" ++ digest)
  | .error sentence => .error (.untraced sentence)

/-- The digest and the cost of a way from Arad to Bucharest. -/
def romaniaLines : Except ReferenceFailure (List String) := do
  let route ← (Route.between romania "arad" "bucharest").mapError .place
  let r := astarSearch route.straightProblem tracingPolicy
  return [← digestLine "romania_astar" r,
    "romania_astar_cost=" ++ shown (r.pathCost?.map (Double.text Json.numberLayout))]

/-- The digest of a short puzzle. -/
def puzzleLine : Except ReferenceFailure String := do
  let puzzle ← (puzzleToOrder "125340678" .manhattan).mapError .board
  digestLine "puzzle_astar" (astarSearch puzzle.problem tracingPolicy)

/-- The digest of a crossing. -/
def riverLine : Except ReferenceFailure String :=
  let river : River := {}
  digestLine "missionaries_bfs" (breadthFirstGraphSearch river.problem tracingPolicy)

/-- The board on which annealing ends. -/
def annealingLine : Except ReferenceFailure String := do
  let outcome ← ((simulatedAnnealing (Queens.ofSize 8).landscape { schedule := .standard }).run
    referenceStream).1.mapError .schedule
  return "queens_annealing_state=" ++ shownRows outcome.state

/-- The best board of fifty generations. -/
def geneticLine : Except ReferenceFailure String := do
  let breeding : Draw ChaCha (Except GeneticFailure (GeneticOutcome Nat)) := do
    geneticSearch (Queens.ofSize 8).breed (← randomBoards 8 20) { generations := 50 }
  let outcome ← (breeding.run referenceStream).1.mapError .breeding
  return "queens_genetic_best=" ++ shownRows outcome.best.genes

/-- The board on which a repair ends. -/
def repairLine : Except ReferenceFailure String := do
  let model ← (queensModel 8).mapError .model
  let outcome := ((minConflicts model {}).run referenceStream).1
  return "queens_min_conflicts="
    ++ shown ((outcome.assignment?.bind (boardRows? model)).map shownRows)

/-- A line for each reference run. -/
def referenceLines : Except ReferenceFailure (List String) := do
  return (← romaniaLines) ++ [← puzzleLine, ← riverLine, ← annealingLine, ← geneticLine,
    ← repairLine]

end ProblemSolving
