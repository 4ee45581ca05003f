import ProblemSolving.Json.Value
import ProblemSolving.Search.Strategies
import ProblemSolving.Text.Column

/-!
# Comparisons

* `ComparisonRow` : what one strategy did on a problem.
* `compareSearchers?` : a row for each strategy.
* `renderTable`, `rowsText` : the rows as a table and as a document.
-/

namespace ProblemSolving

/-- What one strategy did. -/
structure ComparisonRow where
  algorithm : String
  termination : String
  /-- The actions of the solution, by their names. -/
  solution : Option (List String)
  pathCost : Option Double
  expansions : Nat
  generated : Nat

/-- The row of a strategy, unless it came to something undefined; `name` is the text of an
action. -/
def Searcher.row? {σ α : Type} (name : α → String) (P : Problem σ α Double)
    (s : Searcher σ α Double) (policy : TimedPolicy) : Option ComparisonRow :=
  let r := s.search P policy
  if r.termination.isUndefined then none
  else some ⟨s.name, r.termination.label, r.solution?.map (·.map name), r.pathCost?,
    r.stats.expansions, r.stats.generated⟩

/-- Runs each strategy on the problem, with the same policy and with a clock of its own. -/
def compareSearchers? {σ α : Type} (name : α → String) (P : Problem σ α Double)
    (searchers : List (Searcher σ α Double)) (policy : Policy)
    (clock : Searcher σ α Double → Clock := fun _ => .still) : Option (List ComparisonRow) :=
  searchers.mapM fun s => s.row? name P { policy with clock := clock s }

/-- One line of the table; the first column is `width` characters wide. -/
def tableLine (width : Nat) (algorithm termination length cost expansions generated : String) :
    String :=
  "  ".intercalate [padRight width algorithm, padRight 26 termination, padLeft 6 length,
    padLeft 10 cost, padLeft 10 expansions, padLeft 9 generated] ++ "\n"

/-- The line of a row; what is missing is a dash. -/
def ComparisonRow.line (width : Nat) (r : ComparisonRow) : String :=
  tableLine width r.algorithm r.termination
    ((r.solution.map fun actions => toString actions.length).getD "-")
    ((r.pathCost.map (Double.fixed 1)).getD "-") (toString r.expansions) (toString r.generated)

/-- The rows under a heading. The first column is as wide as the longest name has bytes. -/
def renderTable (rows : List ComparisonRow) : String :=
  let width := rows.foldl (fun width r => max width r.algorithm.utf8ByteSize)
    "algorithm".utf8ByteSize
  tableLine width "algorithm" "termination" "length" "cost" "expansions" "generated"
    ++ String.join (rows.map (·.line width))

/-- The document of a row. -/
def ComparisonRow.toJson (r : ComparisonRow) : Json :=
  .object [("algorithm", .string r.algorithm), ("termination", .string r.termination),
    ("solution", Json.ofOption (Json.ofList .string) r.solution),
    ("path_cost", Json.ofOption Json.ofDouble r.pathCost),
    ("expansions", Json.ofNat r.expansions), ("generated", Json.ofNat r.generated)]

/-- The document of rows, with a line for each value. -/
def rowsText (rows : List ComparisonRow) : String := (Json.ofList ComparisonRow.toJson rows).pretty

end ProblemSolving
