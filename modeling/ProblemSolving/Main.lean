import ProblemSolving.World.ReferenceRuns

/-!
# The command

Prints the reference lines.
-/

open ProblemSolving in
def main : IO UInt32 := do
  match referenceLines with
  | .ok lines =>
    lines.forM (IO.println ·)
    return 0
  | .error e =>
    IO.eprintln ("search_fixture: " ++ e.message)
    return 1
