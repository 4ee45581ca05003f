import ProblemSolving.Local.Genetic
import ProblemSolving.Local.Landscape
import ProblemSolving.Number.Scalar

/-!
# Queens on a board

A board lists the row of the queen in each column. The value to maximize is the number of pairs
that do not attack each other.

* `Queens` : the size of the board and a first board.
* `Queens.conflicts` : the number of attacking pairs.
* `Queens.peacefulPairs?` : the number of other pairs.
* `Queens.landscape`, `Queens.breed` : the puzzle for local and for genetic search.
* `randomBoards` : boards with every queen in a random row.
-/

namespace ProblemSolving

/-- A size, and the board to start from. -/
structure Queens where
  size : Nat
  initial : List Nat

/-- Puts the queen of a column in a row. -/
structure Relocation where
  column : Nat
  row : Nat

namespace Queens

/-- All queens in the first row. -/
def ofSize (size : Nat) : Queens := ⟨size, List.replicate size 0⟩

/-- The board to start from decides the size. -/
def ofRows (rows : List Nat) : Queens := ⟨rows.length, rows⟩

/-- The number of pairs of queens on a full board. -/
def pairs (q : Queens) : Nat := q.size * (q.size - 1) / 2

/-- Whether queens attack each other whose columns are `gap` apart. -/
def attacks (gap row other : Nat) : Bool :=
  row == other || (row - other) + (other - row) == gap

/-- How many of the queens attack one that stands `gap` columns before the first of them. -/
def attackers (row : Nat) : (gap : Nat) → (rows : List Nat) → Nat
  | _, [] => 0
  | gap, other :: rest => (if attacks gap row other then 1 else 0) + attackers row (gap + 1) rest

/-- The number of pairs of queens that attack each other. -/
def conflicts : List Nat → Nat
  | [] => 0
  | row :: rest => attackers row 1 rest + conflicts rest

/-- Every column has a queen, and none attacks another. -/
def isSolution (q : Queens) (rows : List Nat) : Bool :=
  rows.length == q.size && conflicts rows == 0

/-- The number of pairs that do not attack each other. A board with more queens than columns may
have more attacks than there are pairs, and then has no such number. -/
def peacefulPairs? (q : Queens) (rows : List Nat) : Option Nat :=
  if conflicts rows ≤ q.pairs then some (q.pairs - conflicts rows) else none

/-- Every move of one queen to another row. -/
def moves (q : Queens) (rows : List Nat) : List Relocation :=
  rows.zipIdx.flatMap fun (current, column) =>
    ((List.range q.size).filter (· != current)).map fun row => ⟨column, row⟩

/-- The board after a move, if it has the column. -/
def relocate? (rows : List Nat) (m : Relocation) : Option (List Nat) :=
  if m.column < rows.length then some (rows.set m.column m.row) else none

/-- The puzzle as a landscape. -/
def landscape {κ : Type} [Scalar κ] (q : Queens) : Landscape (List Nat) Relocation κ where
  initial := q.initial
  moves := q.moves
  apply rows m := rows.set m.column m.row
  value rows := Scalar.ofNat ((q.peacefulPairs? rows).getD 0)

/-- The puzzle for genetic search: the genes are rows. -/
def breed (q : Queens) : Breed Nat where
  pool := List.range q.size
  fitness? rows := (q.peacefulPairs? rows).map Double.ofNat

end Queens

section
variable {ρ : Type} [RandomSource ρ]

/-- Numbers below `n`, `count` of them. -/
def randomRows (n : Nat) : (count : Nat) → Draw ρ (List Nat)
  | 0 => return []
  | count + 1 => do
    let row ← Draw.below64 n
    return row :: (← randomRows n count)

/-- Boards of `n` columns with every queen in a random row. -/
def randomBoards (n : Nat) : (count : Nat) → Draw ρ (List (List Nat))
  | 0 => return []
  | count + 1 => do
    let rows ← randomRows n n
    return rows :: (← randomBoards n count)

end

end ProblemSolving
