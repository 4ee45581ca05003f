import ProblemSolving.StateSpace.Problem
import ProblemSolving.Text.Quoted

/-!
# The sliding puzzle of eight tiles

* `Board` : nine squares, row by row, with zero for the blank.
* `Board.slide?` : a move of the blank.
* `Board.parse` : the board of nine digits.
* `SlidingPuzzle` : a start and a goal that can be reached from it.
* `SlidingPuzzle.problem` : the search for the goal.
-/

namespace ProblemSolving

/-- The squares of a board, row by row; zero is the blank. -/
structure Board where
  squares : Vector Nat 9
deriving DecidableEq

instance : Hashable Board := ⟨fun b => hash b.squares.toArray⟩

/-- The direction in which the blank travels. -/
inductive Move where
  | up
  | down
  | left
  | right
deriving DecidableEq

def Move.name : Move → String
  | up => "Up"
  | down => "Down"
  | left => "Left"
  | right => "Right"

namespace Board

/-- The square of a tile. -/
def find? (b : Board) (tile : Nat) : Option (Fin 9) := b.squares.finIdxOf? tile

/-- The square of the blank; a board without one acts as if it were the first square. -/
def blank (b : Board) : Fin 9 := (b.find? 0).getD 0

/-- The moves that stay on the board. -/
def moves (b : Board) : List Move :=
  let square := b.blank.val
  (if square > 2 then [.up] else []) ++ (if square < 6 then [.down] else [])
    ++ (if square % 3 > 0 then [.left] else []) ++ (if square % 3 < 2 then [.right] else [])

/-- The square that is `offset` squares after another, if it is on the board. -/
def squareAt? (square : Fin 9) (offset : Int) : Option (Fin 9) :=
  let target := (square.val : Int) + offset
  if h : 0 ≤ target ∧ target < 9 then some ⟨target.toNat, by omega⟩ else none

/-- How many squares ahead a move takes the blank. -/
def offset : Move → Int
  | .up => -3
  | .down => 3
  | .left => -1
  | .right => 1

/-- The board after a move of the blank, if the target square exists. A move to the side may leave
the row; `moves` lists none that does. -/
def slide? (b : Board) (m : Move) : Option Board :=
  (squareAt? b.blank (offset m)).map fun (target : Fin 9) =>
    ⟨b.squares.swap b.blank.val target.val⟩

/-- The board after a move; a move off the board changes nothing. -/
def slide (b : Board) (m : Move) : Board := (b.slide? m).getD b

/-! ## Texts -/

/-- The board as nine characters, the tile `t` by the one with code `48 + t`; codes end at 255. -/
def render? (b : Board) : Option String :=
  (b.squares.toList.mapM fun tile => if 48 + tile ≤ 255 then some (Char.ofNat (48 + tile)) else none).map
    String.ofList

end Board

/-- What is wrong with a puzzle. -/
inductive BoardFault where
  | nonDigit
  | notNineSquares
  | tileOutOfRange
  | repeatedTile
  | unreachableGoal

def BoardFault.detail : BoardFault → String
  | nonDigit => "non-digit character"
  | notNineSquares => "expected exactly nine squares"
  | tileOutOfRange => "tile out of range 0..=8"
  | repeatedTile => "repeated tile"
  | unreachableGoal => "goal is unreachable (inversion parity differs)"

/-- A puzzle that is none, by its text. -/
structure InvalidBoard where
  text : String
  fault : BoardFault

/-- The sentence that reports an invalid puzzle. -/
def InvalidBoard.message (e : InvalidBoard) : String :=
  "invalid board " ++ quotedName e.text ++ ": " ++ e.fault.detail

namespace Board

/-- The first tile that is out of range or came before. -/
def tileFault? : (tiles seen : List Nat) → Option BoardFault
  | [], _ => none
  | tile :: rest, seen =>
    if 8 < tile then some .tileOutOfRange
    else if seen.contains tile then some .repeatedTile
    else tileFault? rest (tile :: seen)

/-- The board of nine different digits up to eight. -/
def parse (text : String) : Except InvalidBoard Board :=
  if !text.toList.all Char.isDigit then .error ⟨text, .nonDigit⟩
  else
    let tiles := text.toList.map fun c => c.toNat - '0'.toNat
    if h : tiles.length = 9 then
      match tileFault? tiles [] with
      | some fault => .error ⟨text, fault⟩
      | none => .ok ⟨⟨tiles.toArray, h⟩⟩
    else .error ⟨text, .notNineSquares⟩

/-- How many pairs stand in descending order. -/
def inversions : List Nat → Nat
  | [] => 0
  | tile :: rest => rest.countP (· < tile) + inversions rest

/-- Whether the tiles have an odd number of inversions. Every move keeps this. -/
def isOdd (b : Board) : Bool := inversions (b.squares.toList.filter (· != 0)) % 2 == 1

end Board

/-- How far a board seems from the goal. -/
inductive PuzzleHeuristic where
  | zero
  /-- Tiles that are not on their square. -/
  | misplacedTiles
  /-- Rows and columns between tiles and their squares. -/
  | manhattan
deriving DecidableEq

/-- A start, a goal, and the estimate that guides the search. -/
structure SlidingPuzzle where
  initial : Board
  goal : Board
  heuristic : PuzzleHeuristic := .manhattan

namespace SlidingPuzzle

/-- The puzzle of two texts, if its goal can be reached. -/
def parse (initial goal : String) : Except InvalidBoard SlidingPuzzle := do
  let start ← Board.parse initial
  let target ← Board.parse goal
  if start.isOdd = target.isOdd then return ⟨start, target, .manhattan⟩
  else throw ⟨initial, .unreachableGoal⟩

/-- How many tiles are not on the square where the goal has them. -/
def misplacedTiles (p : SlidingPuzzle) (b : Board) : Nat :=
  (b.squares.toList.zip p.goal.squares.toList).countP fun (tile, want) => tile != 0 && tile != want

/-- The distance of two naturals. -/
def gap (a b : Nat) : Nat := (a - b) + (b - a)

/-- The rows and columns between two squares. -/
def squareDistance (a b : Nat) : Nat := gap (a % 3) (b % 3) + gap (a / 3) (b / 3)

/-- The rows and columns between all tiles and their squares; tiles that the goal lacks add
nothing. -/
def manhattan (p : SlidingPuzzle) (b : Board) : Nat :=
  b.squares.toList.zipIdx.foldl (fun total (tile, square) =>
    if tile = 0 then total
    else match p.goal.find? tile with
      | some target => total + squareDistance square target
      | none => total) 0

/-- The estimate of the moves that are left. -/
def estimate (p : SlidingPuzzle) (b : Board) : Nat :=
  match p.heuristic with
  | .zero => 0
  | .misplacedTiles => p.misplacedTiles b
  | .manhattan => p.manhattan b

/-- The search for the goal; every move costs one. -/
def problem {κ : Type} [Scalar κ] (p : SlidingPuzzle) : Problem Board Move κ where
  initial := p.initial
  actions := Board.moves
  result := Board.slide
  isGoal b := b = p.goal
  pathCost := Problem.unitCost
  heuristic node := Scalar.ofNat (p.estimate node.state)

end SlidingPuzzle

end ProblemSolving
