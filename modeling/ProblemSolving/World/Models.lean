import ProblemSolving.Constraint.Model

/-!
# Puzzles as constraint models

* `queensModel` : queens on a board, a variable for each column.
* `boardRows?` : the board of an assignment.
* `zebraModel` : five houses in a row, and who keeps the zebra.
-/

namespace ProblemSolving

/-! ## Queens -/

/-- Whether queens `gap` columns apart leave each other alone. -/
def peaceful (gap row other : Nat) : Bool :=
  row != other && (row - other) + (other - row) != gap

/-- Adds the variables of the columns. -/
def addColumns (n : Nat) (m : Model Nat) : Except ModelError (Model Nat) :=
  (List.range n).foldlM
    (fun m column => m.addVariable ("Q" ++ toString column) (Array.range n)) m

/-- Adds the constraints of every two columns. -/
def addPeace (n : Nat) (m : Model Nat) : Except ModelError (Model Nat) :=
  (List.range n).foldlM
    (fun m a => (List.range (n - 1 - a)).foldlM
      (fun m k => m.addConstraint a (a + 1 + k) { holds := peaceful (k + 1) }) m) m

/-- Queens on a board of `n` columns: the value of a column is the row of its queen. -/
def queensModel (n : Nat) : Except ModelError (Model Nat) := do
  addPeace n (← addColumns n .empty)

/-- The rows of an assignment of all columns. -/
def boardRows? (m : Model Nat) (a : Assignment Nat) : Option (List Nat) :=
  (List.range m.size).mapM a.get?

/-! ## The zebra -/

/-- How the houses of two attributes lie. -/
inductive HouseRelation where
  | sameHouse
  | nextTo
  /-- The first is just to the right of the second. -/
  | rightOf

/-- The greatest number that a house may have. -/
def greatestHouse : Nat := 255

/-- The relation of house numbers. Nothing is to the right of the greatest number. -/
def HouseRelation.relation : HouseRelation → Relation Nat
  | sameHouse => { holds := (· == ·) }
  | nextTo => { holds := fun x y => (x - y) + (y - x) == 1 }
  | rightOf => { holds := fun x y => x == y + 1, limits := some fun _ y => y < greatestHouse }

/-- The attributes, of which each house has one of every group. -/
def houseGroups : List (List String) := [
  ["Red", "Yellow", "Blue", "Green", "Ivory"],
  ["Dog", "Fox", "Snails", "Horse", "Zebra"],
  ["OJ", "Tea", "Coffee", "Milk", "Water"],
  ["Englishman", "Spaniard", "Norwegian", "Ukrainian", "Japanese"],
  ["Kools", "Chesterfields", "Winston", "LuckyStrike", "Parliaments"]]

/-- What is known of pairs of attributes. -/
def houseClues : List (String × HouseRelation × String) := [
  ("Englishman", .sameHouse, "Red"), ("Spaniard", .sameHouse, "Dog"),
  ("Kools", .sameHouse, "Yellow"), ("Chesterfields", .nextTo, "Fox"),
  ("Norwegian", .nextTo, "Blue"), ("Winston", .sameHouse, "Snails"),
  ("LuckyStrike", .sameHouse, "OJ"), ("Ukrainian", .sameHouse, "Tea"),
  ("Japanese", .sameHouse, "Parliaments"), ("Kools", .nextTo, "Horse"),
  ("Coffee", .sameHouse, "Green"), ("Green", .rightOf, "Ivory")]

/-- The houses that an attribute may belong to. -/
def housesOf (name : String) : Array Nat :=
  if name = "Norwegian" then #[1] else if name = "Milk" then #[3] else #[1, 2, 3, 4, 5]

/-- Adds a group of attributes, each of another house. -/
def addGroup (m : Model Nat) (group : List String) : Except ModelError (Model Nat) := do
  let extended ← group.foldlM (fun m name => m.addVariable name (housesOf name)) m
  let ids ← group.mapM extended.require
  match extended.addAllDifferent ids with
  | (m, .ok ()) => .ok m
  | (_, .error e) => .error e

/-- Adds a clue. -/
def addClue (m : Model Nat) (clue : String × HouseRelation × String) :
    Except ModelError (Model Nat) := do
  m.addConstraint (← m.require clue.1) (← m.require clue.2.2) clue.2.1.relation

/-- Five houses in a row: the value of an attribute is the number of its house. -/
def zebraModel : Except ModelError (Model Nat) := do
  houseClues.foldlM addClue (← houseGroups.foldlM addGroup .empty)

end ProblemSolving
