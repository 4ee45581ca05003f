import ProblemSolving.StateSpace.Problem

/-!
# Missionaries and cannibals

Everyone starts on the left bank with the boat. Cannibals must not outnumber the missionaries on a
bank where there are any.

* `Bank`, `RiverState` : who stands where.
* `Crossing` : who is in the boat.
* `RiverState.cross` : what comes of a crossing.
* `River.problem` : the search for a way to bring everyone to the right bank.
-/

namespace ProblemSolving

inductive Side where
  | left
  | right
deriving DecidableEq, Hashable

def Side.other : Side → Side
  | left => right
  | right => left

/-- The people on a bank. -/
structure Bank where
  missionaries : Nat
  cannibals : Nat
deriving DecidableEq, Hashable

/-- Whether the missionaries of a bank are safe. -/
def Bank.isSafe (b : Bank) : Bool := b.missionaries = 0 || b.cannibals ≤ b.missionaries

/-- The most people of one kind that a bank has room for. -/
def bankRoom : Nat := 255

/-- The people on both banks, and where the boat is. -/
structure RiverState where
  left : Bank
  right : Bank
  boat : Side
deriving DecidableEq, Hashable

/-- The people in the boat. -/
structure Crossing where
  missionaries : Nat
  cannibals : Nat
deriving DecidableEq

/-- What comes of a crossing. -/
inductive Landing where
  /-- The bank does not have the people. -/
  | impossible
  /-- The other bank does not have the room. -/
  | overfull
  | landed (state : RiverState)

def Landing.isOverfull : Landing → Bool
  | overfull => true
  | _ => false

/-- Whether everyone is safe after the crossing, which must have taken place. -/
def Landing.isSafe : Landing → Bool
  | landed next => next.left.isSafe && next.right.isSafe
  | _ => false

namespace RiverState

def isSafe (s : RiverState) : Bool := s.left.isSafe && s.right.isSafe

/-- The bank at a side. -/
def bank (s : RiverState) : Side → Bank
  | .left => s.left
  | .right => s.right

/-- The state with given people at the side of the boat and at the other side, after the boat has
gone over. -/
def afterCrossing (s : RiverState) (here there : Bank) : RiverState :=
  match s.boat with
  | .left => ⟨here, there, .right⟩
  | .right => ⟨there, here, .left⟩

/-- Lets people cross from the bank where the boat is. -/
def cross (s : RiverState) (c : Crossing) : Landing :=
  let here := s.bank s.boat
  let there := s.bank s.boat.other
  if here.missionaries < c.missionaries || here.cannibals < c.cannibals then .impossible
  else if bankRoom < there.missionaries + c.missionaries || bankRoom < there.cannibals + c.cannibals
  then .overfull
  else .landed (s.afterCrossing
    ⟨here.missionaries - c.missionaries, here.cannibals - c.cannibals⟩
    ⟨there.missionaries + c.missionaries, there.cannibals + c.cannibals⟩)

/-- The state after a crossing, which an impossible one leaves as it is. -/
def cross? (s : RiverState) (c : Crossing) : Option RiverState :=
  match s.cross c with
  | .impossible => some s
  | .overfull => none
  | .landed next => some next

end RiverState

/-- How many of each kind there are, and how many people the boat carries. -/
structure River where
  party : Nat := 3
  boatCapacity : Nat := 2

namespace River

def initial (r : River) : RiverState := ⟨⟨r.party, r.party⟩, ⟨0, 0⟩, .left⟩

/-- Everyone and the boat are on the right bank. -/
def isGoal (r : River) (s : RiverState) : Bool :=
  s = ⟨⟨0, 0⟩, ⟨r.party, r.party⟩, .right⟩

/-- The crossings that fit in the boat and are not empty, fewer missionaries first. -/
def boatloads (r : River) : List Crossing :=
  (List.range (r.boatCapacity + 1)).flatMap fun missionaries =>
    ((List.range (r.boatCapacity - missionaries + 1)).map fun cannibals =>
      (⟨missionaries, cannibals⟩ : Crossing)).filter fun c => c.missionaries + c.cannibals != 0

/-- The crossings after which everyone is safe, unless one of those to consider is overfull. -/
def crossings? (r : River) (s : RiverState) : Option (List Crossing) :=
  if r.boatloads.any (fun c => (s.cross c).isOverfull) then none
  else some (r.boatloads.filter fun c => (s.cross c).isSafe)

/-- The search for a way over; every crossing costs one. -/
def problem {κ : Type} [Scalar κ] (r : River) : Problem RiverState Crossing κ where
  initial := r.initial
  actions s := (r.crossings? s).getD []
  result s c := (s.cross? c).getD s
  isGoal := r.isGoal
  pathCost := Problem.unitCost
  heuristic := Problem.noEstimate
  isDefined s := (r.crossings? s).isSome

end River

end ProblemSolving
