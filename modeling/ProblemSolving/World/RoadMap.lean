import Std.Data.TreeMap
import ProblemSolving.StateSpace.Problem
import ProblemSolving.Text.Quoted
import ProblemSolving.Number.Double

/-!
# Road maps

* `RoadMap` : two-way roads with lengths, and where places are.
* `RoadMap.connect`, `RoadMap.locate` : adds a road or a location.
* `RoadMap.distance?`, `RoadMap.neighbors`, `RoadMap.straightLine?` : looks them up.
* `Route` : two places of a map.
* `Route.problem` : the search for a shortest way.
* `romania` : a map of twenty towns.
-/

namespace ProblemSolving

/-- Two-way roads with lengths, and the locations of places. Names are in ascending order. -/
structure RoadMap (κ : Type) where
  roads : Std.TreeMap String (Std.TreeMap String κ)
  locations : Std.TreeMap String (κ × κ)

namespace RoadMap

variable {κ : Type}

def empty : RoadMap κ := ⟨∅, ∅⟩

/-- The roads with one more, in one direction. -/
def addRoad (roads : Std.TreeMap String (Std.TreeMap String κ)) (a b : String) (length : κ) :
    Std.TreeMap String (Std.TreeMap String κ) :=
  roads.insert a ((roads.getD a ∅).insert b length)

/-- Adds a road of a length in both directions, in place of an earlier one. -/
def connect (m : RoadMap κ) (a b : String) (length : κ) : RoadMap κ :=
  { m with roads := addRoad (addRoad m.roads a b length) b a length }

/-- Notes where a place is. -/
def locate (m : RoadMap κ) (name : String) (x y : κ) : RoadMap κ :=
  { m with locations := m.locations.insert name (x, y) }

/-- Whether a place has a road. -/
def contains (m : RoadMap κ) (name : String) : Bool := m.roads.contains name

/-- The places with roads. -/
def names (m : RoadMap κ) : List String := m.roads.keys

/-- The places at the other ends of a place's roads, with the lengths. -/
def neighbors (m : RoadMap κ) (name : String) : List (String × κ) :=
  (m.roads.getD name ∅).toList

/-- The length of the road between two places. -/
def distance? (m : RoadMap κ) (a b : String) : Option κ :=
  (m.roads.get? a).bind fun ends => ends.get? b

/-- The straight distance of two located places. -/
def straightLine? (m : RoadMap Double) (a b : String) : Option Double := do
  let p ← m.locations.get? a
  let q ← m.locations.get? b
  return (p.1 - q.1).hypot (p.2 - q.2)

end RoadMap

/-- A place that a map does not have. -/
structure UnknownPlace where
  name : String

/-- The sentence that reports an unknown place. -/
def UnknownPlace.message (e : UnknownPlace) : String := "unknown node " ++ quotedName e.name

/-- Two places of a map. -/
structure Route (κ : Type) where
  map : RoadMap κ
  start : String
  goal : String

namespace Route

variable {κ : Type}

/-- The route between two places that have roads. -/
def between (map : RoadMap κ) (start goal : String) : Except UnknownPlace (Route κ) :=
  if !map.contains start then .error ⟨start⟩
  else if !map.contains goal then .error ⟨goal⟩
  else .ok ⟨map, start, goal⟩

/-- The cost after a road; where there is none, it is infinite. -/
def roadCost [Scalar κ] (r : Route κ) (cost : κ) (a b : String) : κ :=
  cost + (r.map.distance? a b).getD Scalar.infinity

/-- The search for a shortest way, guided by any estimate. -/
def problem [Scalar κ] (r : Route κ) (estimate : String → κ) : Problem String String κ where
  initial := r.start
  actions name := (r.map.neighbors name).map (·.1)
  result _ next := next
  isGoal name := name = r.goal
  pathCost cost here _ next := r.roadCost cost here next
  heuristic node := estimate node.state

/-- The search that is guided by the straight distance to the goal, where it is known. -/
def straightProblem (r : Route Double) : Problem String String Double :=
  r.problem fun name => (r.map.straightLine? name r.goal).getD 0

end Route

/-! ## Romania -/

def romanianRoads : List (String × String × Nat) := [
  ("arad", "zerind", 75), ("arad", "sibiu", 140), ("arad", "timisoara", 118),
  ("bucharest", "urziceni", 85), ("bucharest", "pitesti", 101), ("bucharest", "giurgiu", 90),
  ("bucharest", "fagaras", 211), ("craiova", "dobreta", 120), ("craiova", "rimnicuvilcea", 146),
  ("craiova", "pitesti", 138), ("dobreta", "mehadia", 75), ("eforie", "hirsova", 86),
  ("fagaras", "sibiu", 99), ("hirsova", "urziceni", 98), ("iasi", "vaslui", 92),
  ("iasi", "neamt", 87), ("lugoj", "timisoara", 111), ("lugoj", "mehadia", 70),
  ("oradea", "zerind", 71), ("oradea", "sibiu", 151), ("pitesti", "rimnicuvilcea", 97),
  ("rimnicuvilcea", "sibiu", 80), ("urziceni", "vaslui", 142)]

def romanianTowns : List (String × Nat × Nat) := [
  ("arad", 91, 492), ("bucharest", 400, 327), ("craiova", 253, 288), ("dobreta", 165, 299),
  ("eforie", 562, 293), ("fagaras", 305, 449), ("giurgiu", 375, 270), ("hirsova", 534, 350),
  ("iasi", 473, 506), ("lugoj", 165, 379), ("mehadia", 168, 339), ("neamt", 406, 537),
  ("oradea", 131, 571), ("pitesti", 320, 368), ("rimnicuvilcea", 233, 410), ("sibiu", 207, 457),
  ("timisoara", 94, 410), ("urziceni", 456, 350), ("vaslui", 509, 444), ("zerind", 108, 531)]

/-- The roads and towns of Romania. -/
def romania {κ : Type} [Scalar κ] : RoadMap κ :=
  let roads := romanianRoads.foldl
    (fun m (a, b, length) => m.connect a b (Scalar.ofNat length)) RoadMap.empty
  romanianTowns.foldl (fun m (town, x, y) => m.locate town (Scalar.ofNat x) (Scalar.ofNat y)) roads

end ProblemSolving
