import ProblemSolving.StateSpace.Problem

/-!
# Search trees

Nodes in the order of their creation, each with a link to its parent.

* `Violation` : what a problem must not do.
* `SearchTree` : the nodes.
* `SearchTree.expand` : appends the successors of a node.
* `SearchTree.path`, `SearchTree.solution`, `SearchTree.pathStates` : the way from a root to a
  node, by numbers, actions and states.
-/

namespace ProblemSolving

/-- What a problem does that it must not. -/
inductive Violation (κ : Type) where
  /-- An estimate at this depth is negative or no number. -/
  | negativeHeuristic (depth : Nat) (value : κ)
  /-- A step to this depth lowers the path cost, or is no number. -/
  | negativeStepCost (depth : Nat) (step : κ)
  /-- The actions or the estimate of a node at this depth are not defined. -/
  | undefined (depth : Nat)
deriving DecidableEq

/-- A node with its number. -/
structure Placed (σ α κ : Type) where
  id : Nat
  node : Node σ α κ

/-- Search nodes, numbered in the order of their creation. -/
structure SearchTree (σ α κ : Type) where
  nodes : Array (Node σ α κ)

namespace SearchTree

variable {σ α κ : Type}

def empty : SearchTree σ α κ := ⟨#[]⟩

def size (t : SearchTree σ α κ) : Nat := t.nodes.size

def get? (t : SearchTree σ α κ) (id : Nat) : Option (Node σ α κ) := t.nodes[id]?

/-- Appends a node. -/
def push (t : SearchTree σ α κ) (node : Node σ α κ) : SearchTree σ α κ := ⟨t.nodes.push node⟩

/-- The node that starts a path at a state. -/
def rootNode [Scalar κ] (state : σ) : Node σ α κ := ⟨state, none, 0, 0⟩

/-- Appends a root. -/
def addRoot [Scalar κ] (t : SearchTree σ α κ) (state : σ) : SearchTree σ α κ × Placed σ α κ :=
  (t.push (rootNode state), ⟨t.size, rootNode state⟩)

/-- Drops the nodes from a number on. -/
def truncate (t : SearchTree σ α κ) (size : Nat) : SearchTree σ α κ := ⟨t.nodes.shrink size⟩

/-- The numbers from a node up to its root. A parent has a smaller number than its child, so the
way up ends. -/
def lineage (t : SearchTree σ α κ) (id : Nat) : List Nat :=
  match t.get? id with
  | some ⟨_, some (parent, _), _, _⟩ => if parent < id then id :: t.lineage parent else [id]
  | _ => [id]
termination_by id

/-- The numbers from the root down to a node. -/
def path (t : SearchTree σ α κ) (id : Nat) : List Nat := (t.lineage id).reverse

/-- The actions from the root down to a node. -/
def solution (t : SearchTree σ α κ) (id : Nat) : List α :=
  (t.path id).filterMap fun i => (t.get? i).bind fun node => node.origin.map (·.2)

/-- The states from the root down to a node. -/
def pathStates (t : SearchTree σ α κ) (id : Nat) : List σ :=
  (t.path id).filterMap fun i => (t.get? i).map (·.state)

variable [Scalar κ]

/-- The children of a node in the order of its actions. Each one is made before any of them is
checked. -/
def children (P : Problem σ α κ) (parent : Placed σ α κ) : List (Node σ α κ) :=
  let here := parent.node
  (P.actions here.state).map fun action =>
    let next := P.result here.state action
    ⟨next, some (parent.id, action), P.pathCost here.cost here.state action next, here.depth + 1⟩

/-- Whether the step to a node from a path of this cost lowers the cost, or is no number. -/
def lowersCost (cost : κ) (node : Node σ α κ) : Bool :=
  Scalar.isNaN (node.cost - cost) || Scalar.lt (node.cost - cost) 0

omit [Scalar κ] in
/-- Appends nodes. -/
def pushAll (t : SearchTree σ α κ) (nodes : List (Node σ α κ)) : SearchTree σ α κ :=
  ⟨t.nodes ++ nodes⟩

omit [Scalar κ] in
/-- Nodes with the numbers from `first` on. -/
def numbered (first : Nat) (nodes : List (Node σ α κ)) : List (Placed σ α κ) :=
  (nodes.zipIdx first).map fun (node, id) => ⟨id, node⟩

/-- Appends the children of a node, whose actions must be defined. A step that lowers the path cost
is a violation; the children before it stay. -/
def expand (t : SearchTree σ α κ) (P : Problem σ α κ) (parent : Placed σ α κ) :
    SearchTree σ α κ × Except (Violation κ) (List (Placed σ α κ)) :=
  if !P.isDefined parent.node.state then (t, .error (.undefined parent.node.depth))
  else
    let cost := parent.node.cost
    let made := children P parent
    match made.find? (lowersCost cost) with
    | some bad =>
      (t.pushAll (made.takeWhile fun node => !lowersCost cost node),
        .error (.negativeStepCost bad.depth (bad.cost - cost)))
    | none =>
      let placed := numbered t.size made
      (t.pushAll made, .ok placed)

end SearchTree

end ProblemSolving
