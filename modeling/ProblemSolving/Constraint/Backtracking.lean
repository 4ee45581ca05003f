import ProblemSolving.Constraint.Outcome
import ProblemSolving.Constraint.Propagation

/-!
# Backtracking

* `BacktrackConfig` : which variable and which value come next, and what is inferred.
* `selectVariable?`, `orderValues` : the orders.
* `infer` : the inference after an assignment.
* `backtrack` : the search below a partial assignment.
* `backtrackingSearch` : the search for a solution of a model.
-/

namespace ProblemSolving

/-- Which unassigned variable comes next. -/
inductive VariableOrder where
  | firstUnassigned
  /-- The one with the fewest legal values. -/
  | fewestValues
  /-- The same; among several, the one with the most unassigned neighbours. -/
  | fewestValuesThenDegree
deriving DecidableEq

/-- Which value comes next. -/
inductive ValueOrder where
  | domainOrder
  /-- The one that rules out the fewest values of the neighbours. -/
  | leastConstraining
deriving DecidableEq

/-- What is inferred after an assignment. -/
inductive Inference where
  | nothing
  | forwardChecking
  /-- Arc consistency is maintained. -/
  | arcConsistency
deriving DecidableEq

/-- How a backtracking search works. -/
structure BacktrackConfig where
  variableOrder : VariableOrder := .firstUnassigned
  valueOrder : ValueOrder := .domainOrder
  inference : Inference := .nothing
  /-- The most assignments, if they are limited. -/
  maxAssignments : Option Nat := none
deriving DecidableEq

/-- What a search carries from one partial assignment to the next. -/
structure Backtracker where
  domains : Domains
  assignments : Nat
  backtracks : Nat
deriving DecidableEq

/-- What came of a partial assignment. -/
inductive BranchVerdict where
  /-- It was completed to this one. -/
  | solved (assigned : Array (Option Nat))
  | failed
  | outOfBudget
  /-- A relation was asked about values for which it is undefined. -/
  | undefined

section
variable {ν : Type} (m : Model ν)

/-! ## Orders -/

/-- The variables without a value. -/
def unassignedVariables (assigned : Array (Option Nat)) : List Nat :=
  (List.range assigned.size).filter fun v => assigned[v]? == some none

/-- The number of live values of a variable that conflict with no assigned value. -/
def legalValues (d : Domains) (assigned : Array (Option Nat)) (v : Nat) : Nat :=
  (d.indices v).countP fun ix => m.conflictsAt assigned v ix == 0

/-- The neighbours of a variable without a value. -/
def unassignedNeighbors (assigned : Array (Option Nat)) (v : Nat) : List Nat :=
  (m.neighbors v).filter fun other => assigned[other]? == some none

/-- The first item of least key. -/
def argMin? {β : Type} (lt : β → β → Bool) (key : Nat → β) : List Nat → Option Nat
  | [] => none
  | first :: rest =>
    some (rest.foldl (fun best v => if lt (key v) (key best) then v else best) first)

/-- The variable that comes next. -/
def selectVariable? (order : VariableOrder) (d : Domains) (assigned : Array (Option Nat)) :
    Option Nat :=
  let open_ := unassignedVariables assigned
  match order with
  | .firstUnassigned => open_.head?
  | .fewestValues => argMin? (fun a b => decide (a < b)) (legalValues m d assigned) open_
  | .fewestValuesThenDegree =>
    argMin? (fun a b => decide (a.1 < b.1) || (a.1 == b.1 && decide (b.2 < a.2)))
      (fun v => (legalValues m d assigned v, (unassignedNeighbors m assigned v).length)) open_

/-- Whether that variable is defined. -/
def canSelect (order : VariableOrder) (d : Domains) (assigned : Array (Option Nat)) : Bool :=
  match order with
  | .firstUnassigned => true
  | .fewestValues | .fewestValuesThenDegree =>
    (unassignedVariables assigned).all fun v => m.canCountAll assigned v (d.indices v)

/-- The number of live values of unassigned neighbours that a value rules out. -/
def ruledOut (d : Domains) (assigned : Array (Option Nat)) (v ix : Nat) : Nat :=
  (unassignedNeighbors m assigned v).foldl
    (fun total other => total + (d.indices other).countP fun o => !m.compatible v ix other o) 0

/-- The live values of a variable in the order in which they are tried. -/
def orderValues (order : ValueOrder) (d : Domains) (assigned : Array (Option Nat)) (v : Nat) :
    List Nat :=
  match order with
  | .domainOrder => d.indices v
  | .leastConstraining =>
    (((d.indices v).map fun ix => (ruledOut m d assigned v ix, ix)).mergeSort fun a b =>
      a.1 < b.1 || (a.1 == b.1 && a.2 ≤ b.2)).map (·.2)

/-- Whether that order is defined. -/
def canOrder (order : ValueOrder) (d : Domains) (assigned : Array (Option Nat)) (v : Nat) : Bool :=
  match order with
  | .domainOrder => true
  | .leastConstraining =>
    (unassignedNeighbors m assigned v).all fun other =>
      (d.indices v).all fun ix => canRuleOut m d v ix other

/-! ## Search -/

/-- Removes what a new value rules out. -/
def infer (inference : Inference) (d : Domains) (assigned : Array (Option Nat)) (v ix : Nat) :
    Domains × PropagationVerdict :=
  match inference with
  | .nothing => (d, .consistent)
  | .forwardChecking => forwardCheck m d v ix assigned
  | .arcConsistency => propagate m d ((m.neighbors v).map fun n => (n, v))

/-- Tries values of a variable one after the other. A value in conflict is passed over; any other
one is assigned, its consequences are inferred, `next` searches on, and the removals are undone. -/
def tryValues (config : BacktrackConfig)
    (next : Backtracker → Array (Option Nat) → Backtracker × BranchVerdict)
    (assigned : Array (Option Nat)) (v : Nat) :
    Backtracker → List Nat → Backtracker × BranchVerdict
  | s, [] => ({ s with backtracks := s.backtracks + 1 }, .failed)
  | s, ix :: rest =>
    if !m.canCount assigned v ix then (s, .undefined)
    else if m.conflictsAt assigned v ix ≠ 0 then tryValues config next assigned v s rest
    else if config.maxAssignments.any (· ≤ s.assignments) then (s, .outOfBudget)
    else
      let chosen := assigned.setIfInBounds v (some ix)
      let (d, inferred) := infer m config.inference (s.domains.restrictTo v ix) chosen v ix
      let tried : Backtracker := { s with domains := d, assignments := s.assignments + 1 }
      let (after, verdict) := match inferred with
        | .consistent => next tried chosen
        | .undefined => (tried, .undefined)
        | .wipedOut | .foreign => (tried, .failed)
      match verdict with
      | .failed =>
        tryValues config next assigned v
          { after with domains := after.domains.undoTo s.domains.checkpoint } rest
      | decided => (after, decided)

/-- Searches for a completion of a partial assignment that leaves at most `left` variables open. -/
def backtrack (config : BacktrackConfig) :
    (left : Nat) → Backtracker → (assigned : Array (Option Nat)) → Backtracker × BranchVerdict
  | 0, s, assigned => (s, .solved assigned)
  | left + 1, s, assigned =>
    if !canSelect m config.variableOrder s.domains assigned then (s, .undefined)
    else match selectVariable? m config.variableOrder s.domains assigned with
    | none => (s, .solved assigned)
    | some v =>
      if !canOrder m config.valueOrder s.domains assigned v then (s, .undefined)
      else
        tryValues m config (backtrack config left) assigned v s
          (orderValues m config.valueOrder s.domains assigned v)

/-- Searches for a solution of a model. -/
def backtrackingSearch (config : BacktrackConfig) : SolverOutcome ν :=
  let (s, verdict) :=
    backtrack m config m.size ⟨.full m, 0, 0⟩ (Array.replicate m.size none)
  let solution := match verdict with
    | .solved assigned => .solved (m.materialize assigned)
    | .failed => .unsatisfiable
    | .outOfBudget => .budgetExceeded
    | .undefined => .undefined
  { solution
    stats := ⟨s.assignments, s.backtracks, s.domains.prunings, 0⟩ }

end

end ProblemSolving
