import ProblemSolving.Constraint.Domains

/-!
# Propagation

* `PropagationVerdict` : what came of a propagation.
* `forwardCheck` : removes the neighbours' values that a new value rules out.
* `revise` : removes the values of one variable that another does not support.
* `propagate` : revises the arcs of a queue until nothing changes.
* `propagateAll` : propagation of the whole model.
* `isArcConsistent` : whether every live value has support at every neighbour.

A propagation stops where it would have to ask a relation about values for which it is undefined.
-/

namespace ProblemSolving

/-- What came of a propagation. -/
inductive PropagationVerdict where
  | consistent
  /-- A variable has no live value left. -/
  | wipedOut
  /-- A variable came up that the model or the domains do not have. -/
  | foreign
  /-- A relation was asked about values for which it is undefined. -/
  | undefined
deriving DecidableEq

/-- Two neighbours, the first of which is revised against the second. -/
abbrev Arc := Nat × Nat

variable {ν : Type}

/-! ## Forward checking -/

/-- Whether a place of a variable and the live values of another cannot be compared, because one of
them does not exist. -/
def incomparable (m : Model ν) (d : Domains) (v ix other : Nat) : Bool :=
  !d.covers other || (!(d.indices other).isEmpty && (m.domain v).size ≤ ix)

/-- Whether it is defined which live values of a variable a place of another rules out. -/
def canRuleOut (m : Model ν) (d : Domains) (v ix other : Nat) : Bool :=
  m.isTotalBetween v other || (d.indices other).all fun o => (m.compatible? v ix other o).isSome

/-- Removes from each unassigned neighbour the values that are incompatible with a place of a
variable, until one neighbour has none left. -/
def checkNeighbors (m : Model ν) (assigned : Array (Option Nat)) (v ix : Nat) :
    Domains → List Nat → Domains × PropagationVerdict
  | d, [] => (d, .consistent)
  | d, other :: rest =>
    match assigned[other]? with
    | none => (d, .foreign)
    | some (some _) => checkNeighbors m assigned v ix d rest
    | some none =>
      if incomparable m d v ix other then (d, .foreign)
      else if !canRuleOut m d v ix other then (d, .undefined)
      else
        let doomed := (d.indices other).filter fun o => !m.compatible v ix other o
        let d := d.pruneAll other doomed
        if d.isWipedOut other then (d, .wipedOut) else checkNeighbors m assigned v ix d rest

/-- Removes what a place of a variable rules out at its unassigned neighbours. -/
def forwardCheck (m : Model ν) (d : Domains) (v ix : Nat) (assigned : Array (Option Nat)) :
    Domains × PropagationVerdict :=
  match m.neighbors? v with
  | some neighbors => checkNeighbors m assigned v ix d neighbors
  | none => (d, .foreign)

/-! ## Arc consistency -/

/-- Whether a live value of `xj` is compatible with a place of `xi`. -/
def supported (m : Model ν) (d : Domains) (xi x xj : Nat) : Bool :=
  (d.indices xj).any fun y => m.compatible xi x xj y

/-- The same, asked one value after the other until one is compatible, if that is decided. -/
def supported? (m : Model ν) (d : Domains) (xi x xj : Nat) : Option Bool :=
  (d.indices xj).anyM fun y => m.compatible? xi x xj y

/-- Whether it is defined which live values of `xi` have support at `xj`. -/
def canRevise (m : Model ν) (d : Domains) (xi xj : Nat) : Bool :=
  m.isTotalBetween xi xj || (d.indices xi).all fun x => (supported? m d xi x xj).isSome

/-- The live values of `xi` without support at `xj`. -/
def unsupported (m : Model ν) (d : Domains) (xi xj : Nat) : List Nat :=
  (d.indices xi).filter fun x => !supported m d xi x xj

theorem mem_indices_of_mem_unsupported {m : Model ν} {d : Domains} {xi x xj : Nat}
    (h : x ∈ unsupported m d xi xj) : x ∈ d.indices xi :=
  (List.mem_filter.1 h).1

/-- Removes the values of `xi` without support at `xj`, and says whether there were any. -/
def revise (m : Model ν) (d : Domains) (xi xj : Nat) : Domains × Bool :=
  let doomed := unsupported m d xi xj
  (d.pruneAll xi doomed, !doomed.isEmpty)

/-- Whether an arc cannot be revised, because one of its variables is not there. -/
def Domains.isForeignArc (d : Domains) (arc : Arc) : Bool :=
  !d.covers arc.1 || (!(d.indices arc.1).isEmpty && !d.covers arc.2)

/-- Revises an arc, if its variables are there and it is defined what is removed. -/
def revise? (m : Model ν) (d : Domains) (xi xj : Nat) : Option (Domains × Bool) :=
  if d.isForeignArc (xi, xj) || !canRevise m d xi xj then none else some (revise m d xi xj)

/-- The arcs that have to be revised again after `xi` lost values against `xj`. -/
def Model.arcsTo (m : Model ν) (xi xj : Nat) : List Arc :=
  ((m.neighbors xi).filter (· != xj)).map fun xk => (xk, xi)

/-- Every pair of neighbours, by the first variable and then in the order of its neighbours. -/
def Model.allArcs (m : Model ν) : List Arc :=
  (List.range m.size).flatMap fun xi => (m.neighbors xi).map fun xj => (xi, xj)

/-- Revises the arcs of a queue in order; when a variable loses values, the arcs from its other
neighbours join the end of the queue. Each round removes a value or shortens the queue. -/
def propagate (m : Model ν) (d : Domains) : List Arc → Domains × PropagationVerdict
  | [] => (d, .consistent)
  | (xi, xj) :: queue =>
    if d.isForeignArc (xi, xj) then (d, .foreign)
    else if !canRevise m d xi xj then (d, .undefined)
    else match _h : unsupported m d xi xj with
    | [] => propagate m d queue
    | x :: rest =>
      let d' := d.pruneAll xi (x :: rest)
      if d'.isWipedOut xi then (d', .wipedOut)
      else propagate m d' (queue ++ m.arcsTo xi xj)
termination_by queue => (d.liveCount, queue.length)
decreasing_by
  · exact Prod.Lex.right _ (Nat.lt_succ_self _)
  · exact Prod.Lex.left _ _ (Domains.liveCount_pruneAll_lt
      (Domains.isAlive_of_mem_indices (mem_indices_of_mem_unsupported (_h ▸ List.mem_cons_self))))

/-- The outcome of propagation on its own. -/
structure Propagation where
  domains : Domains
  verdict : PropagationVerdict
deriving DecidableEq

/-- Whether no variable lost all its values. -/
def Propagation.consistent (p : Propagation) : Bool := p.verdict = .consistent

/-- Propagates every arc of a model from the full domains. -/
def propagateAll (m : Model ν) : Propagation :=
  let (domains, verdict) := propagate m (.full m) m.allArcs
  { domains, verdict }

/-- The assignment of the only live values, if propagation succeeded and left one each. -/
def Propagation.solution? (m : Model ν) (p : Propagation) : Option (Assignment ν) :=
  if p.consistent then
    ((List.range m.size).mapM fun v =>
      match p.domains.indices v with
      | [ix] => (m.domain v)[ix]?
      | _ => none).map fun (values : List ν) => ⟨(values.map some).toArray⟩
  else none

/-- Whether every live value of a variable has support at each of its neighbours. -/
def isArcConsistent (m : Model ν) (d : Domains) : Bool :=
  m.allArcs.all fun (xi, xj) => (d.indices xi).all fun x => supported m d xi x xj

/-- The same, asked one value after the other until one has no support, if the domains have the
variables that are looked at and that is decided. -/
def isArcConsistent? (m : Model ν) (d : Domains) : Option Bool :=
  m.allArcs.allM fun (xi, xj) =>
    if d.isForeignArc (xi, xj) then none else (d.indices xi).allM fun x => supported? m d xi x xj

end ProblemSolving
