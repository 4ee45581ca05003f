import ProblemSolving.Text.Quoted

/-!
# Constraint models

Variables with finite domains, and constraints between two of them.

* `Variable`, `Relation`, `Constraint`, `Link` : the parts.
* `Model` : variables, constraints, and the links of each variable.
* `Model.addVariable`, `Model.addConstraint`, `Model.addAllDifferent` : building a model.
* `Model.consistent` : whether two values satisfy all constraints between their variables.
* `Assignment` : values of some variables.
* `Model.isSolution` : whether an assignment is complete and satisfies every constraint.
* `Model.consistent?`, `Model.conflicts?`, `Model.isSolution?` : the same for values that some
  relation may not be defined for.
* `Model.isTotalAt`, `Model.isTotalBetween`, `Model.canCount` : where relations are defined.

A variable is named by its number. Numbers of another model may be out of range; what is asked of
them then has no answer.
-/

namespace ProblemSolving

/-- A name, and the values it may take. -/
structure Variable (ν : Type) where
  name : String
  domain : Array ν

/-- A relation of two values. -/
structure Relation (ν : Type) where
  holds : ν → ν → Bool
  /-- The values for which the relation is defined, if those are not all. -/
  limits : Option (ν → ν → Bool) := none

namespace Relation

variable {ν : Type}

/-- The relation of the values in the other order. -/
def flip (r : Relation ν) : Relation ν :=
  ⟨fun y x => r.holds x y, r.limits.map fun defined y x => defined x y⟩

/-- The relation of what a function gives for the values. -/
def comap {μ : Type} (f : μ → ν) (r : Relation ν) : Relation μ :=
  ⟨fun x y => r.holds (f x) (f y), r.limits.map fun defined x y => defined (f x) (f y)⟩

/-- Whether the relation is defined for all values. -/
def isTotal (r : Relation ν) : Bool := r.limits.isNone

/-- Whether the relation is defined for two values. -/
def isDefined (r : Relation ν) (x y : ν) : Bool := r.limits.all fun defined => defined x y

/-- Whether the relation holds, if it is defined. -/
def holds? (r : Relation ν) (x y : ν) : Option Bool :=
  if r.isDefined x y then some (r.holds x y) else none

end Relation

/-- A relation that the values of two variables must satisfy. -/
structure Constraint (ν : Type) where
  left : Nat
  right : Nat
  relation : Relation ν

/-- What a variable must satisfy together with a neighbour: relations of its value and the
neighbour's, in this order. -/
structure Link (ν : Type) where
  neighbor : Nat
  relations : List (Relation ν)

/-- Variables, the constraints that were added, and for each variable its links in the order in
which its neighbours first came up. -/
structure Model (ν : Type) where
  vars : Array (Variable ν)
  constraints : Array (Constraint ν)
  links : Array (List (Link ν))

/-- Why a model is not extended. -/
inductive ModelError where
  | duplicateVariable (name : String)
  | unknownVariable (id : Nat)
  | unknownName (name : String)
  | selfConstraint (name : String)
deriving DecidableEq

/-- The sentence that reports an error. -/
def ModelError.message : ModelError → String
  | duplicateVariable name => "duplicate variable name: " ++ name
  | unknownVariable v => "unknown variable id VarId(" ++ toString v ++ ")"
  | unknownName name => "unknown variable name: " ++ name
  | selfConstraint name => "constraint relates variable " ++ name ++ " to itself"

/-- Whether a value and a neighbour's value satisfy every relation of a link. -/
def Link.allows {ν : Type} (link : Link ν) (value other : ν) : Bool :=
  link.relations.all fun r => r.holds value other

/-- The same, asked one relation after the other until one does not hold; one that is undefined
leaves the question without an answer. -/
def Link.allows? {ν : Type} (link : Link ν) (value other : ν) : Option Bool :=
  link.relations.allM fun r => r.holds? value other

/-- Whether every relation of a link is defined for all values. -/
def Link.isTotal {ν : Type} (link : Link ν) : Bool := link.relations.all (·.isTotal)

/-- Whether it is defined if a link allows two values. -/
def Link.decides {ν : Type} (link : Link ν) (value other : ν) : Bool :=
  link.isTotal || (link.allows? value other).isSome

/-- The links with one more relation to a neighbour. -/
def Link.add {ν : Type} (neighbor : Nat) (relation : Relation ν) : List (Link ν) → List (Link ν)
  | [] => [⟨neighbor, [relation]⟩]
  | link :: rest =>
    if link.neighbor = neighbor then ⟨neighbor, link.relations ++ [relation]⟩ :: rest
    else link :: add neighbor relation rest

namespace Model

variable {ν : Type}

def empty : Model ν := ⟨#[], #[], #[]⟩

/-- The number of variables. -/
def size (m : Model ν) : Nat := m.vars.size

/-- The number of the variable with a name. -/
def find? (m : Model ν) (name : String) : Option Nat :=
  m.vars.findIdx? (·.name == name)

def require (m : Model ν) (name : String) : Except ModelError Nat :=
  match m.find? name with
  | some v => .ok v
  | none => .error (.unknownName name)

def name? (m : Model ν) (v : Nat) : Option String := m.vars[v]?.map (·.name)

def domain? (m : Model ν) (v : Nat) : Option (Array ν) := m.vars[v]?.map (·.domain)

/-- The values of a variable, none for a foreign one. -/
def domain (m : Model ν) (v : Nat) : Array ν := (m.domain? v).getD #[]

/-- The links of a variable, none for a foreign one. -/
def linksOf (m : Model ν) (v : Nat) : List (Link ν) := m.links[v]?.getD []

/-- The variables that share a constraint with a variable. -/
def neighbors (m : Model ν) (v : Nat) : List Nat := (m.linksOf v).map (·.neighbor)

def neighbors? (m : Model ν) (v : Nat) : Option (List Nat) :=
  if v < m.size then some (m.neighbors v) else none

/-! ## Building -/

/-- Adds a variable, whose number is the former size. -/
def addVariable (m : Model ν) (name : String) (domain : Array ν) : Except ModelError (Model ν) :=
  if (m.find? name).isSome then .error (.duplicateVariable name)
  else .ok { m with vars := m.vars.push ⟨name, domain⟩, links := m.links.push [] }

/-- Adds a relation that the values of `a` and `b` must satisfy, in this order. -/
def addConstraint (m : Model ν) (a b : Nat) (relation : Relation ν) :
    Except ModelError (Model ν) :=
  match m.name? a, m.name? b with
  | none, _ => .error (.unknownVariable a)
  | _, none => .error (.unknownVariable b)
  | some name, some _ =>
    if a = b then .error (.selfConstraint name)
    else .ok { m with
      constraints := m.constraints.push ⟨a, b, relation⟩
      links := (m.links.modify a (Link.add b relation)).modify b (Link.add a relation.flip) }

/-- Adds a relation of one variable to each of a list, until one is refused; the model keeps what
was added before. -/
def addToEach (relation : Relation ν) (a : Nat) :
    Model ν → List Nat → Model ν × Except ModelError Unit
  | m, [] => (m, .ok ())
  | m, b :: rest =>
    match m.addConstraint a b relation with
    | .ok m => addToEach relation a m rest
    | .error e => (m, .error e)

/-- Requires the variables to differ from each other, pair by pair, until one pair is refused; the
model keeps the pairs before. -/
def addAllDifferent [BEq ν] : Model ν → List Nat → Model ν × Except ModelError Unit
  | m, [] => (m, .ok ())
  | m, a :: rest =>
    match addToEach { holds := (· != ·) } a m rest with
    | (m, .ok ()) => addAllDifferent m rest
    | failed => failed

/-! ## Constraints -/

/-- Whether two values satisfy every constraint between their variables. -/
def consistent (m : Model ν) (a : Nat) (va : ν) (b : Nat) (vb : ν) : Bool :=
  match (m.linksOf a).find? (·.neighbor == b) with
  | some link => link.allows va vb
  | none => true

/-- The same for any values, if the relations that decide it are defined for them. -/
def consistent? (m : Model ν) (a : Nat) (va : ν) (b : Nat) (vb : ν) : Option Bool :=
  match (m.linksOf a).find? (·.neighbor == b) with
  | some link => link.allows? va vb
  | none => some true

/-- The same for values given by their places in the domains; places that do not exist conflict
with nothing. -/
def compatible (m : Model ν) (a ia b ib : Nat) : Bool :=
  match (m.domain a)[ia]?, (m.domain b)[ib]? with
  | some va, some vb => m.consistent a va b vb
  | _, _ => true

/-- The same, if the relations that decide it are defined. -/
def compatible? (m : Model ν) (a ia b ib : Nat) : Option Bool :=
  match (m.domain a)[ia]?, (m.domain b)[ib]? with
  | some va, some vb => m.consistent? a va b vb
  | _, _ => some true

/-- Whether every relation that a variable is in is defined for all values. -/
def isTotalAt (m : Model ν) (v : Nat) : Bool := (m.linksOf v).all (·.isTotal)

/-- Whether every relation between two variables is defined for all values. -/
def isTotalBetween (m : Model ν) (a b : Nat) : Bool :=
  ((m.linksOf a).find? (·.neighbor == b)).all (·.isTotal)

/-- The value of a variable at its assigned place. -/
def valueAt? (m : Model ν) (assigned : Array (Option Nat)) (v : Nat) : Option ν :=
  (assigned[v]?).join.bind fun ix => (m.domain v)[ix]?

/-- The number of neighbours whose assigned places are incompatible with a place of a variable. -/
def conflictsAt (m : Model ν) (assigned : Array (Option Nat)) (v ix : Nat) : Nat :=
  match (m.domain v)[ix]? with
  | none => 0
  | some value =>
    (m.linksOf v).countP fun link =>
      match m.valueAt? assigned link.neighbor with
      | some other => !link.allows value other
      | none => false

/-- Whether that number is defined: the assigned places of the neighbours leave no relation
undefined. -/
def canCount (m : Model ν) (assigned : Array (Option Nat)) (v ix : Nat) : Bool :=
  match (m.domain v)[ix]? with
  | none => true
  | some value =>
    (m.linksOf v).all fun link =>
      match m.valueAt? assigned link.neighbor with
      | some other => link.decides value other
      | none => true

/-- The same for a list of places. -/
def canCountAll (m : Model ν) (assigned : Array (Option Nat)) (v : Nat) (places : List Nat) :
    Bool :=
  m.isTotalAt v || places.all (m.canCount assigned v)

/-- The model in one line: its variables and the number of its constraints. -/
def summary (m : Model ν) : String :=
  "Csp \x7b variables: " ++ listed (m.vars.toList.map fun v => quotedName v.name)
    ++ ", constraints: " ++ toString m.constraints.size ++ ", .. \x7d"

end Model

/-- Values of some of a number of variables. -/
structure Assignment (ν : Type) where
  values : Array (Option ν)
deriving DecidableEq

namespace Assignment

variable {ν : Type}

/-- The assignment of nothing to `size` variables. -/
def empty (size : Nat) : Assignment ν := ⟨Array.replicate size none⟩

def get? (a : Assignment ν) (v : Nat) : Option ν := (a.values[v]?).join

/-- The assignment with another value of a variable, or none; it must have room for the
variable. -/
def set? (a : Assignment ν) (v : Nat) (value : Option ν) : Option (Assignment ν) :=
  if v < a.values.size then some ⟨a.values.setIfInBounds v value⟩ else none

/-- Whether every variable has a value. -/
def isComplete (a : Assignment ν) : Bool := a.values.all (·.isSome)

/-- The variables that have values, with the values. -/
def toList (a : Assignment ν) : List (Nat × ν) :=
  a.values.toList.zipIdx.filterMap fun (value, v) => value.map fun x => (v, x)

end Assignment

namespace Model

variable {ν : Type}

/-- The number of neighbours whose values conflict with a value of a variable. -/
def conflicts (m : Model ν) (a : Assignment ν) (v : Nat) (value : ν) : Nat :=
  (m.linksOf v).countP fun link =>
    match a.get? link.neighbor with
    | some other => !link.allows value other
    | none => false

/-- Whether the value of a neighbour conflicts with a value, if that is decided. -/
def linkConflicts? (a : Assignment ν) (value : ν) (link : Link ν) : Option Bool :=
  match a.get? link.neighbor with
  | some other => (link.allows? value other).map (!·)
  | none => some false

/-- The number of conflicts, if the model has the variable and every conflict is decided. -/
def conflicts? (m : Model ν) (a : Assignment ν) (v : Nat) (value : ν) : Option Nat :=
  if v < m.size then
    ((m.linksOf v).mapM (linkConflicts? a value)).map fun found => found.count true
  else none

/-- Whether every variable has a value and none is in conflict. -/
def isSolution (m : Model ν) (a : Assignment ν) : Bool :=
  (List.range m.size).all fun v =>
    match a.get? v with
    | some value => m.conflicts a v value == 0
    | none => false

/-- The same, asked one variable after the other until one has no value or is in conflict, if that
is decided. -/
def isSolution? (m : Model ν) (a : Assignment ν) : Option Bool :=
  (List.range m.size).allM fun v =>
    match a.get? v with
    | some value => (m.conflicts? a v value).map (· == 0)
    | none => some false

/-- The values at the assigned places of the domains. -/
def materialize (m : Model ν) (assigned : Array (Option Nat)) : Assignment ν :=
  ⟨assigned.mapIdx fun v ix => ix.bind fun i => (m.domain v)[i]?⟩

end Model

end ProblemSolving
