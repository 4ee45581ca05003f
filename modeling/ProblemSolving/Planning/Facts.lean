/-!
# Facts and schemas

* `FactState` : the facts that hold, each once, in the order in which they became true.
* `Schema` : an action with its preconditions and effects.
* `FactState.apply` : the effects of a schema.
-/

namespace ProblemSolving

/-- An action that may be taken when its preconditions hold, what it makes true and what it makes
false. -/
structure Schema where
  action : String
  preconditions : List String
  add : List String
  delete : List String
deriving DecidableEq

/-- Whether a schema makes a fact true. -/
def Schema.adds (s : Schema) (fact : String) : Bool := s.add.contains fact

/-- The facts that hold. -/
structure FactState where
  facts : List String
deriving DecidableEq

namespace FactState

def contains (s : FactState) (fact : String) : Bool := s.facts.contains fact

/-- Adds a fact at the end, unless it holds already. -/
def insert (s : FactState) (fact : String) : FactState :=
  if s.contains fact then s else ⟨s.facts ++ [fact]⟩

/-- Adds facts one after the other. -/
def insertAll (s : FactState) (facts : List String) : FactState := facts.foldl insert s

/-- The state of a list of facts. -/
def ofList (facts : List String) : FactState := insertAll ⟨[]⟩ facts

/-- The state after an action: the facts that it deletes go, and those that it adds come. -/
def apply (s : FactState) (schema : Schema) : FactState :=
  insertAll ⟨s.facts.filter fun fact => !schema.delete.contains fact⟩ schema.add

end FactState

end ProblemSolving
