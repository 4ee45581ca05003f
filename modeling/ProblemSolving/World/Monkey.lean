import ProblemSolving.Planning.Facts

/-!
# The monkey and the bananas

* `PlanningProblem` : a state, goals and schemas.
* `monkey` : how a hungry monkey with a ball and a chair gets at bananas.
-/

namespace ProblemSolving

/-- What a planner is asked. -/
structure PlanningProblem where
  initial : FactState
  goals : List String
  schemas : List Schema

/-- A monkey at the door wants the bananas that hang over the middle of the room. -/
def monkey : PlanningProblem where
  initial := .ofList ["at door", "on floor", "has ball", "hungry", "chair at door"]
  goals := ["not hungry"]
  schemas := [
    ⟨"climb on chair", ["chair at middle room", "at middle room", "on floor"],
      ["at bananas", "on chair"], ["at middle room", "on floor"]⟩,
    ⟨"push chair from door to middle room", ["chair at door", "at door"],
      ["chair at middle room", "at middle room"], ["chair at door", "at door"]⟩,
    ⟨"walk from door to middle room", ["at door", "on floor"], ["at middle room"], ["at door"]⟩,
    ⟨"grasp bananas", ["at bananas", "empty handed"], ["has bananas"], ["empty handed"]⟩,
    ⟨"drop ball", ["has ball"], ["empty handed"], ["has ball"]⟩,
    ⟨"eat bananas", ["has bananas"], ["empty handed", "not hungry"], ["has bananas", "hungry"]⟩]

end ProblemSolving
