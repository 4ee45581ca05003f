import ProblemSolving.Planning.Facts
import ProblemSolving.Text.Quoted

/-!
# Means-ends planning

Goals are achieved one after the other: the first schema that adds a goal is chosen for good, its
preconditions are achieved as subgoals, and it is applied.

* `PlanConfig` : how deep subgoals nest, and whether a goal may depend on itself.
* `PlanFailure` : why there is no plan.
* `achieve` : the plan for one goal.
* `plan` : the plan for all goals.
-/

namespace ProblemSolving

/-- How a planner works. -/
structure PlanConfig where
  maxDepth : Nat := 64
  /-- Whether a goal that comes up below itself is a failure of its own. -/
  detectGoalCycles : Bool := false
deriving DecidableEq

/-- Why there is no plan. -/
inductive PlanFailure where
  | noApplicableAction (goal : String)
  /-- A precondition of the action was undone by a later subgoal. -/
  | preconditionClobbered (action fact : String)
  /-- A goal was undone by a later one. -/
  | goalClobbered (goal : String)
  | depthExceeded (depth : Nat)
  | goalCycle (goal : String)
deriving DecidableEq

/-- The sentence that reports a failure. -/
def PlanFailure.message : PlanFailure → String
  | noApplicableAction goal => "no action adds goal " ++ quotedName goal
  | preconditionClobbered action fact =>
    "precondition " ++ quotedName fact ++ " of " ++ quotedName action
      ++ " was undone by a later subgoal"
  | goalClobbered goal => "goal " ++ quotedName goal ++ " was undone while achieving a later goal"
  | depthExceeded depth => "subgoal nesting exceeded depth " ++ toString depth
  | goalCycle goal => "goal " ++ quotedName goal ++ " depends on itself"

/-- The actions so far, and the state that they lead to. -/
structure Plan where
  actions : List String
  state : FactState
deriving DecidableEq

/-- The plan with one more action. -/
def Plan.extend (p : Plan) (schema : Schema) : Plan :=
  ⟨p.actions ++ [schema.action], p.state.apply schema⟩

/-- Extends a plan until a goal holds. `stack` holds the goals above it, and `remaining` more may
be nested below. -/
def achieve (schemas : List Schema) (detectGoalCycles : Bool) :
    (remaining : Nat) → (stack : List String) → Plan → (goal : String) → Except PlanFailure Plan
  | remaining, stack, p, goal =>
    if p.state.contains goal then .ok p
    else if detectGoalCycles && stack.contains goal then .error (.goalCycle goal)
    else match remaining with
    | 0 => .error (.depthExceeded stack.length)
    | remaining + 1 =>
      match schemas.find? (·.adds goal) with
      | none => .error (.noApplicableAction goal)
      | some schema => do
        let q ← schema.preconditions.foldlM
          (fun q subgoal => achieve schemas detectGoalCycles remaining (goal :: stack) q subgoal) p
        match schema.preconditions.find? fun fact => !q.state.contains fact with
        | some fact => .error (.preconditionClobbered schema.action fact)
        | none => .ok (q.extend schema)

/-- A plan after which every goal holds. -/
def plan (initial : FactState) (goals : List String) (schemas : List Schema)
    (config : PlanConfig) : Except PlanFailure Plan := do
  let p ← goals.foldlM (achieve schemas config.detectGoalCycles config.maxDepth []) ⟨[], initial⟩
  match goals.find? fun goal => !p.state.contains goal with
  | some goal => .error (.goalClobbered goal)
  | none => .ok p

end ProblemSolving
