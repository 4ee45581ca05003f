import Mathlib.Computability.StateTransition
import ProblemSolving.Proofs.Planning.Failures
import ProblemSolving.Proofs.Planning.Guards

/-!
# The subgoal stack of a planner, moment by moment

A planner that keeps the goals it is working on on a stack: a goal is pushed when its schema is
chosen, and popped when its preconditions were achieved, or could not be.

* `Planner`, `Planner.next?` : a moment of a planner, and the one after it.
* `Planner.Sound` : the stack holds the goals of the undertakings, and not too many.
* `achieve_comes`, `goals_come` : the moments lead to what achieving goals comes to.
* `plan_ends` : the planner ends, with the plan or its failure.
* `depthGuard_onlyCuts` : how deep the stack grows, and what a deeper one would change.
-/

namespace ProblemSolving

/-! ## Moments -/

/-- A goal whose schema is chosen, while the preconditions are being achieved. -/
structure Undertaking where
  goal : String
  schema : Schema
  /-- The goals that are to be achieved after this one. -/
  rest : List String

/-- What a planner is about to do. -/
inductive Pursuit where
  /-- To achieve goals one after the other. -/
  | achieving (goals : List String)
  /-- To give up. -/
  | failing (failure : PlanFailure)

/-- A planner at some moment. -/
structure Planner where
  planned : Plan
  /-- The goals that are being worked on, the innermost one first. -/
  stack : List String
  /-- What is left to do for them, for the innermost one first. -/
  above : List Undertaking
  pursuit : Pursuit

namespace Planner

def start (initial : FactState) (goals : List String) : Planner :=
  ⟨⟨[], initial⟩, [], [], .achieving goals⟩

/-- Applies the schema of an undertaking, unless a precondition is missing. -/
def carryOut (p : Plan) (stack : List String) (above : List Undertaking) (u : Undertaking) :
    Planner :=
  match u.schema.preconditions.find? fun fact => !p.state.contains fact with
  | some fact => ⟨p, stack, above, .failing (.preconditionClobbered u.schema.action fact)⟩
  | none => ⟨p.extend u.schema, stack, above, .achieving u.rest⟩

variable (schemas : List Schema) (config : PlanConfig)

/-- Takes up a goal: it holds, or cannot be achieved, or is pushed on the stack with the schema that
is chosen for it. -/
def takeUp (p : Plan) (stack : List String) (above : List Undertaking) (goal : String)
    (rest : List String) : Planner :=
  if p.state.contains goal then ⟨p, stack, above, .achieving rest⟩
  else if config.detectGoalCycles && stack.contains goal then
    ⟨p, stack, above, .failing (.goalCycle goal)⟩
  else if config.maxDepth ≤ stack.length then
    ⟨p, stack, above, .failing (.depthExceeded stack.length)⟩
  else match schemas.find? (·.adds goal) with
  | none => ⟨p, stack, above, .failing (.noApplicableAction goal)⟩
  | some schema =>
    ⟨p, goal :: stack, ⟨goal, schema, rest⟩ :: above, .achieving schema.preconditions⟩

/-- The next moment of a planner. -/
def next? : Planner → Option Planner
  | ⟨p, stack, above, .achieving (goal :: rest)⟩ =>
    some (takeUp schemas config p stack above goal rest)
  | ⟨p, stack, u :: above, .achieving []⟩ => some (carryOut p stack.tail above u)
  | ⟨p, stack, _ :: above, .failing e⟩ => some ⟨p, stack.tail, above, .failing e⟩
  | ⟨_, _, [], .achieving []⟩ => none
  | ⟨_, _, [], .failing _⟩ => none

/-- One moment of a planner leads to another. -/
def Leads : Planner → Planner → Prop := StateTransition.Reaches (next? schemas config)

/-- What a planner for some goals comes to at its last moment. -/
def outcome? (goals : List String) : Planner → Option (Except PlanFailure Plan)
  | ⟨p, _, [], .achieving []⟩ => some <|
    match goals.find? fun goal => !p.state.contains goal with
    | some goal => .error (.goalClobbered goal)
    | none => .ok p
  | ⟨_, _, [], .failing e⟩ => some (.error e)
  | _ => none

/-! ## The stack -/

/-- The stack holds the goals of the undertakings, and not more than may be nested. -/
structure Sound (m : Planner) : Prop where
  stack_eq : m.stack = m.above.map (·.goal)
  length_le : m.stack.length ≤ config.maxDepth

variable {schemas config} {m m' : Planner}

theorem sound_start (initial : FactState) (goals : List String) :
    (start initial goals).Sound config :=
  ⟨rfl, Nat.zero_le _⟩

section
variable {p : Plan} {stack : List String} {above : List Undertaking}
  (hstack : stack = above.map (·.goal)) (hlength : stack.length ≤ config.maxDepth)
include hstack hlength

theorem sound_takeUp (goal : String) (rest : List String) :
    (takeUp schemas config p stack above goal rest).Sound config := by
  unfold takeUp
  split
  · exact ⟨hstack, hlength⟩
  split
  · exact ⟨hstack, hlength⟩
  split
  · exact ⟨hstack, hlength⟩
  next hdepth =>
  split
  · exact ⟨hstack, hlength⟩
  · exact ⟨by rw [hstack]; rfl, Nat.not_le.1 hdepth⟩

theorem sound_carryOut (u : Undertaking) : (carryOut p stack above u).Sound config := by
  unfold carryOut
  split <;> exact ⟨hstack, hlength⟩

end

theorem Sound.next (h : m.Sound config) (hnext : m.next? schemas config = some m') :
    m'.Sound config := by
  obtain ⟨p, stack, above, pursuit⟩ := m
  obtain ⟨hstack, hlength⟩ := h
  dsimp only at hstack hlength
  cases pursuit with
  | achieving goals =>
    cases goals with
    | cons goal rest =>
      cases hnext
      exact sound_takeUp hstack hlength goal rest
    | nil =>
      cases above with
      | nil => cases hnext
      | cons u above =>
        cases hnext
        rw [hstack] at hlength ⊢
        exact sound_carryOut rfl (Nat.le_of_succ_le hlength) u
  | failing e =>
    cases above with
    | nil => cases hnext
    | cons u above =>
      cases hnext
      rw [hstack] at hlength ⊢
      exact ⟨rfl, Nat.le_of_succ_le hlength⟩

theorem Sound.leads (h : m.Sound config) (hleads : m.Leads schemas config m') :
    m'.Sound config := by
  induction hleads with
  | refl => exact h
  | tail _ hnext ih => exact ih.next hnext

/-! ## What the moments come to -/

section
variable (schemas config)

/-- A moment leads to one at which the stack is `stack` again: the goals of `rest` are to be achieved
next, or the planner gives up. -/
def Comes (stack : List String) (above : List Undertaking) (rest : List String) (m : Planner) :
    Except PlanFailure Plan → Prop
  | .ok q => m.Leads schemas config ⟨q, stack, above, .achieving rest⟩
  | .error e => ∃ q, m.Leads schemas config ⟨q, stack, above, .failing e⟩

variable {schemas config} {stack : List String} {above : List Undertaking}

theorem Comes.of_leads {rest : List String} {m m' : Planner} {r : Except PlanFailure Plan}
    (hleads : m.Leads schemas config m') (h : Comes schemas config stack above rest m' r) :
    Comes schemas config stack above rest m r := by
  cases r with
  | ok q => exact hleads.trans h
  | error e =>
    obtain ⟨q, hq⟩ := h
    exact ⟨q, hleads.trans hq⟩

/-- If each goal comes to what a function makes of it, goals come to what it makes of them one after
the other. -/
theorem goals_come {achieved : Plan → String → Except PlanFailure Plan}
    (hgoal : ∀ p goal rest, Comes schemas config stack above rest
      ⟨p, stack, above, .achieving (goal :: rest)⟩ (achieved p goal))
    (goals rest : List String) (p : Plan) :
    Comes schemas config stack above rest ⟨p, stack, above, .achieving (goals ++ rest)⟩
      (goals.foldlM achieved p) := by
  induction goals generalizing p with
  | nil => exact .refl
  | cons goal goals ih =>
    have hfirst := hgoal p goal (goals ++ rest)
    rw [List.foldlM_cons]
    cases hachieved : achieved p goal with
    | error e =>
      rw [hachieved] at hfirst
      exact hfirst
    | ok q =>
      rw [hachieved] at hfirst
      exact (ih q).of_leads hfirst

/-- Popping the goal of an undertaking, and applying its schema, ends what was begun when the goal was
pushed. -/
theorem undertaking_comes {p : Plan} {u : Undertaking} {r : Except PlanFailure Plan}
    (h : Comes schemas config (u.goal :: stack) (u :: above) []
      ⟨p, u.goal :: stack, u :: above, .achieving u.schema.preconditions⟩ r) :
    Comes schemas config stack above u.rest
      ⟨p, u.goal :: stack, u :: above, .achieving u.schema.preconditions⟩
      (r >>= fun q => match u.schema.preconditions.find? fun fact => !q.state.contains fact with
        | some fact => .error (.preconditionClobbered u.schema.action fact)
        | none => .ok (q.extend u.schema)) := by
  cases r with
  | error e =>
    obtain ⟨q, hq⟩ := h
    exact ⟨q, hq.tail rfl⟩
  | ok q =>
    have hleads : Planner.Leads schemas config _ (Planner.carryOut q stack above u) := h.tail rfl
    apply Comes.of_leads hleads
    unfold Planner.carryOut
    dsimp only [bind, Except.bind]
    split
    · exact ⟨q, .refl⟩
    · exact .refl

/-- A goal comes to what achieving it with as many levels left comes to. -/
theorem achieve_comes (remaining : Nat) (hdepth : stack.length + remaining = config.maxDepth)
    (p : Plan) (goal : String) (rest : List String) :
    Comes schemas config stack above rest ⟨p, stack, above, .achieving (goal :: rest)⟩
      (achieve schemas config.detectGoalCycles remaining stack p goal) := by
  induction remaining generalizing stack above p goal rest with
  | zero =>
    apply Comes.of_leads (.single rfl)
    unfold achieve Planner.takeUp
    split
    · exact .refl
    split
    · exact ⟨p, .refl⟩
    rw [if_pos (show config.maxDepth ≤ stack.length by omega)]
    exact ⟨p, .refl⟩
  | succ remaining ih =>
    apply Comes.of_leads (.single rfl)
    unfold achieve Planner.takeUp
    split
    · exact .refl
    split
    · exact ⟨p, .refl⟩
    rw [if_neg (show ¬ config.maxDepth ≤ stack.length by omega)]
    dsimp only
    cases schemas.find? (·.adds goal) with
    | none => exact ⟨p, .refl⟩
    | some schema =>
      -- the goal is pushed: its preconditions are achieved above one goal more, with one level less
      let u : Undertaking := ⟨goal, schema, rest⟩
      have hdeeper : (goal :: stack).length + remaining = config.maxDepth := by
        rw [List.length_cons]
        omega
      have hsubgoals : Comes schemas config (goal :: stack) (u :: above) []
          ⟨p, goal :: stack, u :: above, .achieving (schema.preconditions ++ [])⟩
          (schema.preconditions.foldlM
            (achieve schemas config.detectGoalCycles remaining (goal :: stack)) p) :=
        goals_come (ih hdeeper) schema.preconditions [] p
      rw [List.append_nil] at hsubgoals
      exact undertaking_comes (u := u) hsubgoals

variable (schemas config)

theorem goal_comes (p : Plan) (goal : String) (rest : List String) :
    Comes schemas config [] [] rest ⟨p, [], [], .achieving (goal :: rest)⟩
      (achieve schemas config.detectGoalCycles config.maxDepth [] p goal) :=
  achieve_comes config.maxDepth (Nat.zero_add _) p goal rest

theorem goals_lead {initial : FactState} {before : List String} {p : Plan}
    (h : before.foldlM (achieve schemas config.detectGoalCycles config.maxDepth []) ⟨[], initial⟩ =
      .ok p) (after : List String) :
    (start initial (before ++ after)).Leads schemas config ⟨p, [], [], .achieving after⟩ := by
  have hcome := goals_come (goal_comes schemas config) before after ⟨[], initial⟩
  rw [h] at hcome
  exact hcome

/-- The planner ends, with the plan or its failure. -/
theorem plan_ends (initial : FactState) (goals : List String) :
    ∃ last ∈ StateTransition.eval (next? schemas config) (start initial goals),
      last.outcome? goals = some (plan initial goals schemas config) := by
  have hcome := goals_come (goal_comes schemas config) goals [] ⟨[], initial⟩
  rw [List.append_nil] at hcome
  unfold plan
  cases hachieved : goals.foldlM
      (achieve schemas config.detectGoalCycles config.maxDepth []) ⟨[], initial⟩ with
  | error e =>
    rw [hachieved] at hcome
    obtain ⟨q, hleads⟩ := hcome
    exact ⟨_, StateTransition.mem_eval.2 ⟨hleads, rfl⟩, rfl⟩
  | ok p =>
    rw [hachieved] at hcome
    exact ⟨_, StateTransition.mem_eval.2 ⟨hcome, rfl⟩, rfl⟩

end

/-- A planner for some goals ends, with the plan or its failure. At each moment its stack holds the
goals that are being worked on, and no more than may be nested; when it comes to the goals after some
that were achieved, the stack is empty. -/
structure KeepsStack (initial : FactState) (goals : List String) (schemas : List Schema)
    (config : PlanConfig) : Prop where
  ends : ∃ last ∈ StateTransition.eval (next? schemas config) (start initial goals),
    last.outcome? goals = some (plan initial goals schemas config)
  moments : ∀ m, (start initial goals).Leads schemas config m →
    m.stack = m.above.map (·.goal) ∧ m.stack.length ≤ config.maxDepth
  emptied : ∀ before after p, goals = before ++ after →
    before.foldlM (achieve schemas config.detectGoalCycles config.maxDepth []) ⟨[], initial⟩ =
      .ok p → (start initial goals).Leads schemas config ⟨p, [], [], .achieving after⟩

end Planner

/-- **The depth guard only cuts off.** A planner ends, its stack never holds more goals than may be
nested, and is empty after each of the goals that is achieved. If goals are nested too deep, they are
so at the greatest depth; and if they are not, a planner that may nest them deeper comes to the
same. -/
theorem depthGuard_onlyCuts (initial : FactState) (goals : List String) (schemas : List Schema)
    (config : PlanConfig) :
    Planner.KeepsStack initial goals schemas config ∧
    (∀ depth, plan initial goals schemas config = .error (.depthExceeded depth) →
      depth = config.maxDepth) ∧
    ∀ maxDepth, config.maxDepth ≤ maxDepth →
      (∀ depth, plan initial goals schemas config ≠ .error (.depthExceeded depth)) →
      plan initial goals schemas { config with maxDepth } = plan initial goals schemas config := by
  refine ⟨⟨Planner.plan_ends schemas config initial goals, ?_, ?_⟩, fun _ => plan_tellsTruth, ?_⟩
  · intro m hleads
    have hsound := (Planner.sound_start initial goals).leads hleads
    exact ⟨hsound.stack_eq, hsound.length_le⟩
  · rintro before after p rfl hbefore
    exact Planner.goals_lead schemas config hbefore after
  · intro maxDepth hdeeper hcut
    have hsame : SameUnless (fun e => ∃ depth, e = .depthExceeded depth)
        (plan initial goals schemas config)
        (plan initial goals schemas { config with maxDepth }) :=
      plan_sameUnless (.inl rfl) initial goals schemas (.inr ⟨hdeeper, fun depth => ⟨depth, rfl⟩⟩)
    apply hsame.eq
    rintro e ⟨depth, rfl⟩
    exact hcut depth

/-- Looking for an egg, a planner never works on more than ten goals; the monkey's plan, for which five
levels do, is found with any more. -/
theorem eggAndChicken_onlyCuts :
    (∀ m, (Planner.start ⟨[]⟩ ["egg"]).Leads eggAndChicken ⟨10, false⟩ m → m.stack.length ≤ 10) ∧
    plan ⟨[]⟩ ["egg"] eggAndChicken ⟨10, false⟩ = .error (.depthExceeded 10) ∧
    plan monkey.initial monkey.goals monkey.schemas ⟨5, false⟩ = .ok monkeyPlan ∧
    plan monkey.initial monkey.goals monkey.schemas ⟨1000000, false⟩ = .ok monkeyPlan := by
  have hmonkey : plan monkey.initial monkey.goals monkey.schemas ⟨5, false⟩ = .ok monkeyPlan := rfl
  obtain ⟨hkeeps, -, -⟩ := depthGuard_onlyCuts ⟨[]⟩ ["egg"] eggAndChicken ⟨10, false⟩
  obtain ⟨-, -, hsame⟩ := depthGuard_onlyCuts monkey.initial monkey.goals monkey.schemas ⟨5, false⟩
  refine ⟨fun m hm => (hkeeps.moments m hm).2, rfl, hmonkey, ?_⟩
  rw [← hmonkey]
  exact hsame 1000000 (by decide) fun depth => by rw [hmonkey]; exact nofun

end ProblemSolving
