import ProblemSolving.Proofs.Planning.Execution

/-!
# The calls of a planner

* `Call`, `Call.Chooses` : a goal that is to be achieved, and the schema that is chosen for it.
* `Call.Raises` : the failures that a call finds by itself.
* `Asked` : the calls that come up in planning.
* `achieve_error` : a call that fails raises the failure, or one of the calls below it fails.
* `Asked.exists_raises`, `plan_error` : where the failure of a planner was raised.
* `Asked.depth_eq`, `Asked.wanted`, `Asked.added`, `Asked.nodup` : what holds at every call.
-/

namespace ProblemSolving

/-! ## Failing folds -/

theorem bind_eq_error_iff {ε α β : Type} {x : Except ε α} {f : α → Except ε β} {e : ε} :
    x >>= f = .error e ↔ x = .error e ∨ ∃ a, x = .ok a ∧ f a = .error e := by
  cases x with
  | error e' => simp [bind, Except.bind]
  | ok a => simp [bind, Except.bind]

theorem foldlM_error {ε α β : Type} {f : β → α → Except ε β} {items : List α} {b : β} {e : ε}
    (h : items.foldlM f b = .error e) :
    ∃ before item after c, items = before ++ item :: after ∧ before.foldlM f b = .ok c ∧
      f c item = .error e := by
  induction items generalizing b with
  | nil => cases h
  | cons item rest ih =>
    rw [List.foldlM_cons, bind_eq_error_iff] at h
    rcases h with hitem | ⟨a, hitem, hrest⟩
    · exact ⟨[], item, rest, b, rfl, rfl, hitem⟩
    · obtain ⟨before, failing, after, c, hsplit, hbefore, hfailing⟩ := ih hrest
      refine ⟨item :: before, failing, after, c, by rw [hsplit]; rfl, ?_, hfailing⟩
      rw [List.foldlM_cons, hitem]
      exact hbefore

theorem mem_and_adds_of_first {schemas : List Schema} {schema : Schema} {fact : String}
    (h : schemas.find? (·.adds fact) = some schema) : schema ∈ schemas ∧ schema.adds fact = true :=
  ⟨List.mem_of_find?_eq_some h,
    List.find?_some (p := fun schema : Schema => schema.adds fact) h⟩

/-! ## Calls -/

/-- A goal that a plan is to be extended for. `stack` holds the goals above it, and `remaining` more
may be nested below. -/
structure Call where
  remaining : Nat
  stack : List String
  plan : Plan
  goal : String

namespace Call

/-- What the planner makes of a call. -/
def result (schemas : List Schema) (detect : Bool) (c : Call) : Except PlanFailure Plan :=
  achieve schemas detect c.remaining c.stack c.plan c.goal

/-- A schema is chosen for the goal, below which `left` more may be nested. -/
structure Chooses (schemas : List Schema) (detect : Bool) (c : Call) (schema : Schema)
    (left : Nat) : Prop where
  deeper : c.remaining = left + 1
  absent : c.plan.state.contains c.goal = false
  fresh : detect = true → c.goal ∉ c.stack
  first : schemas.find? (·.adds c.goal) = some schema

theorem Chooses.mem_and_adds {schemas : List Schema} {detect : Bool} {c : Call} {schema : Schema}
    {left : Nat} (h : c.Chooses schemas detect schema left) :
    schema ∈ schemas ∧ schema.adds c.goal = true :=
  mem_and_adds_of_first h.first

/-- The failures that a call finds by itself, and not in a call below it. -/
inductive Raises (schemas : List Schema) (detect : Bool) (c : Call) : PlanFailure → Prop
  | goalCycle (hdetect : detect = true) (habove : c.goal ∈ c.stack) :
      Raises schemas detect c (.goalCycle c.goal)
  | depthExceeded (hspent : c.remaining = 0) :
      Raises schemas detect c (.depthExceeded c.stack.length)
  | noApplicableAction (hnone : schemas.find? (·.adds c.goal) = none) :
      Raises schemas detect c (.noApplicableAction c.goal)
  | preconditionClobbered {schema : Schema} {left : Nat} {q : Plan} {fact : String}
      (hchosen : c.Chooses schemas detect schema left)
      (hachieved : schema.preconditions.foldlM
        (achieve schemas detect left (c.goal :: c.stack)) c.plan = .ok q)
      (hmissing : (schema.preconditions.find? fun fact => !q.state.contains fact) = some fact) :
      Raises schemas detect c (.preconditionClobbered schema.action fact)

end Call

/-- The calls that come up in planning: each goal after those before it were achieved, and each
precondition of a schema that is chosen after those before it were. -/
inductive Asked (initial : FactState) (goals : List String) (schemas : List Schema)
    (config : PlanConfig) : Call → Prop
  | goal {before after : List String} {goal : String} {p : Plan}
      (hgoals : goals = before ++ goal :: after)
      (hbefore : before.foldlM (achieve schemas config.detectGoalCycles config.maxDepth [])
        ⟨[], initial⟩ = .ok p) :
      Asked initial goals schemas config ⟨config.maxDepth, [], p, goal⟩
  | subgoal {c : Call} {schema : Schema} {left : Nat} {before after : List String}
      {subgoal : String} {q : Plan} (habove : Asked initial goals schemas config c)
      (hchosen : c.Chooses schemas config.detectGoalCycles schema left)
      (hsubgoals : schema.preconditions = before ++ subgoal :: after)
      (hbefore : before.foldlM (achieve schemas config.detectGoalCycles left (c.goal :: c.stack))
        c.plan = .ok q) :
      Asked initial goals schemas config ⟨left, c.goal :: c.stack, q, subgoal⟩

/-! ## Where a failure was raised -/

section
variable {initial : FactState} {goals : List String} {schemas : List Schema} {config : PlanConfig}

/-- A call that fails raises the failure itself, or has chosen a schema one of whose preconditions
fails, after those before it were achieved. -/
theorem achieve_error {detect : Bool} {c : Call} {e : PlanFailure}
    (h : c.result schemas detect = .error e) :
    c.Raises schemas detect e ∨
      ∃ schema left before subgoal after q, c.Chooses schemas detect schema left ∧
        schema.preconditions = before ++ subgoal :: after ∧
        before.foldlM (achieve schemas detect left (c.goal :: c.stack)) c.plan = .ok q ∧
        (Call.mk left (c.goal :: c.stack) q subgoal).result schemas detect = .error e := by
  obtain ⟨remaining, stack, p, goal⟩ := c
  change achieve schemas detect remaining stack p goal = .error e at h
  unfold achieve at h
  split at h
  · cases h
  next habsent =>
  split at h
  next hcycle =>
    cases h
    obtain ⟨hdetect, habove⟩ := Bool.and_eq_true_iff.1 hcycle
    exact .inl (.goalCycle hdetect (List.contains_iff_mem.1 habove))
  next hfresh =>
  split at h
  · cases h
    exact .inl (.depthExceeded rfl)
  next left =>
  split at h
  next hnone =>
    cases h
    exact .inl (.noApplicableAction hnone)
  next schema hfirst =>
  have hchosen : (Call.mk (left + 1) stack p goal).Chooses schemas detect schema left := by
    refine ⟨rfl, Bool.eq_false_iff.2 habsent, fun hdetect habove => hfresh ?_, hfirst⟩
    exact Bool.and_eq_true_iff.2 ⟨hdetect, List.contains_iff_mem.2 habove⟩
  rcases bind_eq_error_iff.1 h with hbelow | ⟨q, hachieved, hown⟩
  · obtain ⟨before, subgoal, after, q, hsubgoals, hbefore, hfailing⟩ := foldlM_error hbelow
    exact .inr ⟨schema, left, before, subgoal, after, q, hchosen, hsubgoals, hbefore, hfailing⟩
  · split at hown
    next fact hmissing =>
      cases hown
      exact .inl (.preconditionClobbered hchosen hachieved hmissing)
    · cases hown

/-- The failure of a call was raised by a call. -/
theorem Asked.exists_raises {c : Call} {e : PlanFailure} (hc : Asked initial goals schemas config c)
    (h : c.result schemas config.detectGoalCycles = .error e) :
    ∃ c', Asked initial goals schemas config c' ∧
      c'.Raises schemas config.detectGoalCycles e := by
  induction hremaining : c.remaining generalizing c with
  | zero =>
    rcases achieve_error h with hraises | ⟨_, _, _, _, _, _, hchosen, _⟩
    · exact ⟨c, hc, hraises⟩
    · have := hchosen.deeper
      omega
  | succ remaining ih =>
    rcases achieve_error h with hraises | ⟨_, _, _, _, _, _, hchosen, hsubgoals, hbefore, hfailing⟩
    · exact ⟨c, hc, hraises⟩
    · have := hchosen.deeper
      exact ih (.subgoal hc hchosen hsubgoals hbefore) hfailing (by dsimp only; omega)

/-- A planner fails because a call does, or because a goal is missing after all were achieved. -/
theorem plan_error {e : PlanFailure} (h : plan initial goals schemas config = .error e) :
    (∃ c, Asked initial goals schemas config c ∧ c.Raises schemas config.detectGoalCycles e) ∨
      ∃ p goal, goals.foldlM (achieve schemas config.detectGoalCycles config.maxDepth [])
          ⟨[], initial⟩ = .ok p ∧
        (goals.find? fun goal => !p.state.contains goal) = some goal ∧ e = .goalClobbered goal := by
  rcases bind_eq_error_iff.1 h with hcall | ⟨p, hachieved, hown⟩
  · obtain ⟨before, goal, after, p, hgoals, hbefore, hfailing⟩ := foldlM_error hcall
    exact .inl ((Asked.goal hgoals hbefore).exists_raises hfailing)
  · split at hown
    next goal hmissing =>
      cases hown
      exact .inr ⟨p, goal, hachieved, hmissing, rfl⟩
    · cases hown

/-! ## What holds at every call -/

variable {c : Call} (h : Asked initial goals schemas config c)
include h

/-- A goal is nested as deep as there are goals above it. -/
theorem Asked.depth_eq : c.stack.length + c.remaining = config.maxDepth := by
  induction h with
  | goal => exact Nat.zero_add _
  | subgoal _ hchosen _ _ ih =>
    have := hchosen.deeper
    simp only [List.length_cons]
    omega

theorem Asked.wanted : Wanted schemas goals c.goal := by
  cases h with
  | goal hgoals => exact .inl (by rw [hgoals]; simp)
  | subgoal _ hchosen hsubgoals _ =>
    exact .inr ⟨_, hchosen.mem_and_adds.1, by rw [hsubgoals]; simp⟩

/-- Some schema adds each of the goals above. -/
theorem Asked.added : ∀ goal ∈ c.stack, ∃ schema ∈ schemas, schema.adds goal = true := by
  induction h with
  | goal => exact nofun
  | subgoal _ hchosen _ _ ih =>
    intro goal hgoal
    rcases List.mem_cons.1 hgoal with rfl | hgoal
    · exact ⟨_, hchosen.mem_and_adds⟩
    · exact ih goal hgoal

/-- If goals that come up below themselves are failures, the goals above differ. -/
theorem Asked.nodup (hdetect : config.detectGoalCycles = true) : c.stack.Nodup := by
  induction h with
  | goal => exact .nil
  | subgoal _ hchosen _ _ ih => exact List.nodup_cons.2 ⟨hchosen.fresh hdetect, ih⟩

end

end ProblemSolving
