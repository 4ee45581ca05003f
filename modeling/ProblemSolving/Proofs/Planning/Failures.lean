import ProblemSolving.Proofs.Planning.Calls

/-!
# The failures of a planner tell the truth

* `contains_apply` : which facts hold after an action.
* `Schema.Undoes` : an action that makes a fact false; a fact that is lost was undone by one
  (`Executes.exists_undoes`).
* `achieve_contains`, `exists_undoes_of_achieved` : a goal that is achieved holds, and is undone if it
  is missing later.
* `PlanFailure.TellsTruth` : what a failure says is so.
* `planFailure_truthful` : it is, of every failure.
-/

namespace ProblemSolving

/-! ## Facts that come and go -/

namespace FactState

@[simp] theorem contains_insert (s : FactState) (fact other : String) :
    (s.insert fact).contains other = (s.contains other || other == fact) := by
  unfold insert
  split
  next hheld =>
    by_cases h : other = fact
    · rw [h, hheld]
      rfl
    · rw [beq_false_of_ne h, Bool.or_false]
  next =>
    rw [Bool.eq_iff_iff]
    simp [contains]

@[simp] theorem contains_insertAll (s : FactState) (facts : List String) (other : String) :
    (s.insertAll facts).contains other = (s.contains other || facts.contains other) := by
  induction facts generalizing s with
  | nil => simp [insertAll]
  | cons fact rest ih =>
    have h := ih (s.insert fact)
    unfold insertAll at h ⊢
    rw [List.foldl_cons, h, contains_insert, List.contains_cons, Bool.or_assoc]

/-- The facts after an action are those that it adds, and those before that it does not delete. -/
@[simp] theorem contains_apply (s : FactState) (schema : Schema) (fact : String) :
    (s.apply schema).contains fact =
      (schema.adds fact || s.contains fact && !schema.delete.contains fact) := by
  unfold apply Schema.adds
  rw [contains_insertAll, Bool.or_comm]
  congr 1
  rw [Bool.eq_iff_iff]
  simp [contains, List.mem_filter]

end FactState

/-- An action deletes a fact and does not add it. -/
def Schema.Undoes (schema : Schema) (fact : String) : Prop :=
  fact ∈ schema.delete ∧ fact ∉ schema.add

/-- A fact that held before an action and not after it was undone by it. -/
theorem Schema.undoes_of_lost {s : FactState} {schema : Schema} {fact : String}
    (hheld : s.contains fact = true) (hlost : (s.apply schema).contains fact = false) :
    schema.Undoes fact := by
  rw [FactState.contains_apply, hheld, Bool.true_and, Bool.or_eq_false_iff] at hlost
  obtain ⟨hadds, hdeletes⟩ := hlost
  constructor
  · exact List.contains_iff_mem.1 (by simpa using hdeletes)
  · exact fun hadded => absurd (List.contains_iff_mem.2 hadded) (Bool.eq_false_iff.1 hadds)

/-- A fact that held before some actions and not after them was undone by one of them. -/
theorem Executes.exists_undoes {s t : FactState} {steps : List Schema} {fact : String}
    (h : Executes s steps t) (hheld : s.contains fact = true) (hlost : t.contains fact = false) :
    ∃ step ∈ steps, step.Undoes fact := by
  induction h with
  | nil => exact absurd hheld (Bool.eq_false_iff.1 hlost)
  | @cons s t schema rest _ _ ih =>
    cases hnext : (s.apply schema).contains fact with
    | true =>
      obtain ⟨step, hstep, hundoes⟩ := ih hnext hlost
      exact ⟨step, List.mem_cons_of_mem _ hstep, hundoes⟩
    | false => exact ⟨schema, List.mem_cons_self, Schema.undoes_of_lost hheld hnext⟩

/-! ## Goals that are achieved, and lost -/

section
variable {schemas : List Schema} {detect : Bool} {remaining : Nat} {stack : List String}

/-- A goal that is achieved holds. -/
theorem achieve_contains {p q : Plan} {goal : String}
    (h : achieve schemas detect remaining stack p goal = .ok q) : q.state.contains goal = true := by
  rcases achieve_ok h with ⟨hholds, rfl⟩ | ⟨left, schema, before, -, hfirst, -, -, rfl⟩
  · exact hholds
  · obtain ⟨-, hadds⟩ := mem_and_adds_of_first hfirst
    change (before.state.apply schema).contains goal = true
    rw [FactState.contains_apply, hadds, Bool.true_or]

theorem exists_executes_of_achieved {goals : List String} {p q : Plan}
    (h : goals.foldlM (achieve schemas detect remaining stack) p = .ok q) :
    ∃ steps, Executes p.state steps q.state ∧ ∀ step ∈ steps, step ∈ schemas := by
  have hextends : p.Extends schemas (fun _ => True) q :=
    foldlM_ok Plan.Extends.refl Plan.Extends.trans
      (fun _ _ _ _ hstep => achieve_extends (fun _ _ _ _ => trivial) remaining stack trivial hstep) h
  obtain ⟨steps, -, hexec, hfirst⟩ := hextends
  refine ⟨steps, hexec, fun step hstep => ?_⟩
  obtain ⟨fact, -, hfind⟩ := hfirst step hstep
  exact List.mem_of_find?_eq_some hfind

/-- A goal that is missing after all were achieved held after its turn, so a schema undid it while a
later one was achieved. -/
theorem exists_undoes_of_achieved {goals : List String} {p q : Plan} {goal : String}
    (h : goals.foldlM (achieve schemas detect remaining stack) p = .ok q) (hgoal : goal ∈ goals)
    (hlost : q.state.contains goal = false) : ∃ schema ∈ schemas, schema.Undoes goal := by
  obtain ⟨before, after, rfl⟩ := List.append_of_mem hgoal
  rw [List.foldlM_append, bind_eq_ok_iff] at h
  obtain ⟨a, -, h⟩ := h
  rw [List.foldlM_cons, bind_eq_ok_iff] at h
  obtain ⟨b, hachieved, hlater⟩ := h
  obtain ⟨steps, hexec, hsteps⟩ := exists_executes_of_achieved hlater
  obtain ⟨step, hstep, hundoes⟩ := hexec.exists_undoes (achieve_contains hachieved) hlost
  exact ⟨step, hsteps step hstep, hundoes⟩

theorem find?_missing_eq_some {s : FactState} {facts : List String} {fact : String} :
    (facts.find? fun fact => !s.contains fact) = some fact ↔
      s.contains fact = false ∧ ∃ before after, facts = before ++ fact :: after ∧
        ∀ earlier ∈ before, s.contains earlier = true := by
  simp [List.find?_eq_some_iff_append]

end

/-! ## What a failure says -/

/-- What a failure of a planner says is so. -/
def PlanFailure.TellsTruth (initial : FactState) (goals : List String) (schemas : List Schema)
    (config : PlanConfig) : PlanFailure → Prop
  | .noApplicableAction goal =>
    Wanted schemas goals goal ∧ ∀ schema ∈ schemas, schema.adds goal = false
  | .preconditionClobbered action fact =>
    (∃ schema ∈ schemas, schema.action = action ∧ fact ∈ schema.preconditions) ∧
      ∃ schema ∈ schemas, schema.Undoes fact
  | .goalClobbered goal =>
    -- the goals were all achieved, and `goal` is the first that is missing then
    (∃ p before after, goals.foldlM (achieve schemas config.detectGoalCycles config.maxDepth [])
        ⟨[], initial⟩ = .ok p ∧ goals = before ++ goal :: after ∧
        (∀ earlier ∈ before, p.state.contains earlier = true) ∧ p.state.contains goal = false) ∧
      ∃ schema ∈ schemas, schema.Undoes goal
  | .depthExceeded depth => depth = config.maxDepth
  | .goalCycle goal =>
    config.detectGoalCycles = true ∧ ∃ schema ∈ schemas, schema.adds goal = true

section
variable {initial : FactState} {goals : List String} {schemas : List Schema} {config : PlanConfig}

theorem Call.Raises.tellsTruth {c : Call} {e : PlanFailure}
    (hc : Asked initial goals schemas config c) (h : c.Raises schemas config.detectGoalCycles e) :
    e.TellsTruth initial goals schemas config := by
  cases h with
  | goalCycle hdetect habove => exact ⟨hdetect, hc.added _ habove⟩
  | depthExceeded hspent =>
    have hdepth := hc.depth_eq
    rw [hspent] at hdepth
    exact hdepth
  | noApplicableAction hnone =>
    exact ⟨hc.wanted, fun schema hschema => by simpa using List.find?_eq_none.1 hnone schema hschema⟩
  | preconditionClobbered hchosen hachieved hmissing =>
    obtain ⟨hlost, -⟩ := find?_missing_eq_some.1 hmissing
    have hfact := List.mem_of_find?_eq_some hmissing
    exact ⟨⟨_, hchosen.mem_and_adds.1, rfl, hfact⟩,
      exists_undoes_of_achieved hachieved hfact hlost⟩

theorem plan_tellsTruth {e : PlanFailure} (h : plan initial goals schemas config = .error e) :
    e.TellsTruth initial goals schemas config := by
  rcases plan_error h with ⟨c, hc, hraises⟩ | ⟨p, goal, hachieved, hmissing, rfl⟩
  · exact hraises.tellsTruth hc
  · obtain ⟨hlost, before, after, hgoals, hearlier⟩ := find?_missing_eq_some.1 hmissing
    exact ⟨⟨p, before, after, hachieved, hgoals, hearlier, hlost⟩,
      exists_undoes_of_achieved hachieved (List.mem_of_find?_eq_some hmissing) hlost⟩

end

/-- **The failures of a planner tell the truth.** A goal that is achieved holds. What a failure says
is so; and if no schema deletes what it does not add, nothing is ever reported as undone. -/
theorem planFailure_truthful (initial : FactState) (goals : List String) (schemas : List Schema)
    (config : PlanConfig) :
    (∀ remaining stack p goal q,
      achieve schemas config.detectGoalCycles remaining stack p goal = .ok q →
        q.state.contains goal = true) ∧
    (∀ e, plan initial goals schemas config = .error e →
      e.TellsTruth initial goals schemas config) ∧
    ((∀ schema ∈ schemas, ∀ fact ∈ schema.delete, fact ∈ schema.add) →
      (∀ action fact, plan initial goals schemas config ≠
        .error (.preconditionClobbered action fact)) ∧
      ∀ goal, plan initial goals schemas config ≠ .error (.goalClobbered goal)) := by
  refine ⟨fun _ _ _ _ _ => achieve_contains, fun _ => plan_tellsTruth, fun hkeeps => ?_⟩
  have hnone : ∀ fact, ¬ ∃ schema ∈ schemas, schema.Undoes fact := by
    rintro fact ⟨schema, hschema, hdeletes, hadds⟩
    exact hadds (hkeeps schema hschema fact hdeletes)
  constructor
  · intro action fact hplan
    exact hnone fact (plan_tellsTruth hplan).2
  · intro goal hplan
    exact hnone goal (plan_tellsTruth hplan).2

/-- Renting the key spends the coin that the snack costs. -/
def snackBar : List Schema :=
  [⟨"buy snack", ["have coin", "machine unlocked"], ["have snack"], ["have coin"]⟩,
    ⟨"unlock machine", ["have key"], ["machine unlocked"], []⟩,
    ⟨"rent key", ["have coin"], ["have key"], ["have coin"]⟩]

/-- The coin that is reported is what a snack requires, and is spent; if nothing were spent, nothing
would be reported as undone. -/
theorem snackBar_truthful :
    plan ⟨["have coin"]⟩ ["have snack"] snackBar {} =
      .error (.preconditionClobbered "buy snack" "have coin") ∧
    (∃ schema ∈ snackBar, schema.action = "buy snack" ∧ "have coin" ∈ schema.preconditions) ∧
    (∃ schema ∈ snackBar, schema.Undoes "have coin") ∧
    ∀ goal, plan ⟨["have coin"]⟩ ["have snack"] (snackBar.map fun s => { s with delete := [] }) {} ≠
      .error (.goalClobbered goal) := by
  have hplan : plan ⟨["have coin"]⟩ ["have snack"] snackBar {} =
      .error (.preconditionClobbered "buy snack" "have coin") := rfl
  obtain ⟨-, htruth, -⟩ := planFailure_truthful ⟨["have coin"]⟩ ["have snack"] snackBar {}
  obtain ⟨-, -, hkept⟩ := planFailure_truthful ⟨["have coin"]⟩ ["have snack"]
    (snackBar.map fun s => { s with delete := [] }) {}
  obtain ⟨hrequires, hundoes⟩ := htruth _ hplan
  refine ⟨hplan, hrequires, hundoes, (hkept ?_).2⟩
  decide

end ProblemSolving
