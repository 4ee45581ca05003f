import ProblemSolving.Planning.MeansEnds
import ProblemSolving.World.Monkey

/-!
# Plans can be executed

* `Executes` : schemas applied one after the other, each where its preconditions hold.
* `Plan.Extends` : what a planner adds to a plan can be executed from where the plan stood.
* `achieve_ok` : how a goal is achieved.
* `plan_executes` : a plan leads from the initial state to one where every goal holds.
-/

namespace ProblemSolving

/-! ## Executions -/

/-- The schemas lead from the first state to the second, the preconditions of each one holding
where it is applied. -/
inductive Executes : FactState → List Schema → FactState → Prop
  | nil (s : FactState) : Executes s [] s
  | cons {s t : FactState} {schema : Schema} {rest : List Schema}
      (holds : ∀ fact ∈ schema.preconditions, s.contains fact = true)
      (later : Executes (s.apply schema) rest t) : Executes s (schema :: rest) t

theorem Executes.append {s t u : FactState} {before after : List Schema}
    (h : Executes s before t) (h' : Executes t after u) : Executes s (before ++ after) u := by
  induction h with
  | nil => exact h'
  | cons holds _ ih => exact .cons holds (ih h')

theorem Executes.single {s : FactState} {schema : Schema}
    (holds : ∀ fact ∈ schema.preconditions, s.contains fact = true) :
    Executes s [schema] (s.apply schema) :=
  .cons holds (.nil _)

/-! ## Plans that grow -/

/-- The facts that a planner may be asked for: the goals, and what some schema requires. -/
def Wanted (schemas : List Schema) (goals : List String) (fact : String) : Prop :=
  fact ∈ goals ∨ ∃ schema ∈ schemas, fact ∈ schema.preconditions

/-- Some schemas lead from the state of one plan to that of another, which has their actions besides;
each one is the first to add one of the facts. -/
def Plan.Extends (schemas : List Schema) (facts : String → Prop) (p q : Plan) : Prop :=
  ∃ steps : List Schema, q.actions = p.actions ++ steps.map (·.action) ∧
    Executes p.state steps q.state ∧
    ∀ step ∈ steps, ∃ fact, facts fact ∧ schemas.find? (·.adds fact) = some step

section
variable {schemas : List Schema} {facts : String → Prop} {p q r : Plan}

theorem Plan.Extends.refl (p : Plan) : p.Extends schemas facts p :=
  ⟨[], by simp, .nil _, by simp⟩

theorem Plan.Extends.trans (h : p.Extends schemas facts q) (h' : q.Extends schemas facts r) :
    p.Extends schemas facts r := by
  obtain ⟨before, hactions, hexec, hfirst⟩ := h
  obtain ⟨after, hactions', hexec', hfirst'⟩ := h'
  refine ⟨before ++ after, ?_, hexec.append hexec', ?_⟩
  · rw [hactions', hactions, List.map_append, List.append_assoc]
  · intro step hstep
    rcases List.mem_append.1 hstep with hstep | hstep
    · exact hfirst step hstep
    · exact hfirst' step hstep

/-- Applying the first schema that adds a fact, where its preconditions hold. -/
theorem Plan.extends_extend {schema : Schema} {fact : String} (hfact : facts fact)
    (hfirst : schemas.find? (·.adds fact) = some schema)
    (holds : ∀ fact ∈ schema.preconditions, p.state.contains fact = true) :
    p.Extends schemas facts (p.extend schema) := by
  refine ⟨[schema], rfl, .single holds, ?_⟩
  intro step hstep
  rw [List.mem_singleton.1 hstep]
  exact ⟨fact, hfact, hfirst⟩

end

/-! ## The planner -/

theorem bind_eq_ok_iff {ε α β : Type} {x : Except ε α} {f : α → Except ε β} {b : β} :
    x >>= f = .ok b ↔ ∃ a, x = .ok a ∧ f a = .ok b := by
  cases x with
  | error e => simp [bind, Except.bind]
  | ok a => simp [bind, Except.bind]

theorem foldlM_ok {ε α β : Type} {R : β → β → Prop} (refl : ∀ b, R b b)
    (trans : ∀ {a b c}, R a b → R b c → R a c) {f : β → α → Except ε β} {items : List α}
    (hstep : ∀ item ∈ items, ∀ {b c}, f b item = .ok c → R b c) {b c : β}
    (h : items.foldlM f b = .ok c) : R b c := by
  induction items generalizing b with
  | nil =>
    obtain rfl : b = c := Except.ok.inj h
    exact refl b
  | cons item rest ih =>
    rw [List.foldlM_cons, bind_eq_ok_iff] at h
    obtain ⟨a, hitem, hrest⟩ := h
    have hfirst := hstep item (List.mem_cons_self ..) hitem
    exact trans hfirst (ih (fun x hx => hstep x (List.mem_cons_of_mem _ hx)) hrest)

theorem find?_missing_eq_none {s : FactState} {facts : List String} :
    (facts.find? fun fact => !s.contains fact) = none ↔ ∀ fact ∈ facts, s.contains fact = true := by
  simp

variable {schemas : List Schema} {detect : Bool}

/-- A goal that is achieved held already, or the first schema that adds it was applied after all its
preconditions were achieved. -/
theorem achieve_ok {remaining : Nat} {stack : List String} {p q : Plan} {goal : String}
    (h : achieve schemas detect remaining stack p goal = .ok q) :
    (p.state.contains goal = true ∧ q = p) ∨
      ∃ left schema before, remaining = left + 1 ∧
        schemas.find? (·.adds goal) = some schema ∧
        schema.preconditions.foldlM (achieve schemas detect left (goal :: stack)) p = .ok before ∧
        (∀ fact ∈ schema.preconditions, before.state.contains fact = true) ∧
        q = before.extend schema := by
  unfold achieve at h
  split at h
  next hholds => exact .inl ⟨hholds, (Except.ok.inj h).symm⟩
  split at h
  · cases h
  split at h
  · cases h
  next left =>
  split at h
  · cases h
  next schema hfirst =>
  obtain ⟨before, hbefore, happly⟩ := bind_eq_ok_iff.1 h
  split at happly
  · cases happly
  next hmissing =>
  exact .inr ⟨left, schema, before, rfl, hfirst, hbefore, find?_missing_eq_none.1 hmissing,
    (Except.ok.inj happly).symm⟩

/-- Achieving a wanted goal extends the plan, if what a wanted schema requires is wanted too. -/
theorem achieve_extends {facts : String → Prop}
    (closed : ∀ schema ∈ schemas, ∀ fact ∈ schema.preconditions, facts fact)
    (remaining : Nat) (stack : List String) {p q : Plan} {goal : String} (hgoal : facts goal)
    (h : achieve schemas detect remaining stack p goal = .ok q) :
    p.Extends schemas facts q := by
  induction remaining generalizing stack p q goal with
  | zero =>
    rcases achieve_ok h with ⟨-, rfl⟩ | ⟨left, _, _, hleft, _⟩
    · exact .refl q
    · omega
  | succ remaining ih =>
    rcases achieve_ok h with ⟨-, rfl⟩ | ⟨left, schema, before, hleft, hfirst, hbefore, holds, rfl⟩
    · exact .refl q
    · obtain rfl : remaining = left := by omega
      have hschema : schema ∈ schemas := List.mem_of_find?_eq_some hfirst
      have hsubgoals : p.Extends schemas facts before := by
        refine foldlM_ok Plan.Extends.refl Plan.Extends.trans ?_ hbefore
        intro subgoal hsubgoal b c hstep
        exact ih (goal :: stack) (closed schema hschema subgoal hsubgoal) hstep
      exact hsubgoals.trans (Plan.extends_extend hgoal hfirst holds)

/-- A plan can be executed from the initial state and leads to a state where every goal holds. Each
of its actions is that of the first schema to add a goal or what some schema requires. -/
theorem plan_executes {initial : FactState} {goals : List String} {schemas : List Schema}
    {config : PlanConfig} {p : Plan} (h : plan initial goals schemas config = .ok p) :
    ∃ steps : List Schema, p.actions = steps.map (·.action) ∧ Executes initial steps p.state ∧
      (∀ goal ∈ goals, p.state.contains goal = true) ∧
      ∀ step ∈ steps, step ∈ schemas ∧
        ∃ fact, Wanted schemas goals fact ∧ schemas.find? (·.adds fact) = some step := by
  obtain ⟨q, hachieved, hgoals⟩ := bind_eq_ok_iff.1 h
  split at hgoals
  · cases hgoals
  next hmissing =>
  obtain rfl : q = p := Except.ok.inj hgoals
  have hextends : Plan.Extends schemas (Wanted schemas goals) ⟨[], initial⟩ q := by
    refine foldlM_ok Plan.Extends.refl Plan.Extends.trans ?_ hachieved
    intro goal hgoal b c hstep
    exact achieve_extends (fun schema hschema fact hfact => .inr ⟨schema, hschema, hfact⟩)
      config.maxDepth [] (.inl hgoal) hstep
  obtain ⟨steps, hactions, hexec, hfirst⟩ := hextends
  refine ⟨steps, hactions, hexec, find?_missing_eq_none.1 hmissing, ?_⟩
  intro step hstep
  obtain ⟨fact, hwanted, hfind⟩ := hfirst step hstep
  exact ⟨List.mem_of_find?_eq_some hfind, fact, hwanted, hfind⟩

/-- How the monkey gets at the bananas. -/
def monkeyPlan : Plan where
  actions := ["push chair from door to middle room", "climb on chair", "drop ball", "grasp bananas",
    "eat bananas"]
  state := ⟨["chair at middle room", "at bananas", "on chair", "empty handed", "not hungry"]⟩

theorem monkeyPlan_executes :
    plan monkey.initial monkey.goals monkey.schemas {} = .ok monkeyPlan ∧
      ∃ steps : List Schema, monkeyPlan.actions = steps.map (·.action) ∧
        Executes monkey.initial steps monkeyPlan.state ∧
        monkeyPlan.state.contains "not hungry" = true := by
  have hplan : plan monkey.initial monkey.goals monkey.schemas {} = .ok monkeyPlan := by rfl
  obtain ⟨steps, hactions, hexec, hgoals, -⟩ := plan_executes hplan
  exact ⟨hplan, steps, hactions, hexec, hgoals "not hungry" (List.mem_singleton_self _)⟩

end ProblemSolving
