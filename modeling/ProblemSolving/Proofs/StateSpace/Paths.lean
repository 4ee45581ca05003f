import ProblemSolving.StateSpace.Path

/-!
# Paths and reachable states

* `Problem.Path.append`, `Problem.Path.concat`, `Problem.costFrom_append` : paths and their costs,
  put together.
* `Problem.Path.replay` : a path leads to the state that its actions are replayed to.
* `Problem.Reachable.step`, `Problem.Reachable.closed` : the reachable states are the least set
  with the initial state that is closed under the actions.
* `Problem.Attained` : a cost at which a state can be reached.
-/

namespace ProblemSolving

namespace Problem

variable {σ α κ : Type} {P : Problem σ α κ}

/-! ## Paths put together -/

theorem Path.append {s t u : σ} {as bs : List α} (h : P.Path s as t) (h' : P.Path t bs u) :
    P.Path s (as ++ bs) u := by
  induction h with
  | nil => exact h'
  | cons legal _ ih => exact .cons legal (ih h')

theorem Path.concat {s t : σ} {as : List α} {a : α} (h : P.Path s as t) (ha : a ∈ P.actions t) :
    P.Path s (as ++ [a]) (P.result t a) :=
  h.append (.cons ha (.nil _))

theorem costFrom_append {s t : σ} {as : List α} (h : P.Path s as t) (bs : List α) (c : κ) :
    P.costFrom c s (as ++ bs) = P.costFrom (P.costFrom c s as) t bs := by
  induction h generalizing c with
  | nil => rfl
  | cons _ _ ih => exact ih _

theorem Path.foldl_result {s t : σ} {as : List α} (h : P.Path s as t) :
    as.foldl P.result s = t := by
  induction h with
  | nil => rfl
  | cons _ _ ih => exact ih

theorem Path.replay {s : σ} {as : List α} (h : P.Path P.initial as s) : P.replay as = s :=
  h.foldl_result

/-! ## Reachable states -/

theorem Reachable.step {s : σ} {a : α} (h : P.Reachable s) (ha : a ∈ P.actions s) :
    P.Reachable (P.result s a) := by
  obtain ⟨as, has⟩ := h
  exact ⟨as ++ [a], has.concat ha⟩

theorem Reachable.path {s t : σ} {as : List α} (h : P.Reachable s) (hp : P.Path s as t) :
    P.Reachable t := by
  obtain ⟨bs, hbs⟩ := h
  exact ⟨bs ++ as, hbs.append hp⟩

/-- A path stays in every set that is closed under the actions. -/
theorem Path.closed {S : σ → Prop} (step : ∀ s, S s → ∀ a ∈ P.actions s, S (P.result s a))
    {s t : σ} {as : List α} (hp : P.Path s as t) (hs : S s) : S t := by
  induction hp with
  | nil => exact hs
  | cons legal _ ih => exact ih (step _ hs _ legal)

/-- A set with the initial state that is closed under the actions holds every reachable state. -/
theorem Reachable.closed {S : σ → Prop} (initial : S P.initial)
    (step : ∀ s, S s → ∀ a ∈ P.actions s, S (P.result s a)) {s : σ} (h : P.Reachable s) : S s := by
  obtain ⟨as, hp⟩ := h
  exact hp.closed step initial

/-! ## Attained costs -/

/-- Some legal actions lead from the initial state to this one, at this cost. -/
def Attained [Scalar κ] (P : Problem σ α κ) (s : σ) (c : κ) : Prop :=
  ∃ as, P.Path P.initial as s ∧ P.totalCost as = c

variable [Scalar κ]

theorem attained_initial : P.Attained P.initial 0 := ⟨[], .nil _, rfl⟩

theorem Attained.step {s : σ} {c : κ} {a : α} (h : P.Attained s c) (ha : a ∈ P.actions s) :
    P.Attained (P.result s a) (P.pathCost c s a (P.result s a)) := by
  obtain ⟨as, hp, rfl⟩ := h
  exact ⟨as ++ [a], hp.concat ha, costFrom_append hp [a] 0⟩

theorem Attained.reachable {s : σ} {c : κ} (h : P.Attained s c) : P.Reachable s := by
  obtain ⟨as, hp, -⟩ := h
  exact ⟨as, hp⟩

end Problem

end ProblemSolving
