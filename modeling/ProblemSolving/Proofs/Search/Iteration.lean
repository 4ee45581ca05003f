import ProblemSolving.Proofs.Search.Rounds
import ProblemSolving.Proofs.Search.Turns

/-!
# Searches as iterations under a budget

The loop of tree and graph search and that of best-first search differ in what a round does, not in
how rounds follow each other. What two searches, or two budgets, have in common is proved of rounds.

* `Iteration` : how a search ends when nothing waits, how when its budget is spent, and what a round
  comes to; `Iteration.run` : its rounds, so many at most.
* `Iteration.run_related` : if related states end alike and go on to related states, so do the runs.
* `Iteration.run_map` : what is done to every state alike is done to the outcome.
* `Iteration.run_ends` : the last round of a run; `Iteration.After.run_add` : its first rounds.
* `Exploration.explore_eq_run`, `BestFirst.loop_eq_run` : the two loops are iterations, of the rounds
  and turns, and the last ones, that their invariants speak of;
  `Exploration.iteration_congr`, `BestFirst.iteration_congr` : what they ask of a policy.
-/

namespace ProblemSolving

/-- A search by rounds over states `S`, with outcomes `R`. -/
structure Iteration (S R : Type) where
  /-- The outcome when nothing waits, which is asked before the budget is. -/
  ended? : S → Option R
  /-- The outcome when the budget is spent. -/
  stopped : S → R
  /-- What a round comes to: the outcome, or the state after it. -/
  advance : S → R ⊕ S

namespace Iteration

variable {S T R R' : Type}

/-- The outcome from a state on, with `left` rounds to go. -/
def run (it : Iteration S R) : (left : Nat) → S → R
  | left, s =>
    match it.ended? s with
    | some r => r
    | none =>
      match left with
      | 0 => it.stopped s
      | left + 1 =>
        match it.advance s with
        | .inl r => r
        | .inr s' => it.run left s'

section
variable {it : Iteration S R} {s s' : S} {r : R} {left : Nat}

theorem run_of_ended (h : it.ended? s = some r) (left : Nat) : it.run left s = r := by
  unfold run
  rw [h]

theorem run_zero (h : it.ended? s = none) : it.run 0 s = it.stopped s := by
  unfold run
  rw [h]

theorem run_of_inl (h : it.ended? s = none) (hs : it.advance s = .inl r) (left : Nat) :
    it.run (left + 1) s = r := by
  unfold run
  rw [h, hs]

theorem run_of_inr (h : it.ended? s = none) (hs : it.advance s = .inr s') (left : Nat) :
    it.run (left + 1) s = it.run left s' := by
  rw [run, h, hs]

end

/-! ## Two iterations side by side -/

/-- Related states that end alike, are stopped alike, and go on alike, lead to related outcomes. The
relation may speak of the number of rounds that are left. -/
theorem run_related {it : Iteration S R} {it' : Iteration T R'} {outcomes : R → R' → Prop}
    (related : Nat → S → T → Prop)
    (ended : ∀ {left s t}, related left s t → Option.Rel outcomes (it.ended? s) (it'.ended? t))
    (stopped : ∀ {s t}, related 0 s t → outcomes (it.stopped s) (it'.stopped t))
    (advance : ∀ {left s t}, related (left + 1) s t → it.ended? s = none →
      Sum.LiftRel outcomes (related left) (it.advance s) (it'.advance t))
    (left : Nat) {s : S} {t : T} (h : related left s t) :
    outcomes (it.run left s) (it'.run left t) := by
  induction left generalizing s t with
  | zero =>
    have hended := ended h
    generalize hs : it.ended? s = x, ht : it'.ended? t = y at hended
    cases hended with
    | some hr => rwa [run_of_ended hs, run_of_ended ht]
    | none =>
      rw [run_zero hs, run_zero ht]
      exact stopped h
  | succ left ih =>
    have hended := ended h
    generalize hs : it.ended? s = x, ht : it'.ended? t = y at hended
    cases hended with
    | some hr => rwa [run_of_ended hs, run_of_ended ht]
    | none =>
      have hadvance := advance h hs
      generalize hs' : it.advance s = x, ht' : it'.advance t = y at hadvance
      cases hadvance with
      | inl hr => rwa [run_of_inl hs hs', run_of_inl ht ht']
      | inr hnext =>
        rw [run_of_inr hs hs', run_of_inr ht ht']
        exact ih hnext

/-- What is done to a state may as well be done to the outcome, if every round lets it pass. -/
theorem run_map {it : Iteration S R} {it' : Iteration T R'} (state : S → T) (outcome : R → R')
    (ended : ∀ s, it'.ended? (state s) = (it.ended? s).map outcome)
    (stopped : ∀ s, it'.stopped (state s) = outcome (it.stopped s))
    (advance : ∀ s, it'.advance (state s) = (it.advance s).map outcome state) (left : Nat) (s : S) :
    it'.run left (state s) = outcome (it.run left s) := by
  induction left generalizing s with
  | zero =>
    have hended := ended s
    cases hs : it.ended? s with
    | some r =>
      rw [hs] at hended
      rw [run_of_ended hs, run_of_ended hended]
    | none =>
      rw [hs] at hended
      rw [run_zero hs, run_zero hended, stopped]
  | succ left ih =>
    have hended := ended s
    cases hs : it.ended? s with
    | some r =>
      rw [hs] at hended
      rw [run_of_ended hs, run_of_ended hended]
    | none =>
      rw [hs] at hended
      have hadvance := advance s
      cases hs' : it.advance s with
      | inl r =>
        rw [hs'] at hadvance
        rw [run_of_inl hs hs', run_of_inl hended hadvance]
      | inr s' =>
        rw [hs'] at hadvance
        rw [run_of_inr hs hs', run_of_inr hended hadvance, ih]

/-! ## The rounds of one iteration -/

/-- So many rounds lead from one state to another. -/
inductive After (it : Iteration S R) : Nat → S → S → Prop
  | refl (s : S) : After it 0 s s
  | round {s s' s'' : S} {n : Nat} (open? : it.ended? s = none) (advance : it.advance s = .inr s')
      (later : After it n s' s'') : After it (n + 1) s s''

/-- How a run ends that has come to this state with so many rounds to go. -/
inductive Last (it : Iteration S R) : (left : Nat) → S → R → Prop
  | ended {s : S} {r : R} {left : Nat} (h : it.ended? s = some r) : Last it left s r
  | stopped {s : S} (h : it.ended? s = none) : Last it 0 s (it.stopped s)
  | advance {s : S} {r : R} {left : Nat} (h : it.ended? s = none) (hs : it.advance s = .inl r) :
      Last it (left + 1) s r

section
variable {it : Iteration S R}

/-- Every run has a last round. -/
theorem run_ends (it : Iteration S R) (left : Nat) (s : S) :
    ∃ n left' s', left = n + left' ∧ it.After n s s' ∧ it.Last left' s' (it.run left s) := by
  induction left generalizing s with
  | zero =>
    refine ⟨0, 0, s, rfl, .refl s, ?_⟩
    cases hs : it.ended? s with
    | some r => exact .ended (by rw [hs, run_of_ended hs])
    | none => exact (run_zero hs) ▸ .stopped hs
  | succ left ih =>
    cases hs : it.ended? s with
    | some r =>
      exact ⟨0, left + 1, s, (Nat.zero_add _).symm, .refl s, .ended (by rw [hs, run_of_ended hs])⟩
    | none =>
      cases hs' : it.advance s with
      | inl r =>
        refine ⟨0, left + 1, s, (Nat.zero_add _).symm, .refl s, .advance hs ?_⟩
        rw [hs', run_of_inl hs hs']
      | inr next =>
        obtain ⟨n, left', s', hleft, hafter, hlast⟩ := ih next
        refine ⟨n + 1, left', s', by omega, .round hs hs' hafter, ?_⟩
        rwa [run_of_inr hs hs']

/-- The rounds that were made are no longer to be made. -/
theorem After.run_add {n : Nat} {s s' : S} (h : it.After n s s') (left : Nat) :
    it.run (n + left) s = it.run left s' := by
  induction h with
  | refl => rw [Nat.zero_add]
  | round hs hs' _ ih => rw [Nat.add_right_comm, run_of_inr hs hs', ih]

end

end Iteration

/-! ## Tree and graph search -/

section
variable {σ α κ μ : Type} {δ : Type → Type} [Discipline δ κ] [Scalar κ] {P : Problem σ α κ}
  {policy : TimedPolicy} {memory : Memory σ μ} {algorithm : String}

/-- The rounds of a tree or graph search. -/
def Exploration.iteration (P : Problem σ α κ) (policy : TimedPolicy) (memory : Memory σ μ)
    (algorithm : String) : Iteration (Exploration σ α κ μ δ) (Result σ α κ) where
  ended? s :=
    if s.frontier.size κ = 0 then some (s.noted.finish algorithm s.noted.exhausted) else none
  stopped s := s.noted.finish algorithm .expansionBudgetExceeded
  advance s :=
    if policy.timeIsUp s.noted.stats.expansions then
      .inl (s.noted.finish algorithm .timeBudgetExceeded)
    else match s.frontier.pop? κ with
    | none => .inl (s.noted.finish algorithm s.noted.exhausted)
    | some (here, rest) =>
      if P.isGoal here.node.state then .inl (s.noted.finish algorithm (.goalReached here.id))
      else match s.noted.expand P here here.node.cost with
      | (run, .error violation) => .inl (run.finish algorithm (.contractViolation violation))
      | (run, .ok kids) =>
        .inr (afterOffers run (Horizon.offer policy memory kids ⟨run.stats, rest, s.memory⟩))

omit [Scalar κ] in
theorem Horizon.offer_congr {policy' : TimedPolicy} (hdepth : policy.maxDepth = policy'.maxDepth)
    (memory : Memory σ μ) (kids : List (Placed σ α κ)) (h : Horizon σ α κ μ δ) :
    offer policy memory kids h = offer policy' memory kids h := by
  fun_induction offer policy memory kids h with
  | case1 => rfl
  | case2 kid rest stats frontier seen hdeep ih => rw [ih, offer, if_pos (hdepth ▸ hdeep)]
  | case3 kid rest stats frontier seen hdeep seen' htake ih =>
    rw [ih, offer, if_neg (hdepth ▸ hdeep), htake]
  | case4 kid rest stats frontier seen hdeep seen' htake ih =>
    rw [ih, offer, if_neg (hdepth ▸ hdeep), htake]

/-- Rounds ask a policy for its depth and its time alone. -/
theorem Exploration.iteration_congr {policy' : TimedPolicy}
    (hdepth : policy.maxDepth = policy'.maxDepth) (htime : policy.timeIsUp = policy'.timeIsUp) :
    (iteration P policy memory algorithm : Iteration (Exploration σ α κ μ δ) _) =
      iteration P policy' memory algorithm := by
  unfold iteration
  simp only [htime, Horizon.offer_congr hdepth]

theorem Exploration.explore_of_open {s : Exploration σ α κ μ δ} (hopen : s.frontier.size κ ≠ 0)
    (left : Nat) : explore P policy memory algorithm (left + 1) s.run s.frontier s.memory =
      match (iteration P policy memory algorithm).advance s with
      | .inl r => r
      | .inr s' => explore P policy memory algorithm left s'.run s'.frontier s'.memory := by
  rw [explore, if_neg hopen]
  unfold iteration noted
  dsimp only
  split
  · rfl
  cases s.frontier.pop? κ with
  | none => rfl
  | some popped =>
    obtain ⟨here, rest⟩ := popped
    dsimp only
    split
    · rfl
    cases Run.expand P (s.run.noteHighWater s.frontier.highWater) here here.node.cost with
    | mk run outcome => cases outcome <;> rfl

theorem Exploration.explore_eq_run (left : Nat) (s : Exploration σ α κ μ δ) :
    explore P policy memory algorithm left s.run s.frontier s.memory =
      (iteration P policy memory algorithm).run left s := by
  induction left generalizing s with
  | zero =>
    rw [explore]
    unfold Iteration.run
    dsimp only [iteration]
    split <;> rfl
  | succ left ih =>
    by_cases hopen : s.frontier.size κ = 0
    · rw [Iteration.run_of_ended (if_pos hopen), explore, if_pos hopen]
      rfl
    · rw [explore_of_open hopen]
      cases hs : (iteration P policy memory algorithm).advance s with
      | inl r => rw [Iteration.run_of_inl (if_neg hopen) hs]
      | inr s' => rw [Iteration.run_of_inr (if_neg hopen) hs, ← ih]

theorem Exploration.round_of_inr {s s' : Exploration σ α κ μ δ}
    (h : (iteration P policy memory algorithm).advance s = .inr s') :
    ∃ here rest run kids, Round P policy memory s here rest run kids s' := by
  dsimp only [iteration] at h
  split at h
  · cases h
  split at h
  · cases h
  next hpop =>
  split at h
  · cases h
  next hgoal =>
  split at h
  · cases h
  next hexpand =>
  cases h
  exact ⟨_, _, _, _, hpop, eq_false_of_ne_true hgoal, hexpand, rfl⟩

/-- A pass that does not go on is the last one, and not for want of rounds. -/
theorem Exploration.ends_of_inl {s : Exploration σ α κ μ δ} {r : Result σ α κ}
    (h : (iteration P policy memory algorithm).advance s = .inl r) :
    Ends P s algorithm r ∧ r.termination ≠ .expansionBudgetExceeded := by
  dsimp only [iteration] at h
  split at h
  · cases h
    exact ⟨.stopped _ (.inr rfl), by simp⟩
  split at h
  next hpop =>
    cases h
    exact ⟨.emptied (.inr hpop), Run.exhausted_ne_expansionBudgetExceeded⟩
  next hpop =>
  split at h
  next hgoal =>
    cases h
    exact ⟨.goal hpop hgoal, by simp⟩
  split at h
  next hexpand =>
    cases h
    exact ⟨.expansion hpop hexpand, by simp⟩
  next => cases h

theorem Exploration.eq_of_ended {s : Exploration σ α κ μ δ} {r : Result σ α κ}
    (h : (iteration P policy memory algorithm).ended? s = some r) :
    s.frontier.size κ = 0 ∧ r = s.noted.finish algorithm s.noted.exhausted := by
  dsimp only [iteration] at h
  split at h
  next hempty =>
    cases h
    exact ⟨hempty, rfl⟩
  next => cases h

/-- The budget of a policy is the number of rounds, and nothing else. -/
theorem exploreFromRoot_eq_run (P : Problem σ α κ) (policy : TimedPolicy) (memory : Memory σ μ)
    (algorithm : String) (left : Nat) :
    exploreFromRoot δ P { policy with maxExpansions := left } memory algorithm =
      (Exploration.iteration P policy memory algorithm).run left
        (Exploration.start δ P policy memory) := by
  have hcongr : (Exploration.iteration P { policy with maxExpansions := left } memory algorithm :
      Iteration (Exploration σ α κ μ δ) _) = Exploration.iteration P policy memory algorithm :=
    Exploration.iteration_congr rfl rfl
  rw [← hcongr]
  exact Exploration.explore_eq_run left (Exploration.start δ P policy memory)

end

/-! ## Best-first search -/

section
variable {σ α κ : Type} [Scalar κ] [BEq σ] [Hashable σ] {P : Problem σ α κ}
  {eval : Evaluation σ α κ} {reopening : Reopening} {policy : TimedPolicy} {algorithm : String}

/-- The rounds of a best-first search. -/
def BestFirst.iteration (P : Problem σ α κ) (eval : Evaluation σ α κ) (reopening : Reopening)
    (policy : TimedPolicy) (algorithm : String) : Iteration (BestFirst σ α κ) (Result σ α κ) where
  ended? s :=
    if s.opened.isEmpty then some (s.noted.finish algorithm s.noted.exhausted) else none
  stopped s := s.noted.finish algorithm .expansionBudgetExceeded
  advance s :=
    if policy.timeIsUp s.noted.stats.expansions then
      .inl (s.noted.finish algorithm .timeBudgetExceeded)
    else match s.next? with
    | none => .inl (s.noted.finish algorithm s.noted.exhausted)
    | some (here, f, rest) =>
      if P.isGoal here.node.state then .inl (s.noted.finish algorithm (.goalReached here.id))
      else match s.noted.expand P here f with
      | (run, .error violation) => .inl (run.finish algorithm (.contractViolation violation))
      | (run, .ok kids) =>
        match offerAll eval reopening policy (s.close here rest run) kids with
        | (s', some violation) => .inl (s'.run.finish algorithm (.contractViolation violation))
        | (s', none) => .inr s'

theorem BestFirst.offerAll_congr {policy' : TimedPolicy}
    (hdepth : policy.maxDepth = policy'.maxDepth)
    (s : BestFirst σ α κ) (kids : List (Placed σ α κ)) :
    offerAll eval reopening policy s kids = offerAll eval reopening policy' s kids := by
  fun_induction offerAll eval reopening policy s kids with
  | case1 => rfl
  | case2 s kid rest hdeep ih => rw [ih, offerAll, if_pos (hdepth ▸ hdeep)]
  | case3 s kid rest hdeep violation heval => rw [offerAll, if_neg (hdepth ▸ hdeep), heval]
  | case4 s kid rest hdeep f heval ih => rw [ih, offerAll, if_neg (hdepth ▸ hdeep), heval]

/-- Rounds ask a policy for its depth and its time alone. -/
theorem BestFirst.iteration_congr {policy' : TimedPolicy}
    (hdepth : policy.maxDepth = policy'.maxDepth) (htime : policy.timeIsUp = policy'.timeIsUp) :
    iteration P eval reopening policy algorithm =
      iteration P eval reopening policy' algorithm := by
  unfold iteration
  simp only [htime, offerAll_congr hdepth]

theorem BestFirst.loop_of_open {s : BestFirst σ α κ} (hopen : ¬ s.opened.isEmpty = true)
    (left : Nat) : loop P eval reopening policy algorithm (left + 1) s =
      match (iteration P eval reopening policy algorithm).advance s with
      | .inl r => r
      | .inr s' => loop P eval reopening policy algorithm left s' := by
  rw [loop, if_neg hopen]
  unfold iteration noted next? close
  dsimp only
  split
  · rfl
  cases popLive? s.opened (s.frontier.size κ) s.frontier with
  | none => rfl
  | some popped =>
    obtain ⟨here, f, rest⟩ := popped
    dsimp only
    split
    · rfl
    cases Run.expand P (s.run.noteHighWater s.frontier.highWater) here f with
    | mk run outcome =>
    cases outcome with
    | error violation => rfl
    | ok kids =>
    dsimp only
    cases offerAll eval reopening policy ⟨run, rest, s.opened.erase here.node.state,
      s.closed.insert here.node.state here.node.cost⟩ kids with
    | mk s' violation? => cases violation? <;> rfl

theorem BestFirst.loop_eq_run (left : Nat) (s : BestFirst σ α κ) :
    loop P eval reopening policy algorithm left s =
      (iteration P eval reopening policy algorithm).run left s := by
  induction left generalizing s with
  | zero =>
    rw [loop]
    unfold Iteration.run
    dsimp only [iteration]
    split <;> rfl
  | succ left ih =>
    by_cases hopen : s.opened.isEmpty = true
    · rw [Iteration.run_of_ended (if_pos hopen), loop, if_pos hopen]
      rfl
    · rw [loop_of_open hopen]
      cases hs : (iteration P eval reopening policy algorithm).advance s with
      | inl r => rw [Iteration.run_of_inl (if_neg hopen) hs]
      | inr s' => rw [Iteration.run_of_inr (if_neg hopen) hs, ← ih]

theorem BestFirst.turn_of_inr {s s' : BestFirst σ α κ}
    (h : (iteration P eval reopening policy algorithm).advance s = .inr s') :
    ∃ here f rest run kids, Turn P eval reopening policy s here f rest run kids s' := by
  dsimp only [iteration] at h
  split at h
  · cases h
  split at h
  · cases h
  next hnext =>
  split at h
  · cases h
  next hgoal =>
  split at h
  · cases h
  next hexpand =>
  split at h
  · cases h
  next hoffers =>
  cases h
  exact ⟨_, _, _, _, _, hnext, eq_false_of_ne_true hgoal, hexpand, hoffers⟩

theorem BestFirst.ends_of_inl {s : BestFirst σ α κ} {r : Result σ α κ}
    (h : (iteration P eval reopening policy algorithm).advance s = .inl r) :
    Ends P eval reopening policy s algorithm r ∧
      r.termination ≠ .expansionBudgetExceeded := by
  dsimp only [iteration] at h
  split at h
  next htime =>
    cases h
    exact ⟨.stopped _ (.inr ⟨htime, rfl⟩), by simp⟩
  split at h
  next hnext =>
    cases h
    exact ⟨.emptied (.inr hnext), Run.exhausted_ne_expansionBudgetExceeded⟩
  next hnext =>
  split at h
  next hgoal =>
    cases h
    exact ⟨.goal hnext hgoal, by simp⟩
  split at h
  next hexpand =>
    cases h
    exact ⟨.expansion hnext hexpand, by simp⟩
  next hexpand =>
  split at h
  next hoffers =>
    cases h
    exact ⟨.evaluation hnext hexpand hoffers, by simp⟩
  next => cases h

theorem BestFirst.eq_of_ended {s : BestFirst σ α κ} {r : Result σ α κ}
    (h : (iteration P eval reopening policy algorithm).ended? s = some r) :
    s.opened.isEmpty = true ∧ r = s.noted.finish algorithm s.noted.exhausted := by
  dsimp only [iteration] at h
  split at h
  next hempty =>
    cases h
    exact ⟨hempty, rfl⟩
  next => cases h

/-- The budget of a policy is the number of rounds, and nothing else. -/
theorem BestFirst.bestFirst_eq_run {f : κ} (algorithm : String)
    (heval : eval (SearchTree.rootNode P.initial) = .ok f) (left : Nat) :
    bestFirst P eval reopening { policy with maxExpansions := left } algorithm =
      (iteration P eval reopening policy algorithm).run left
        ((fresh (Run.start P policy).1).enter (Run.start P policy).2 f) := by
  have hcongr : iteration P eval reopening { policy with maxExpansions := left } algorithm =
      iteration P eval reopening policy algorithm := iteration_congr rfl rfl
  rw [bestFirst_eq_loop algorithm heval, loop_eq_run, hcongr]
  rfl

end

end ProblemSolving
