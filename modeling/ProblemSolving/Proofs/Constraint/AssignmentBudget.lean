import ProblemSolving.Proofs.Constraint.Trials

/-!
# The assignment budget only truncates

* `BacktrackConfig.withBudget` : the same search under another budget.
* `TruncatedAt` : an outcome under a budget is the one without, unless that takes more assignments;
  then the search ended when the budget was spent.
* `attempt_truncated`, `tryValues_truncated`, `backtrack_truncated` : so it is for one value, for the
  values of a variable, and below a partial assignment.
* `backtrackingSearch_truncated` : so it is for the search of a model.
-/

namespace ProblemSolving

variable {ν : Type} {m : Model ν}

/-- The same search under another budget. -/
abbrev BacktrackConfig.withBudget (config : BacktrackConfig) (budget : Option Nat) :
    BacktrackConfig :=
  { config with maxAssignments := budget }

/-- An outcome under a budget of `n` assignments, and the outcome without one: they are the same, if
that takes no more assignments; else the search ended when the budget was spent. -/
structure TruncatedAt (n : Nat) (r free : Backtracker × BranchVerdict) : Prop where
  enough : free.1.assignments ≤ n → r = free
  spent : n < free.1.assignments → r.2 = .outOfBudget ∧ r.1.assignments = n

theorem TruncatedAt.of_le {n : Nat} {r : Backtracker × BranchVerdict} (h : r.1.assignments ≤ n) :
    TruncatedAt n r r :=
  ⟨fun _ => rfl, fun hlt => absurd h (Nat.not_le.2 hlt)⟩

theorem TruncatedAt.of_lt {n : Nat} {r free : Backtracker × BranchVerdict}
    (h : n < free.1.assignments) (hr : r.2 = .outOfBudget ∧ r.1.assignments = n) :
    TruncatedAt n r free :=
  ⟨fun hle => absurd h (Nat.not_lt.2 hle), fun _ => hr⟩

section Values
variable (config : BacktrackConfig) {n : Nat}
  {next free : Backtracker → Array (Option Nat) → Backtracker × BranchVerdict}
  (hfree : ∀ (s : Backtracker) (assigned : Array (Option Nat)), s.AtMost (free s assigned).1)
  (hnext : ∀ (s : Backtracker) (assigned : Array (Option Nat)), s.assignments ≤ n →
    TruncatedAt n (next s assigned) (free s assigned))
  (assigned : Array (Option Nat)) (v : Nat)
include hnext

/-- A value that the budget allows to try. -/
theorem attempt_truncated (s : Backtracker) (ix : Nat) (hs : s.assignments < n) :
    TruncatedAt n (attempt m (config.withBudget (some n)) next assigned v s ix)
      (attempt m (config.withBudget none) free assigned v s ix) := by
  unfold attempt
  dsimp only
  split
  · exact hnext _ _ hs
  · exact .of_le hs
  · exact .of_le hs
  · exact .of_le hs

include hfree

/-- A value that is tried without a budget leads to the same under one, unless it takes more
assignments than are left: then the search ends when they are spent. -/
theorem tryValues_cons_truncated {ix : Nat} {s : Backtracker}
    (ht : Tries m (config.withBudget none) assigned v s ix) (hs : s.assignments ≤ n)
    (rest : List Nat) :
    (Tries m (config.withBudget (some n)) assigned v s ix ∧
      (attempt m (config.withBudget none) free assigned v s ix).1.assignments ≤ n ∧
      attempt m (config.withBudget (some n)) next assigned v s ix =
        attempt m (config.withBudget none) free assigned v s ix) ∨
    (n < (attempt m (config.withBudget none) free assigned v s ix).1.assignments ∧
      (tryValues m (config.withBudget (some n)) next assigned v s (ix :: rest)).2 = .outOfBudget ∧
      (tryValues m (config.withBudget (some n)) next assigned v s (ix :: rest)).1.assignments
        = n) := by
  rcases Nat.lt_or_eq_of_le hs with hlt | heq
  · have ht' : Tries m (config.withBudget (some n)) assigned v s ix :=
      ⟨ht.decided, ht.free, by simpa using hlt⟩
    have hattempt := attempt_truncated (m := m) config hnext assigned v s ix hlt
    by_cases hle : (attempt m (config.withBudget none) free assigned v s ix).1.assignments ≤ n
    · exact .inl ⟨ht', hle, hattempt.enough hle⟩
    · have hlonger := Nat.not_le.1 hle
      obtain ⟨hverdict, hspent⟩ := hattempt.spent hlonger
      rw [tryValues_of_decided rest ht' (by simp [hverdict])]
      exact .inr ⟨hlonger, hverdict, hspent⟩
  · have hspent : (config.withBudget (some n)).maxAssignments.any (· ≤ s.assignments) = true := by
      simpa using heq.ge
    have hmore := attempt_atMost (m := m) (config.withBudget none) hfree assigned v s ix s.domains
    rw [tryValues_of_spent rest ht.decided ht.free hspent]
    exact .inr ⟨heq ▸ hmore.assignments, rfl, heq⟩

/-- The induction is over the values as the search without a budget tries them. It carries along that
assignments are only added: where a value is cut off, all that comes after it is above the budget. -/
theorem tryValues_truncated (places : List Nat) (s : Backtracker) (hs : s.assignments ≤ n) :
    TruncatedAt n (tryValues m (config.withBudget (some n)) next assigned v s places)
      (tryValues m (config.withBudget none) free assigned v s places) := by
  have hattempt : ∀ s ix, s.assignments ≤
      (attempt m (config.withBudget none) free assigned v s ix).1.assignments := fun s ix =>
    (Nat.le_succ _).trans (attempt_atMost _ hfree assigned v s ix s.domains).assignments
  refine (tryValues_induct (q := fun s places r => s.assignments ≤ r.1.assignments ∧
    (s.assignments ≤ n → TruncatedAt n
      (tryValues m (config.withBudget (some n)) next assigned v s places) r))
    ?none ?undecided ?pass ?spent ?failed ?decided places s).2 hs
  case none =>
    intro s
    rw [tryValues]
    exact ⟨Nat.le_refl _, fun hs => .of_le hs⟩
  case undecided =>
    intro s ix rest hcan
    rw [tryValues_undecided rest hcan]
    exact ⟨Nat.le_refl _, fun hs => .of_le hs⟩
  case pass =>
    intro s ix rest r hcan hconflicts ih
    rw [tryValues_pass rest hcan hconflicts]
    exact ih
  case spent =>
    intro s ix rest hspent
    cases hspent
  case failed =>
    intro s ix rest after r ht hfailed ih
    obtain ⟨hless, ih⟩ := ih
    have hafter := hattempt s ix
    have hcases := fun hs => tryValues_cons_truncated config hfree hnext assigned v ht hs rest
    rw [hfailed] at hafter hcases
    refine ⟨hafter.trans hless, fun hs => ?_⟩
    rcases hcases hs with ⟨ht', hle, hsame⟩ | ⟨hlonger, hcut⟩
    · rw [tryValues_of_failed rest ht' hsame]
      exact ih hle
    · exact .of_lt (hlonger.trans_le hless) hcut
  case decided =>
    intro s ix rest ht hdecided
    refine ⟨hattempt s ix, fun hs => ?_⟩
    rcases tryValues_cons_truncated config hfree hnext assigned v ht hs rest with
      ⟨ht', hle, hsame⟩ | ⟨hlonger, hcut⟩
    · rw [tryValues_of_decided rest ht' (hsame ▸ hdecided), hsame]
      exact .of_le hle
    · exact .of_lt hlonger hcut

end Values

theorem backtrack_truncated (config : BacktrackConfig) {n : Nat} :
    ∀ (left : Nat) (s : Backtracker) (assigned : Array (Option Nat)), s.assignments ≤ n →
      TruncatedAt n (backtrack m (config.withBudget (some n)) left s assigned)
        (backtrack m (config.withBudget none) left s assigned)
  | 0, _, _, hs => .of_le hs
  | left + 1, s, assigned, hs => by
    rw [backtrack, backtrack]
    split
    · exact .of_le hs
    · dsimp only
      cases selectVariable? m config.variableOrder s.domains assigned with
      | none => exact .of_le hs
      | some v =>
        dsimp only
        split
        · exact .of_le hs
        · exact tryValues_truncated config (backtrack_atMost _ left)
            (backtrack_truncated config left) assigned v _ s hs

/-- **A budget of assignments only truncates a search.** If it is no less than what the search takes
without one, it changes nothing: neither how the search ends nor anything that is counted. If it is
less, it ends the search, after just so many assignments. -/
theorem backtrackingSearch_truncated (m : Model ν) (config : BacktrackConfig) (limit : Nat) :
    let free := backtrackingSearch m { config with maxAssignments := none }
    let limited := backtrackingSearch m { config with maxAssignments := some limit }
    (free.stats.assignments ≤ limit → limited = free) ∧
      (limit < free.stats.assignments →
        limited.solution = .budgetExceeded ∧ limited.stats.assignments = limit) := by
  have h := backtrack_truncated (m := m) config m.size ⟨.full m, 0, 0⟩
    (Array.replicate m.size none) (Nat.zero_le limit)
  unfold backtrackingSearch
  unfold BacktrackConfig.withBudget at h
  refine ⟨fun hle => ?_, fun hlt => ?_⟩
  · rw [h.enough hle]
  · obtain ⟨hverdict, hspent⟩ := h.spent hlt
    dsimp only
    rw [hverdict]
    exact ⟨rfl, hspent⟩

/-- To find out that two colours do not suffice for a triangle takes four assignments; with fewer the
search does not get there. -/
theorem twoColouredTriangle_truncated :
    (backtrackingSearch twoColouredTriangle { maxAssignments := some 4 }).solution
        = .unsatisfiable ∧
      ∀ limit < 4,
        (backtrackingSearch twoColouredTriangle { maxAssignments := some limit }).solution
            = .budgetExceeded ∧
          (backtrackingSearch twoColouredTriangle { maxAssignments := some limit }).stats.assignments
            = limit := by
  have hfree : (backtrackingSearch twoColouredTriangle {}).solution = .unsatisfiable := by cbv
  have hfour : (backtrackingSearch twoColouredTriangle {}).stats.assignments = 4 := by cbv
  refine ⟨?_, fun limit hlimit => ?_⟩
  · rw [(backtrackingSearch_truncated twoColouredTriangle {} 4).1 hfour.le]
    exact hfree
  · exact (backtrackingSearch_truncated twoColouredTriangle {} limit).2 (hfour.ge.trans_lt' hlimit)

end ProblemSolving
