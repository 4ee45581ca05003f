import ProblemSolving.Proofs.Constraint.Backtracking

/-!
# The values of a variable, one after the other

* `Tries` : a value is neither undecided nor in conflict, and the budget is not spent.
* `tryValues_undecided`, `tryValues_pass`, `tryValues_of_spent`, `tryValues_of_failed`,
  `tryValues_of_decided` : what comes of a value.
* `tryValues_induct` : induction over the values that are tried.
* `Backtracker.AtMost` : no more assignments and backtracks; searching on only adds to them
  (`attempt_atMost`, `tryValues_atMost`, `backtrack_atMost`).
-/

namespace ProblemSolving

variable {ν : Type} {m : Model ν}

/-- A search with the domains as they were. -/
def Backtracker.undoneTo (s : Backtracker) (d : Domains) : Backtracker :=
  { s with domains := s.domains.undoTo d.checkpoint }

/-- A value is tried: it is decided to be in no conflict, and the budget is not spent. -/
structure Tries (m : Model ν) (config : BacktrackConfig) (assigned : Array (Option Nat)) (v : Nat)
    (s : Backtracker) (ix : Nat) : Prop where
  decided : m.canCount assigned v ix = true
  free : m.conflictsAt assigned v ix = 0
  unspent : config.maxAssignments.any (· ≤ s.assignments) = false

section Values
variable {config : BacktrackConfig}
  {next : Backtracker → Array (Option Nat) → Backtracker × BranchVerdict}
  {assigned : Array (Option Nat)} {v ix : Nat} {s after : Backtracker} (rest : List Nat)

/-- A value of which it is undecided whether it is in conflict ends the search. -/
theorem tryValues_undecided (hcan : m.canCount assigned v ix = false) :
    tryValues m config next assigned v s (ix :: rest) = (s, .undefined) := by
  rw [tryValues_cons, hcan, if_pos (by decide)]

/-- A value in conflict is passed over. -/
theorem tryValues_pass (hcan : m.canCount assigned v ix = true)
    (hconflicts : m.conflictsAt assigned v ix ≠ 0) :
    tryValues m config next assigned v s (ix :: rest) =
      tryValues m config next assigned v s rest := by
  rw [tryValues_cons, hcan, if_neg (by decide), if_pos hconflicts]

/-- A value is not tried once the budget is spent. -/
theorem tryValues_of_spent (hcan : m.canCount assigned v ix = true)
    (hfree : m.conflictsAt assigned v ix = 0)
    (hspent : config.maxAssignments.any (· ≤ s.assignments) = true) :
    tryValues m config next assigned v s (ix :: rest) = (s, .outOfBudget) := by
  rw [tryValues_cons, hcan, if_neg (by decide), if_neg (not_not.2 hfree), hspent, if_pos rfl]

theorem tryValues_of_tries (ht : Tries m config assigned v s ix) :
    tryValues m config next assigned v s (ix :: rest) =
      match attempt m config next assigned v s ix with
      | (after, .failed) => tryValues m config next assigned v (after.undoneTo s.domains) rest
      | decided => decided := by
  rw [tryValues_cons, ht.decided, if_neg (by decide), if_neg (not_not.2 ht.free), ht.unspent,
    if_neg (by decide)]
  rfl

/-- After a value that fails, the next ones are tried. -/
theorem tryValues_of_failed (ht : Tries m config assigned v s ix)
    (h : attempt m config next assigned v s ix = (after, .failed)) :
    tryValues m config next assigned v s (ix :: rest) =
      tryValues m config next assigned v (after.undoneTo s.domains) rest := by
  rw [tryValues_of_tries rest ht, h]

/-- A value that does not fail is the last one that is tried. -/
theorem tryValues_of_decided (ht : Tries m config assigned v s ix)
    (h : (attempt m config next assigned v s ix).2 ≠ .failed) :
    tryValues m config next assigned v s (ix :: rest) = attempt m config next assigned v s ix := by
  rw [tryValues_of_tries rest ht]
  split
  · rename_i hfailed
    exact absurd (congrArg Prod.snd hfailed) h
  · rfl

end Values

section Induct
variable {config : BacktrackConfig}
  {next : Backtracker → Array (Option Nat) → Backtracker × BranchVerdict}
  {assigned : Array (Option Nat)} {v : Nat}

/-- A property of what comes of several values that each of them hands on. -/
theorem tryValues_induct {q : Backtracker → List Nat → Backtracker × BranchVerdict → Prop}
    (none : ∀ s : Backtracker, q s [] ({ s with backtracks := s.backtracks + 1 }, .failed))
    (undecided : ∀ s ix rest, m.canCount assigned v ix = false → q s (ix :: rest) (s, .undefined))
    (pass : ∀ s ix rest r, m.canCount assigned v ix = true → m.conflictsAt assigned v ix ≠ 0 →
      q s rest r → q s (ix :: rest) r)
    (spent : ∀ s ix rest, config.maxAssignments.any (· ≤ s.assignments) = true →
      q s (ix :: rest) (s, .outOfBudget))
    (failed : ∀ s ix rest after r, Tries m config assigned v s ix →
      attempt m config next assigned v s ix = (after, .failed) →
      q (after.undoneTo s.domains) rest r → q s (ix :: rest) r)
    (decided : ∀ s ix rest, Tries m config assigned v s ix →
      (attempt m config next assigned v s ix).2 ≠ .failed →
      q s (ix :: rest) (attempt m config next assigned v s ix)) :
    ∀ (places : List Nat) (s : Backtracker),
      q s places (tryValues m config next assigned v s places)
  | [], s => by
    rw [tryValues]
    exact none s
  | ix :: rest, s => by
    have ih := tryValues_induct none undecided pass spent failed decided rest
    cases hcan : m.canCount assigned v ix with
    | false =>
      rw [tryValues_undecided rest hcan]
      exact undecided s ix rest hcan
    | true =>
      by_cases hconflicts : m.conflictsAt assigned v ix = 0
      · cases hspent : config.maxAssignments.any (· ≤ s.assignments) with
        | true =>
          rw [tryValues_of_spent rest hcan hconflicts hspent]
          exact spent s ix rest hspent
        | false =>
          have ht : Tries m config assigned v s ix := ⟨hcan, hconflicts, hspent⟩
          by_cases hverdict : (attempt m config next assigned v s ix).2 = .failed
          · have hfailed : attempt m config next assigned v s ix =
                ((attempt m config next assigned v s ix).1, .failed) := Prod.ext rfl hverdict
            rw [tryValues_of_failed rest ht hfailed]
            exact failed s ix rest _ _ ht hfailed (ih _)
          · rw [tryValues_of_decided rest ht hverdict]
            exact decided s ix rest ht hverdict
      · rw [tryValues_pass rest hcan hconflicts]
        exact pass s ix rest _ hcan hconflicts (ih s)

end Induct

/-! ## What a search counts -/

/-- The first search has made no more assignments and no more backtracks. -/
structure Backtracker.AtMost (s t : Backtracker) : Prop where
  assignments : s.assignments ≤ t.assignments
  backtracks : s.backtracks ≤ t.backtracks

namespace Backtracker

theorem AtMost.refl (s : Backtracker) : s.AtMost s := ⟨Nat.le_refl _, Nat.le_refl _⟩

theorem AtMost.trans {s t u : Backtracker} (h : s.AtMost t) (h' : t.AtMost u) : s.AtMost u :=
  ⟨h.assignments.trans h'.assignments, h.backtracks.trans h'.backtracks⟩

/-- With one more assignment, whatever the domains are. -/
def assign (s : Backtracker) (d : Domains) : Backtracker :=
  { s with domains := d, assignments := s.assignments + 1 }

theorem AtMost.assign {s t : Backtracker} (h : s.AtMost t) (d d' : Domains) :
    (s.assign d).AtMost (t.assign d') :=
  ⟨Nat.succ_le_succ h.assignments, h.backtracks⟩

theorem atMost_assign (s : Backtracker) (d : Domains) : s.AtMost (s.assign d) :=
  ⟨Nat.le_succ _, Nat.le_refl _⟩

theorem AtMost.undoneTo {s t : Backtracker} (h : s.AtMost t) (d : Domains) :
    s.AtMost (t.undoneTo d) :=
  ⟨h.assignments, h.backtracks⟩

theorem AtMost.of_undoneTo {s t : Backtracker} {d : Domains} (h : (s.undoneTo d).AtMost t) :
    s.AtMost t :=
  ⟨h.assignments, h.backtracks⟩

end Backtracker

section Counts
variable (config : BacktrackConfig)
  {next : Backtracker → Array (Option Nat) → Backtracker × BranchVerdict}
  (hnext : ∀ (s : Backtracker) (assigned : Array (Option Nat)), s.AtMost (next s assigned).1)
include hnext

theorem attempt_atMost (assigned : Array (Option Nat)) (v : Nat) (s : Backtracker) (ix : Nat)
    (d : Domains) : (s.assign d).AtMost (attempt m config next assigned v s ix).1 := by
  unfold attempt
  dsimp only
  split
  · have h := hnext ⟨(infer m config.inference (s.domains.restrictTo v ix)
      (assigned.setIfInBounds v (some ix)) v ix).1, s.assignments + 1, s.backtracks⟩
      (assigned.setIfInBounds v (some ix))
    exact ⟨h.assignments, h.backtracks⟩
  · exact ⟨Nat.le_refl _, Nat.le_refl _⟩
  · exact ⟨Nat.le_refl _, Nat.le_refl _⟩
  · exact ⟨Nat.le_refl _, Nat.le_refl _⟩

theorem tryValues_atMost (assigned : Array (Option Nat)) (v : Nat) (places : List Nat)
    (s : Backtracker) : s.AtMost (tryValues m config next assigned v s places).1 := by
  have hattempt : ∀ (s : Backtracker) (ix : Nat),
      s.AtMost (attempt m config next assigned v s ix).1 := fun s ix =>
    (s.atMost_assign s.domains).trans (attempt_atMost config hnext assigned v s ix s.domains)
  refine tryValues_induct (q := fun s _ r => s.AtMost r.1)
    ?none ?undecided ?pass ?spent ?failed ?decided places s
  case none => exact fun s => ⟨Nat.le_refl _, Nat.le_succ _⟩
  case undecided => exact fun s _ _ _ => .refl s
  case pass => exact fun _ _ _ _ _ _ ih => ih
  case spent => exact fun s _ _ _ => .refl s
  case failed =>
    intro s ix rest after r _ hfailed ih
    have h := hattempt s ix
    rw [hfailed] at h
    exact h.trans ih.of_undoneTo
  case decided => exact fun s ix _ _ _ => hattempt s ix

theorem attempt_atMost_tryValues {assigned : Array (Option Nat)} {v ix : Nat} {s : Backtracker}
    (ht : Tries m config assigned v s ix) (rest : List Nat) :
    (attempt m config next assigned v s ix).1.AtMost
      (tryValues m config next assigned v s (ix :: rest)).1 := by
  by_cases h : (attempt m config next assigned v s ix).2 = .failed
  · rw [tryValues_of_failed rest ht (Prod.ext rfl h)]
    exact (tryValues_atMost config hnext assigned v rest _).of_undoneTo
  · rw [tryValues_of_decided rest ht h]
    exact .refl _

end Counts

theorem backtrack_atMost (config : BacktrackConfig) :
    ∀ (left : Nat) (s : Backtracker) (assigned : Array (Option Nat)),
      s.AtMost (backtrack m config left s assigned).1
  | 0, s, _ => .refl s
  | left + 1, s, assigned => by
    rw [backtrack]
    split
    · exact .refl s
    · split
      · exact .refl s
      · split
        · exact .refl s
        · exact tryValues_atMost config (backtrack_atMost config left) assigned _ _ s

end ProblemSolving
