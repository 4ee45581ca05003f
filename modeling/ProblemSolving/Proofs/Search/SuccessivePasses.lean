import Mathlib
import ProblemSolving.Proofs.Search.Budgets

/-!
# Passes in succession

The passes of iterative deepening share one run: its counts go on, and its budget is spent by all of
them. Beyond that no pass feels those before it.

* `Run.LaterBy` : the same tree, after so many more expansions.
* `TimedPolicy.Timeless` : a policy that stops runs for their time at once or never.
* `TimedPolicy.Timeless.stop?_eq_of_le` : what stops a search early stops it later.
* `descend_later`, `pass_later` : a search that begins later comes to the same, while its budget
  lasts.
* `deepen_alone` : so the passes together come to what the first one that is not cut off comes to
  alone, and their counts add up.
* `iterativeDeepeningSearch_firstUncut` : the same of the search.
-/

namespace ProblemSolving

variable {σ α κ : Type}

/-! ## Runs that are later than others -/

/-- The second run has the tree of the first one, after `k` more expansions that made `g` more
children. -/
structure Run.LaterBy (k g : Nat) (run run' : Run σ α κ) : Prop where
  tree : run'.tree = run.tree
  expansions : run'.stats.expansions = run.stats.expansions + k
  generated : run'.stats.generated = run.stats.generated + g

namespace Run.LaterBy

variable {k g : Nat} {run run' : Run σ α κ}

theorem noteHighWater (h : LaterBy k g run run') (size : Nat) :
    LaterBy k g (run.noteHighWater size) (run'.noteHighWater size) :=
  ⟨h.tree, h.expansions, h.generated⟩

theorem truncate (h : LaterBy k g run run') (size : Nat) :
    LaterBy k g (run.truncate size) (run'.truncate size) :=
  ⟨congrArg (·.truncate size) h.tree, h.expansions, h.generated⟩

theorem expand [Scalar κ] (h : LaterBy k g run run') (P : Problem σ α κ) (parent : Placed σ α κ)
    (f : κ) : LaterBy k g (run.expand P parent f).1 (run'.expand P parent f).1 ∧
      (run'.expand P parent f).2 = (run.expand P parent f).2 := by
  obtain ⟨tree, stats, log⟩ := run
  obtain ⟨tree', stats', log'⟩ := run'
  obtain ⟨htree, hexpansions, hgenerated⟩ := h
  have htree' : tree' = tree := htree
  subst htree'
  simp only at hexpansions hgenerated
  unfold Run.expand
  dsimp only
  split
  · exact ⟨⟨rfl, hexpansions, hgenerated⟩, rfl⟩
  · refine ⟨⟨rfl, ?_, ?_⟩, rfl⟩
    · show stats'.expansions + 1 = stats.expansions + 1 + k
      omega
    · show stats'.generated + _ = stats.generated + _ + g
      omega

end Run.LaterBy

/-- Two searches came to the same verdict, the second one later than the first. -/
structure ComesToSame (k g : Nat) (r r' : Run σ α κ × Verdict κ) : Prop where
  run : Run.LaterBy k g r.1 r'.1
  verdict : r'.2 = r.2

/-- It makes no difference to the time limit when the clock is read. -/
def TimedPolicy.Timeless (policy : TimedPolicy) : Prop :=
  ∀ m n, policy.timeIsUp m = policy.timeIsUp n

theorem TimedPolicy.timeless_of_noLimit {policy : TimedPolicy} (h : policy.timeLimit = none) :
    policy.Timeless := by
  intro m n
  unfold timeIsUp
  rw [h]
  rfl

/-- Fewer expansions are stopped as more are, if those are not stopped for their number. -/
theorem TimedPolicy.Timeless.stop?_eq_of_le {policy : TimedPolicy} (htime : policy.Timeless)
    {m n : Nat} (hle : m ≤ n)
    (hbudget : (policy.stop? n : Option (Termination κ)) ≠ some .expansionBudgetExceeded) :
    (policy.stop? m : Option (Termination κ)) = policy.stop? n := by
  unfold TimedPolicy.stop? at hbudget ⊢
  by_cases hspent : policy.maxExpansions ≤ n
  · rw [if_pos hspent] at hbudget
    exact absurd rfl hbudget
  · rw [if_neg hspent, if_neg (show ¬ policy.maxExpansions ≤ m by omega), htime m n]

/-! ## Subtrees -/

section
variable {k g : Nat} {visit : Run σ α κ → Placed σ α κ → Run σ α κ × Verdict κ}

theorem ComesToSame.dropFailed {r r' : Run σ α κ × Verdict κ} (h : ComesToSame k g r r')
    (kids : List (Placed σ α κ)) :
    ComesToSame k g (Run.dropFailed kids r) (Run.dropFailed kids r') := by
  refine ⟨?_, by rw [verdict_dropFailed, verdict_dropFailed, h.verdict]⟩
  obtain ⟨run, v⟩ := r
  obtain ⟨run', v'⟩ := r'
  obtain rfl : v' = v := h.verdict
  cases kids with
  | nil => exact h.run
  | cons first rest =>
    cases v' with
    | cutoff => exact h.run.truncate first.id
    | failure => exact h.run.truncate first.id
    | found => exact h.run
    | stopped => exact h.run

/-- If a later search comes to the same below each child, it does so below all of them. -/
theorem visitEach_later
    (hvisit : ∀ run run' : Run σ α κ, run.LaterBy k g run' → ∀ kid,
      ¬ (visit run' kid).2.IsSpent → ComesToSame k g (visit run kid) (visit run' kid))
    (kids : List (Placed σ α κ)) {run run' : Run σ α κ} (h : run.LaterBy k g run') (cut : Bool)
    (hbudget : ¬ (visitEach visit run' kids cut).2.IsSpent) :
    ComesToSame k g (visitEach visit run kids cut) (visitEach visit run' kids cut) := by
  induction kids generalizing run run' cut with
  | nil => exact ⟨h, rfl⟩
  | cons kid rest ih =>
    have hfirst : ¬ (visit run' kid).2.IsSpent := by
      intro hspent
      rw [visitEach_of_decided hspent.ne_cutoff hspent.ne_failure rest cut] at hbudget
      exact hbudget hspent
    have hsame := hvisit run run' h kid hfirst
    unfold visitEach at hbudget ⊢
    generalize visit run kid = r at hsame ⊢
    generalize visit run' kid = r' at hsame hbudget ⊢
    obtain ⟨run₁, v⟩ := r
    obtain ⟨run₁', v'⟩ := r'
    obtain rfl : v' = v := hsame.verdict
    cases v' with
    | cutoff => exact ih hsame.run true hbudget
    | failure => exact ih hsame.run cut hbudget
    | found => exact hsame
    | stopped => exact hsame

end

section
variable [Scalar κ] (P : Problem σ α κ) (policy : TimedPolicy)

/-- While its budget lasts, a search below a node does not feel what was done before. -/
theorem descend_later (htime : policy.Timeless) {k g : Nat} (remaining : Nat)
    (here : Placed σ α κ) {run run' : Run σ α κ} (h : run.LaterBy k g run')
    (hbudget : ¬ (descend P policy remaining run' here).2.IsSpent) :
    ComesToSame k g (descend P policy remaining run here)
      (descend P policy remaining run' here) := by
  induction remaining generalizing run run' here with
  | zero =>
    unfold descend
    split
    · exact ⟨h, rfl⟩
    · exact ⟨h, rfl⟩
  | succ remaining ih =>
    unfold descend at hbudget ⊢
    by_cases hgoal : P.isGoal here.node.state = true
    · rw [if_pos hgoal, if_pos hgoal]
      exact ⟨h, rfl⟩
    rw [if_neg hgoal] at hbudget
    rw [if_neg hgoal, if_neg hgoal]
    dsimp only at hbudget ⊢
    have hstop : (policy.stop? run.stats.expansions : Option (Termination κ)) =
        policy.stop? run'.stats.expansions := by
      refine htime.stop?_eq_of_le (Nat.le.intro h.expansions.symm) fun hspent => ?_
      rw [hspent] at hbudget
      exact hbudget rfl
    rw [hstop]
    generalize (policy.stop? run'.stats.expansions : Option (Termination κ)) = stop at hbudget ⊢
    cases stop with
    | some termination => exact ⟨h, rfl⟩
    | none =>
      dsimp only at hbudget ⊢
      obtain ⟨hexpanded, hsame⟩ := h.expand P here (Scalar.ofNat here.node.depth)
      generalize run.expand P here (Scalar.ofNat here.node.depth) = r at hexpanded hsame ⊢
      generalize run'.expand P here (Scalar.ofNat here.node.depth) = r' at hexpanded hsame hbudget ⊢
      obtain ⟨expanded, outcome⟩ := r
      obtain ⟨expanded', outcome'⟩ := r'
      obtain rfl : outcome' = outcome := hsame
      cases outcome' with
      | error violation => exact ⟨hexpanded, rfl⟩
      | ok kids =>
        have hsize : expanded'.tree.size = expanded.tree.size := congrArg (·.size) hexpanded.tree
        dsimp only at hbudget ⊢
        rw [verdict_dropFailed, hsize] at hbudget
        rw [hsize]
        exact (visitEach_later (fun run run' h kid hkid => ih kid h hkid) kids
          (hexpanded.noteHighWater expanded.tree.size) false hbudget).dropFailed kids

/-! ## Passes -/

/-- While its budget lasts, a pass comes to what it comes to alone, and adds to the counts what it
counts alone. -/
theorem pass_later (htime : policy.Timeless) (limit : Nat) (run : Run σ α κ)
    (hbudget : (run.pass P policy limit).2 ≠ .expansionBudgetExceeded) :
    let r := depthLimitedSearch P limit policy
    (run.pass P policy limit).2 = r.termination ∧ (run.pass P policy limit).1.tree = r.tree ∧
      (run.pass P policy limit).1.stats.expansions = run.stats.expansions + r.stats.expansions ∧
      (run.pass P policy limit).1.stats.generated = run.stats.generated + r.stats.generated := by
  let root := (SearchTree.empty : SearchTree σ α κ).addRoot P.initial
  let fresh : Run σ α κ := { (Run.empty policy : Run σ α κ) with tree := root.1 }
  let later : Run σ α κ := { run with tree := root.1 }
  have hlater : fresh.LaterBy run.stats.expansions run.stats.generated later :=
    ⟨rfl, (Nat.zero_add _).symm, (Nat.zero_add _).symm⟩
  have hpass : run.pass P policy limit = ((descend P policy limit later root.2).1,
      (descend P policy limit later root.2).2.outcome) := pass_eq ..
  have halone : (Run.empty policy).pass P policy limit = ((descend P policy limit fresh root.2).1,
      (descend P policy limit fresh root.2).2.outcome) := pass_eq ..
  rw [hpass] at hbudget ⊢
  obtain ⟨hrun, hverdict⟩ := descend_later P policy htime limit root.2 hlater
    fun hspent => hbudget (Verdict.isSpent_iff.1 hspent)
  intro r
  have hr : r = ((Run.empty policy).pass P policy limit).1.finish "depth_limited_search"
    ((Run.empty policy).pass P policy limit).2 := rfl
  rw [halone] at hr
  rw [hr]
  refine ⟨congrArg Verdict.outcome hverdict, hrun.tree, ?_, ?_⟩
  · exact hrun.expansions.trans (Nat.add_comm ..)
  · exact hrun.generated.trans (Nat.add_comm ..)

/-- What passes come to that began with the limit `first`, if the one with the limit `last` ended
them: what that one comes to alone. All that they did is counted. -/
structure EndsWith (first last : Nat) (run : Run σ α κ) (r : Run σ α κ × Termination κ) :
    Prop where
  termination : r.2 = (depthLimitedSearch P last policy).termination
  tree : r.1.tree = (depthLimitedSearch P last policy).tree
  expansions : r.1.stats.expansions = run.stats.expansions +
    ∑ limit ∈ Finset.Ico first (last + 1), (depthLimitedSearch P limit policy).stats.expansions
  generated : r.1.stats.generated = run.stats.generated +
    ∑ limit ∈ Finset.Ico first (last + 1), (depthLimitedSearch P limit policy).stats.generated

variable {P policy} in
theorem EndsWith.cons {first last : Nat} {run run' : Run σ α κ} {r : Run σ α κ × Termination κ}
    (h : EndsWith P policy (first + 1) last run' r) (hle : first ≤ last)
    (hexpansions : run'.stats.expansions =
      run.stats.expansions + (depthLimitedSearch P first policy).stats.expansions)
    (hgenerated : run'.stats.generated =
      run.stats.generated + (depthLimitedSearch P first policy).stats.generated) :
    EndsWith P policy first last run r where
  termination := h.termination
  tree := h.tree
  expansions := by
    rw [h.expansions, hexpansions, Nat.add_assoc,
      Finset.sum_eq_sum_Ico_succ_bot (Nat.lt_succ_of_le hle)]
  generated := by
    rw [h.generated, hgenerated, Nat.add_assoc,
      Finset.sum_eq_sum_Ico_succ_bot (Nat.lt_succ_of_le hle)]

/-- While the budget lasts, passes with growing limits come to what the first one that is not cut
off comes to alone. -/
theorem deepen_alone (htime : policy.Timeless) (passes limit : Nat) (run : Run σ α κ)
    (hbudget : (run.deepen P policy passes limit).2 ≠ .expansionBudgetExceeded) :
    (∀ d, limit ≤ d → d < limit + passes →
      (depthLimitedSearch P d policy).termination ≠ .cutoff →
      (∀ i, limit ≤ i → i < d → (depthLimitedSearch P i policy).termination = .cutoff) →
      EndsWith P policy limit d run (run.deepen P policy passes limit)) ∧
    ((∀ i, limit ≤ i → i < limit + passes →
      (depthLimitedSearch P i policy).termination = .cutoff) →
      (run.deepen P policy passes limit).2 = .depthBudgetExceeded) := by
  induction passes generalizing limit run with
  | zero => exact ⟨fun d hlow hhigh => by omega, fun _ => rfl⟩
  | succ passes ih =>
    have hpass := pass_later P policy htime limit run
    unfold Run.deepen at hbudget ⊢
    split at hbudget
    next run' hcutoff =>
      rw [hcutoff] at hpass
      obtain ⟨hcut, -, hexpansions, hgenerated⟩ := hpass (by simp)
      obtain ⟨hfirst, hnone⟩ := ih (limit + 1) run' hbudget
      constructor
      · intro d hlow hhigh huncut hbefore
        have hne : d ≠ limit := by
          rintro rfl
          exact huncut hcut.symm
        have hlater := hfirst d (by omega) (by omega) huncut fun i hi => hbefore i (by omega)
        exact hlater.cons hlow hexpansions hgenerated
      · exact fun hall => hnone fun i hlow hhigh => hall i (by omega) (by omega)
    next hcutoff =>
      have huncut : (run.pass P policy limit).2 ≠ .cutoff := fun h => hcutoff _ (Prod.ext rfl h)
      obtain ⟨htermination, htree, hexpansions, hgenerated⟩ := hpass hbudget
      rw [htermination] at huncut
      constructor
      · intro d hlow hhigh _ hbefore
        obtain rfl : d = limit := by
          by_contra hne
          exact huncut (hbefore limit (Nat.le_refl _) (by omega))
        exact ⟨htermination, htree, by simpa using hexpansions, by simpa using hgenerated⟩
      · exact fun hall => absurd (hall limit (Nat.le_refl _) (by omega)) huncut

/-! ## The search -/

/-- **Iterative deepening is the first depth-limited search that is not cut off.** Without a time
limit, and while the budget lasts, it ends as that one does, with the same tree, and so the same
solution; its expansions and its children are those of all the searches up to that one. If all of
them are cut off, the depth is exceeded. -/
theorem iterativeDeepeningSearch_firstUncut (htime : policy.Timeless)
    (h : (iterativeDeepeningSearch P policy).termination ≠ .expansionBudgetExceeded) :
    let r := iterativeDeepeningSearch P policy
    let alone := fun limit => depthLimitedSearch P limit policy
    (∀ d, IsLeast {limit | limit ≤ policy.maxDepth ∧ (alone limit).termination ≠ .cutoff} d →
      r.termination = (alone d).termination ∧ r.tree = (alone d).tree ∧
      r.solution? = (alone d).solution? ∧
      r.stats.expansions = ∑ limit ∈ Finset.range (d + 1), (alone limit).stats.expansions ∧
      r.stats.generated = ∑ limit ∈ Finset.range (d + 1), (alone limit).stats.generated) ∧
    ((∀ limit ≤ policy.maxDepth, (alone limit).termination = .cutoff) →
      r.termination = .depthBudgetExceeded) := by
  intro r alone
  obtain ⟨hfirst, hnone⟩ := deepen_alone P policy htime (policy.maxDepth + 1) 0 (.empty policy) h
  constructor
  · rintro d ⟨⟨hdeep, huncut⟩, hleast⟩
    have hbefore : ∀ i, 0 ≤ i → i < d → (alone i).termination = .cutoff := by
      intro i _ hi
      by_contra hi'
      exact absurd (hleast ⟨by omega, hi'⟩) (by omega)
    obtain ⟨htermination, htree, hexpansions, hgenerated⟩ :=
      hfirst d (Nat.zero_le d) (by omega) huncut hbefore
    have htermination' : r.termination = (alone d).termination := htermination
    have htree' : r.tree = (alone d).tree := htree
    refine ⟨htermination', htree', ?_, ?_, ?_⟩
    · unfold Result.solution? Result.goalId?
      rw [htermination', htree']
    · rw [Finset.range_eq_Ico]
      exact hexpansions.trans (Nat.zero_add _)
    · rw [Finset.range_eq_Ico]
      exact hgenerated.trans (Nat.zero_add _)
  · exact fun hall => hnone fun i _ hi => hall i (by omega)

/-- Two actions climb the stairs. The passes with fewer are cut off, and what they did is counted;
with one action at most, all of them are. -/
theorem stairs_firstUncut :
    ((iterativeDeepeningSearch stairs {}).termination ≠ .expansionBudgetExceeded ∧
      (iterativeDeepeningSearch stairs {}).tree = (depthLimitedSearch stairs 2 {}).tree ∧
      (iterativeDeepeningSearch stairs {}).stats.expansions =
        ∑ limit ∈ Finset.range 3, (depthLimitedSearch stairs limit {}).stats.expansions) ∧
    (iterativeDeepeningSearch stairs { maxDepth := 1 }).termination ≠ .expansionBudgetExceeded ∧
      (iterativeDeepeningSearch stairs { maxDepth := 1 }).termination = .depthBudgetExceeded := by
  have hnone : ∀ depth, ∀ limit ≤ 1,
      (depthLimitedSearch stairs limit { maxDepth := depth }).termination = .cutoff := by
    intro depth limit hlimit
    interval_cases limit <;> cbv
  have htwo : (depthLimitedSearch stairs 2 {}).termination = .goalReached 4 := by cbv
  have hreached : (iterativeDeepeningSearch stairs {}).termination = .goalReached 4 := by cbv
  have hdeep : (iterativeDeepeningSearch stairs { maxDepth := 1 }).termination =
      .depthBudgetExceeded := by cbv
  have hleast : IsLeast {limit | limit ≤ ({} : TimedPolicy).maxDepth ∧
      (depthLimitedSearch stairs limit {}).termination ≠ .cutoff} 2 := by
    refine ⟨⟨by decide, by simp [htwo]⟩, fun limit hlimit => ?_⟩
    by_contra hless
    exact hlimit.2 (hnone 1000 limit (by omega))
  have hbudget : (iterativeDeepeningSearch stairs {}).termination ≠ .expansionBudgetExceeded := by
    simp [hreached]
  have hbudget' : (iterativeDeepeningSearch stairs { maxDepth := 1 }).termination ≠
      .expansionBudgetExceeded := by
    simp [hdeep]
  obtain ⟨hfirst, -⟩ :=
    iterativeDeepeningSearch_firstUncut stairs {} (TimedPolicy.timeless_of_noLimit rfl) hbudget
  obtain ⟨-, hall⟩ := iterativeDeepeningSearch_firstUncut stairs { maxDepth := 1 }
    (TimedPolicy.timeless_of_noLimit rfl) hbudget'
  obtain ⟨-, htree, -, hexpansions, -⟩ := hfirst 2 hleast
  exact ⟨⟨hbudget, htree, hexpansions⟩, hbudget', hall (hnone 1)⟩

end

end ProblemSolving
