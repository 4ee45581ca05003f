import ProblemSolving.Proofs.Search.Runs
import ProblemSolving.Search.DepthLimited

/-!
# What depth-limited search tells

* `Problem.GoalBelow` : a goal can be reached from a state.
* `Verdict.Honest` : a verdict on some subtrees is true of them.
* `descend_honest` : every subtree gets an honest verdict, whatever was dropped on the way.
* `depthLimitedSearch_conclusive`, `iterativeDeepeningSearch_conclusive` : so do the searches.
-/

namespace ProblemSolving

variable {σ α κ : Type}

/-! ## Goals below a state -/

/-- Some legal actions lead from the state to a goal. -/
def Problem.GoalBelow (P : Problem σ α κ) (s : σ) : Prop :=
  ∃ as t, P.Path s as t ∧ P.isGoal t = true

theorem Problem.goalBelow_iff {P : Problem σ α κ} {s : σ} :
    P.GoalBelow s ↔ P.isGoal s = true ∨ ∃ a ∈ P.actions s, P.GoalBelow (P.result s a) := by
  constructor
  · rintro ⟨as, t, hp, ht⟩
    cases hp with
    | nil => exact .inl ht
    | @cons _ _ a as legal later => exact .inr ⟨a, legal, as, t, later, ht⟩
  · rintro (hs | ⟨a, ha, as, t, hp, ht⟩)
    · exact ⟨[], s, .nil s, hs⟩
    · exact ⟨a :: as, t, .cons ha hp, ht⟩

/-! ## Verdicts -/

/-- The verdict is true, if `below` says that a goal can be reached. -/
def Verdict.Honest (below : Prop) : Verdict κ → Prop
  | .found _ => below
  | .cutoff => True
  | .failure => ¬ below
  | .stopped termination =>
    termination ≠ .frontierExhausted ∧ ∀ id, termination ≠ .goalReached id

theorem Verdict.Honest.of_iff {below below' : Prop} {v : Verdict κ} (h : v.Honest below)
    (hiff : below ↔ below') : v.Honest below' := by
  rwa [← propext hiff]

theorem verdict_dropFailed (kids : List (Placed σ α κ)) (r : Run σ α κ × Verdict κ) :
    (Run.dropFailed kids r).2 = r.2 := by
  unfold Run.dropFailed
  split <;> rfl

theorem visitEach_of_decided {visit : Run σ α κ → Placed σ α κ → Run σ α κ × Verdict κ}
    {run : Run σ α κ} {kid : Placed σ α κ} (hcutoff : (visit run kid).2 ≠ .cutoff)
    (hfailure : (visit run kid).2 ≠ .failure) (rest : List (Placed σ α κ)) (cut : Bool) :
    visitEach visit run (kid :: rest) cut = visit run kid := by
  unfold visitEach
  split
  next h => exact absurd (congrArg Prod.snd h) hcutoff
  next h => exact absurd (congrArg Prod.snd h) hfailure
  next => rfl

theorem visitEach_cut_ne_failure (visit : Run σ α κ → Placed σ α κ → Run σ α κ × Verdict κ)
    (run : Run σ α κ) (kids : List (Placed σ α κ)) :
    (visitEach visit run kids true).2 ≠ .failure := by
  induction kids generalizing run with
  | nil => simp [visitEach]
  | cons kid rest ih =>
    unfold visitEach
    split
    · exact ih _
    · exact ih _
    next hfailure => exact fun h => hfailure _ (Prod.ext rfl h)

/-- If each subtree gets an honest verdict, so do all of them together. -/
theorem visitEach_honest {below : Placed σ α κ → Prop}
    {visit : Run σ α κ → Placed σ α κ → Run σ α κ × Verdict κ} {kids : List (Placed σ α κ)}
    (hvisit : ∀ run, ∀ kid ∈ kids, (visit run kid).2.Honest (below kid)) (run : Run σ α κ)
    (cut : Bool) : (visitEach visit run kids cut).2.Honest (∃ kid ∈ kids, below kid) := by
  induction kids generalizing run cut with
  | nil => cases cut <;> simp [visitEach, Verdict.Honest]
  | cons kid rest ih =>
    have hkid := hvisit run kid (List.mem_cons_self ..)
    have hrest := ih fun run n hn => hvisit run n (List.mem_cons_of_mem _ hn)
    unfold visitEach
    split
    next run' hcutoff =>
      have hlater := hrest run' true
      have hne := visitEach_cut_ne_failure visit run' rest
      cases hv : (visitEach visit run' rest true).2 with
      | found node =>
        rw [hv] at hlater
        obtain ⟨n, hn, hbelow⟩ := hlater
        exact ⟨n, List.mem_cons_of_mem _ hn, hbelow⟩
      | cutoff => trivial
      | failure => exact absurd hv hne
      | stopped termination =>
        rw [hv] at hlater
        exact hlater
    next run' hfailure =>
      rw [hfailure] at hkid
      have hnot : ¬ below kid := hkid
      refine (hrest run' cut).of_iff ?_
      simp [hnot]
    next hcutoff hfailure =>
      cases hv : (visit run kid).2 with
      | found node =>
        rw [hv] at hkid
        exact ⟨kid, List.mem_cons_self .., hkid⟩
      | cutoff => trivial
      | failure =>
        have hpair : visit run kid = ((visit run kid).1, .failure) := Prod.ext rfl hv
        exact absurd hpair (hfailure _)
      | stopped termination =>
        rw [hv] at hkid
        exact hkid

/-! ## Descents -/

/-- The search was given up for a budget or a violation. -/
def Termination.GivenUp : Termination κ → Prop
  | .expansionBudgetExceeded | .timeBudgetExceeded | .contractViolation _ => True
  | _ => False

theorem Termination.GivenUp.ne {termination : Termination κ} (h : termination.GivenUp) :
    termination ≠ .frontierExhausted ∧ termination ≠ .cutoff ∧
      termination ≠ .depthBudgetExceeded ∧ ∀ id, termination ≠ .goalReached id := by
  cases termination with
  | expansionBudgetExceeded => simp
  | timeBudgetExceeded => simp
  | contractViolation violation => simp
  | _ => exact h.elim

theorem givenUp_of_stop? {policy : TimedPolicy} {expansions : Nat} {termination : Termination κ}
    (h : policy.stop? expansions = some termination) : termination.GivenUp := by
  unfold TimedPolicy.stop? at h
  split at h
  · cases h
    trivial
  split at h
  · cases h
    trivial
  · cases h

variable [Scalar κ] (P : Problem σ α κ) (policy : TimedPolicy)

/-- Every subtree gets an honest verdict. -/
theorem descend_honest (remaining : Nat) (run : Run σ α κ) (here : Placed σ α κ) :
    (descend P policy remaining run here).2.Honest (P.GoalBelow here.node.state) := by
  induction remaining generalizing run here with
  | zero =>
    unfold descend
    split
    next hgoal => exact Problem.goalBelow_iff.2 (.inl hgoal)
    next => trivial
  | succ remaining ih =>
    unfold descend
    split
    next hgoal => exact Problem.goalBelow_iff.2 (.inl hgoal)
    next hgoal =>
    dsimp only
    split
    next hstop =>
      obtain ⟨hexhausted, -, -, hgoal⟩ := (givenUp_of_stop? hstop).ne
      exact ⟨hexhausted, hgoal⟩
    split
    next => exact ⟨by simp, by simp⟩
    next expanded kids hexpand =>
    obtain ⟨hexpands, -⟩ := Run.expand_ok hexpand
    rw [verdict_dropFailed]
    refine (visitEach_honest (fun run kid _ => ih run kid) _ false).of_iff ?_
    rw [Problem.goalBelow_iff, hexpands.exists_state_iff (p := P.GoalBelow), or_iff_right hgoal]

/-! ## Passes -/

theorem pass_conclusive (limit : Nat) (run : Run σ α κ) :
    (run.pass P policy limit).2.Conclusive P := by
  have hhonest := descend_honest P policy limit
    { run with tree := (SearchTree.empty.addRoot P.initial).1 }
    (SearchTree.empty.addRoot P.initial).2
  unfold Run.pass
  dsimp only
  split
  next hfound =>
    rw [hfound] at hhonest
    obtain ⟨as, t, hp, ht⟩ := hhonest
    exact .of_goal ⟨as, hp⟩ ht _
  next => exact .of_ne (by simp) (by simp)
  next hfailure =>
    rw [hfailure] at hhonest
    refine ⟨fun _ s hs => ?_, by simp⟩
    obtain ⟨as, hp⟩ := hs
    have hnot : ¬ P.isGoal s = true := fun hgoal => hhonest ⟨as, s, hp, hgoal⟩
    exact eq_false_of_ne_true hnot
  next hstopped =>
    rw [hstopped] at hhonest
    exact .of_ne hhonest.1 hhonest.2

theorem deepen_conclusive (passes limit : Nat) (run : Run σ α κ) :
    (run.deepen P policy passes limit).2.Conclusive P := by
  induction passes generalizing limit run with
  | zero => exact .of_ne (by simp [Run.deepen]) (by simp [Run.deepen])
  | succ passes ih =>
    unfold Run.deepen
    split
    · exact ih _ _
    · exact pass_conclusive P policy limit run

theorem depthLimitedSearch_conclusive (limit : Nat) :
    (depthLimitedSearch P limit policy).termination.Conclusive P :=
  pass_conclusive P policy limit _

theorem iterativeDeepeningSearch_conclusive :
    (iterativeDeepeningSearch P policy).termination.Conclusive P :=
  deepen_conclusive P policy (policy.maxDepth + 1) 0 (.empty policy)

end ProblemSolving
