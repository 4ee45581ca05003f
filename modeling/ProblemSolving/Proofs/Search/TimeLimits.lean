import ProblemSolving.Proofs.Search.Budgets

/-!
# Time limits

The clock is read before every expansion, and a search that finds its time used up expands nothing
more.

* `TimedPolicy.Kept` : every expansion was begun in time, and the time is up if that is what is said.
* `Iteration.ReadsClock`, `ReadsClock.kept` : so it is for searches by rounds.
* `descend_kept`, `pass_kept`, `deepen_kept` : so it is for depth-limited searches.
* `timeLimit_kept` : so it is for every strategy.
-/

namespace ProblemSolving

variable {σ α κ : Type}

/-- So many expansions were begun before the time was up, and if it is `late` it is up after them. -/
structure TimedPolicy.Kept (policy : TimedPolicy) (expansions : Nat) (late : Prop) : Prop where
  begun : ∀ n < expansions, policy.timeIsUp n = false
  due : late → policy.timeIsUp expansions = true

namespace TimedPolicy

variable {policy : TimedPolicy} {n : Nat} {late late' : Prop}

theorem Kept.zero : policy.Kept 0 False := ⟨by simp, False.elim⟩

theorem Kept.ends (h : policy.Kept n late) (hnot : ¬ late') : policy.Kept n late' :=
  ⟨h.begun, fun hlate => absurd hlate hnot⟩

theorem Kept.next (h : policy.Kept n late) (htime : policy.timeIsUp n = false) :
    policy.Kept (n + 1) False := by
  refine ⟨fun k hk => ?_, False.elim⟩
  obtain hk | rfl := Nat.lt_succ_iff_lt_or_eq.1 hk
  · exact h.begun k hk
  · exact htime

theorem timeIsUp_of_stop? (h : (policy.stop? n : Option (Termination κ)) = some .timeBudgetExceeded) :
    policy.timeIsUp n = true := by
  unfold stop? at h
  split at h
  · cases h
  split at h
  · assumption
  · cases h

theorem timeIsUp_of_stop?_none (h : (policy.stop? n : Option (Termination κ)) = none) :
    policy.timeIsUp n = false := by
  unfold stop? at h
  split at h
  · cases h
  split at h
  · cases h
  next htime => exact eq_false_of_ne_true htime

end TimedPolicy

/-! ## Searches by rounds -/

namespace Iteration

variable {S : Type}

/-- A round is the last one if the time is up before it, and only then is it said to be up. -/
structure ReadsClock (it : Iteration S (Result σ α κ)) (policy : TimedPolicy)
    (progress : S → Progress κ) : Prop where
  ended : ∀ {s r}, it.ended? s = some r → r.termination ≠ .timeBudgetExceeded
  late : ∀ {s}, policy.timeIsUp (progress s).expansions = true →
    ∃ r, it.advance s = .inl r ∧ r.progress = progress s
  timely : ∀ {s r}, policy.timeIsUp (progress s).expansions = false → it.advance s = .inl r →
    r.termination ≠ .timeBudgetExceeded

variable {it : Iteration S (Result σ α κ)} {policy : TimedPolicy} {progress : S → Progress κ}
  {s s' : S} {n : Nat}

theorem ReadsClock.round (hr : it.ReadsClock policy progress) (hs : it.advance s = .inr s') :
    policy.timeIsUp (progress s).expansions = false := by
  by_contra htime
  obtain ⟨r, hlast, -⟩ := hr.late (eq_true_of_ne_false htime)
  cases hlast.symm.trans hs

theorem ReadsClock.after (hr : it.ReadsClock policy progress) (hc : it.Counts progress)
    (h : it.After n s s') (hs : policy.Kept (progress s).expansions False) :
    policy.Kept (progress s').expansions False := by
  induction h with
  | refl => exact hs
  | round _ hround _ ih =>
    refine ih ?_
    rw [(hc.round hround).expansions]
    exact hs.next (hr.round hround)

/-- A run by rounds keeps to its time. -/
theorem ReadsClock.kept (hr : it.ReadsClock policy progress) (hc : it.Counts progress) (left : Nat)
    (hs : policy.Kept (progress s).expansions False) :
    policy.Kept (it.run left s).progress.expansions
      ((it.run left s).termination = .timeBudgetExceeded) := by
  obtain ⟨n, left', s', rfl, hafter, hlast⟩ := it.run_ends left s
  have h := hr.after hc hafter hs
  generalize it.run (n + left') s = r at hlast ⊢
  cases hlast with
  | ended hended =>
    rw [(hc.ended hended).2]
    exact h.ends (hr.ended hended)
  | stopped =>
    obtain ⟨hspent, hprogress⟩ := hc.stopped s'
    have hspent' : (it.stopped s').termination = .expansionBudgetExceeded := hspent
    rw [hprogress]
    exact h.ends (by simp [hspent'])
  | advance _ hadvance =>
    cases htime : policy.timeIsUp (progress s').expansions with
    | true =>
      obtain ⟨r', hlate, hprogress⟩ := hr.late htime
      cases hlate.symm.trans hadvance
      rw [hprogress]
      exact ⟨h.begun, fun _ => htime⟩
    | false =>
      have hnot := hr.timely htime hadvance
      obtain ⟨-, k, hk, hgrows⟩ := hc.last hadvance
      rw [hgrows.expansions]
      obtain rfl | rfl : k = 0 ∨ k = 1 := by omega
      · exact h.ends hnot
      · exact (h.next htime).ends hnot

end Iteration

section
variable [Scalar κ] {μ : Type} {δ : Type → Type} [Discipline δ κ]

theorem Exploration.readsClock (P : Problem σ α κ) (policy : TimedPolicy) (memory : Memory σ μ)
    (algorithm : String) :
    (iteration (δ := δ) P policy memory algorithm).ReadsClock policy fun s => s.run.progress where
  ended h := by
    obtain ⟨-, rfl⟩ := eq_of_ended h
    exact Run.exhausted_ne_timeBudgetExceeded
  late {s} htime := ⟨s.noted.finish algorithm .timeBudgetExceeded, if_pos htime, Run.progress_finish ..⟩
  timely {s r} htime h := by
    have hnot : ¬ policy.timeIsUp s.noted.stats.expansions = true := Bool.eq_false_iff.1 htime
    dsimp only [iteration] at h
    rw [if_neg hnot] at h
    split at h
    · cases h
      exact Run.exhausted_ne_timeBudgetExceeded
    split at h
    · cases h
      simp
    split at h
    · cases h
      simp
    · cases h

theorem exploreFromRoot_kept (P : Problem σ α κ) (policy : TimedPolicy) (memory : Memory σ μ)
    (algorithm : String) :
    let r := exploreFromRoot δ P policy memory algorithm
    policy.Kept r.stats.expansions (r.termination = .timeBudgetExceeded) := by
  intro r
  have hr : r = _ := exploreFromRoot_eq_run P policy memory algorithm policy.maxExpansions
  rw [hr]
  exact (Exploration.readsClock P policy memory algorithm).kept
    (Exploration.counts P policy memory algorithm) _ .zero

end

section
variable [Scalar κ] [BEq σ] [Hashable σ] (P : Problem σ α κ) (eval : Evaluation σ α κ)
  (reopening : Reopening) (policy : TimedPolicy) (algorithm : String)

theorem BestFirst.readsClock :
    (iteration P eval reopening policy algorithm).ReadsClock policy fun s => s.run.progress where
  ended h := by
    obtain ⟨-, rfl⟩ := eq_of_ended h
    exact Run.exhausted_ne_timeBudgetExceeded
  late {s} htime := ⟨s.noted.finish algorithm .timeBudgetExceeded, if_pos htime, Run.progress_finish ..⟩
  timely {s r} htime h := by
    cases (ends_of_inl h).1 with
    | emptied => exact Run.exhausted_ne_timeBudgetExceeded
    | stopped termination hstop =>
      obtain rfl | ⟨hup, -⟩ := hstop
      · simp
      · cases hup.symm.trans htime
    | goal => simp
    | expansion => simp
    | evaluation => simp

theorem bestFirst_kept :
    let r := bestFirst P eval reopening policy algorithm
    policy.Kept r.stats.expansions (r.termination = .timeBudgetExceeded) := by
  intro r
  cases heval : eval (SearchTree.rootNode P.initial) with
  | error violation =>
    have hr : r = _ := BestFirst.bestFirst_of_error algorithm heval
    rw [hr]
    exact TimedPolicy.Kept.zero.ends (by simp)
  | ok f =>
    have hr : r = _ := BestFirst.bestFirst_eq_run algorithm heval policy.maxExpansions
    rw [hr]
    exact (BestFirst.readsClock P eval reopening policy algorithm).kept
      (BestFirst.counts P eval reopening policy algorithm) _ .zero

end

/-! ## Depth-limited search -/

section
variable {policy : TimedPolicy} {visit : Run σ α κ → Placed σ α κ → Run σ α κ × Verdict κ}

theorem visitEach_kept
    (hvisit : ∀ (run : Run σ α κ) kid, policy.Kept run.progress.expansions False →
      policy.Kept (visit run kid).1.progress.expansions
        ((visit run kid).2 = .stopped .timeBudgetExceeded))
    (run : Run σ α κ) (kids : List (Placed σ α κ)) (cut : Bool)
    (h : policy.Kept run.progress.expansions False) :
    policy.Kept (visitEach visit run kids cut).1.progress.expansions
      ((visitEach visit run kids cut).2 = .stopped .timeBudgetExceeded) := by
  induction kids generalizing run cut with
  | nil => exact h.ends (by cases cut <;> simp [visitEach])
  | cons kid rest ih =>
    have hkid := hvisit run kid h
    unfold visitEach
    split
    next run' hcutoff =>
      rw [hcutoff] at hkid
      exact ih run' true (hkid.ends id)
    next run' hfailure =>
      rw [hfailure] at hkid
      exact ih run' cut (hkid.ends id)
    next => exact hkid

theorem Verdict.eq_stopped_of_outcome {v : Verdict κ} (h : v.outcome = .timeBudgetExceeded) :
    v = .stopped .timeBudgetExceeded := by
  cases v with
  | stopped termination => exact congrArg Verdict.stopped h
  | _ => cases h

end

section
variable [Scalar κ] (P : Problem σ α κ) (policy : TimedPolicy)

/-- The search of a subtree keeps to its time. -/
theorem descend_kept (remaining : Nat) (run : Run σ α κ) (here : Placed σ α κ)
    (h : policy.Kept run.progress.expansions False) :
    policy.Kept (descend P policy remaining run here).1.progress.expansions
      ((descend P policy remaining run here).2 = .stopped .timeBudgetExceeded) := by
  induction remaining generalizing run here with
  | zero =>
    unfold descend
    split <;> exact h.ends (by simp)
  | succ remaining ih =>
    unfold descend
    split
    · exact h.ends (by simp)
    dsimp only
    split
    next termination hstop =>
      refine ⟨h.begun, fun hlate => ?_⟩
      cases hlate
      exact TimedPolicy.timeIsUp_of_stop? hstop
    next hstop =>
    split
    next hexpand =>
      rw [Run.progress_expand_error hexpand]
      exact h.ends (by simp)
    next expanded kids hexpand =>
      have hmore : policy.Kept expanded.progress.expansions False := by
        rw [(Run.progress_expand_ok hexpand).expansions]
        exact h.next (TimedPolicy.timeIsUp_of_stop?_none hstop)
      rw [verdict_dropFailed, progress_dropFailed]
      exact visitEach_kept ih (expanded.noteHighWater expanded.tree.size) kids false hmore

theorem pass_kept (limit : Nat) (run : Run σ α κ) (h : policy.Kept run.progress.expansions False) :
    policy.Kept (run.pass P policy limit).1.progress.expansions
      ((run.pass P policy limit).2 = .timeBudgetExceeded) := by
  have hpass := descend_kept P policy limit
    { run with tree := (SearchTree.empty.addRoot P.initial).1 }
    (SearchTree.empty.addRoot P.initial).2 h
  rw [pass_eq]
  exact ⟨hpass.begun, fun hlate => hpass.due (Verdict.eq_stopped_of_outcome hlate)⟩

theorem deepen_kept (passes limit : Nat) (run : Run σ α κ)
    (h : policy.Kept run.progress.expansions False) :
    policy.Kept (run.deepen P policy passes limit).1.progress.expansions
      ((run.deepen P policy passes limit).2 = .timeBudgetExceeded) := by
  induction passes generalizing limit run with
  | zero => exact h.ends (by simp [Run.deepen])
  | succ passes ih =>
    have hpass := pass_kept P policy limit run h
    rw [Run.deepen]
    split
    next run' hcutoff =>
      rw [hcutoff] at hpass
      exact ih (limit + 1) run' (hpass.ends id)
    next => exact hpass

end

/-! ## All strategies -/

/-- **A search keeps to its time limit.** By whatever clock, every expansion is begun before the time
is up, and a search that says so ends when it is. -/
theorem timeLimit_kept [Scalar κ] [BEq σ] [Hashable σ] (P : Problem σ α κ)
    (strategy : Strategy σ α κ) (policy : TimedPolicy) :
    let r := strategy.run P policy
    (∀ n < r.stats.expansions, policy.timeIsUp n = false) ∧
      (r.termination = .timeBudgetExceeded → policy.timeIsUp r.stats.expansions = true) := by
  suffices h : policy.Kept (strategy.run P policy).stats.expansions
      ((strategy.run P policy).termination = .timeBudgetExceeded) from ⟨h.begun, h.due⟩
  cases strategy with
  | tree waiting => cases waiting <;> exact exploreFromRoot_kept P policy _ _
  | graph waiting => cases waiting <;> exact exploreFromRoot_kept P policy _ _
  | breadthFirstTree => exact exploreFromRoot_kept P policy _ _
  | breadthFirstGraph => exact exploreFromRoot_kept P policy _ _
  | depthFirstTree => exact exploreFromRoot_kept P policy _ _
  | depthFirstGraph => exact exploreFromRoot_kept P policy _ _
  | cappedBreadthFirstTree =>
    have h := exploreFromRoot_kept (δ := Queue) P
      { policy with maxExpansions := min policy.maxExpansions treeSearchCap } .forgetful
      "breadth_first_tree_search"
    exact ⟨h.begun, h.due⟩
  | bestFirst eval reopening => exact bestFirst_kept P eval reopening policy _
  | uniformCost => exact bestFirst_kept P (fun node => .ok node.cost) .never policy _
  | greedy => exact bestFirst_kept P _ _ policy _
  | astar =>
    exact bestFirst_kept P (fun node => (checkedHeuristic P node).map (node.cost + ·))
      .onCheaperPath policy _
  | depthLimited limit => exact pass_kept P policy limit (.empty policy) .zero
  | iterativeDeepening =>
    exact deepen_kept P policy (policy.maxDepth + 1) 0 (.empty policy) .zero

end ProblemSolving
