import Mathlib
import ProblemSolving.Proofs.Search.Deepening
import ProblemSolving.Proofs.Search.EveryStrategy
import ProblemSolving.Proofs.Search.Iteration
import ProblemSolving.Proofs.Search.Progress
import ProblemSolving.Proofs.Search.Replay

/-!
# Raising the expansion budget

* `CutAt` : a run under a budget is the one under a larger budget, or is cut where the budget is spent.
* `Iteration.Counts`, `Iteration.Counts.cutAt` : so it is for searches by rounds.
* `descend_cutAt`, `pass_cutAt`, `deepen_cutAt` : so it is for depth-limited searches.
* `Strategy.cutAt`, `largerBudget_same` : so it is for every strategy, and a larger budget changes no
  answer that is finished.
-/

namespace ProblemSolving

variable {σ α κ : Type}

/-- An outcome under the budget `m`, and the outcome under a larger one: they are the same, unless
the budget is spent; then exactly so many expansions were made, and they come first under the larger
budget as well. -/
structure CutAt {X : Type} (m : Nat) (spent : X → Prop) (progress : X → Progress κ) (x x' : X) :
    Prop where
  within : (progress x).expansions ≤ m
  finished : ¬ spent x → x' = x
  cut : spent x → (progress x).expansions = m ∧ Continues (progress x).events (progress x').events

/-! ## Searches by rounds -/

/-- The search was stopped because its budget was spent. -/
def Result.IsSpent (r : Result σ α κ) : Prop := r.termination = .expansionBudgetExceeded

namespace Iteration

variable {S : Type}

/-- Every round that goes on makes one expansion, and only the budget stops the search for the
number of its rounds. -/
structure Counts (it : Iteration S (Result σ α κ)) (progress : S → Progress κ) : Prop where
  ended : ∀ {s r}, it.ended? s = some r → ¬ r.IsSpent ∧ r.progress = progress s
  stopped : ∀ s, (it.stopped s).IsSpent ∧ (it.stopped s).progress = progress s
  last : ∀ {s r}, it.advance s = .inl r → ¬ r.IsSpent ∧ ∃ n ≤ 1, (progress s).Grows n r.progress
  round : ∀ {s s'}, it.advance s = .inr s' → (progress s).Grows 1 (progress s')

variable {it : Iteration S (Result σ α κ)} {progress : S → Progress κ} {s s' : S} {n : Nat}

theorem Counts.after (hc : it.Counts progress) (h : it.After n s s') :
    (progress s).Grows n (progress s') := by
  induction h with
  | refl => exact .refl _
  | round _ hs _ ih => exact Nat.add_comm .. ▸ (hc.round hs).trans ih

/-- A run makes at most as many expansions as it has rounds. -/
theorem Counts.run (hc : it.Counts progress) (left : Nat) (s : S) :
    ∃ n ≤ left, (progress s).Grows n (it.run left s).progress := by
  obtain ⟨n, left', s', rfl, hafter, hlast⟩ := it.run_ends left s
  have hgrows := hc.after hafter
  generalize it.run (n + left') s = r at hlast ⊢
  cases hlast with
  | ended hended =>
    rw [(hc.ended hended).2]
    exact ⟨n, Nat.le_add_right .., hgrows⟩
  | stopped =>
    rw [(hc.stopped s').2]
    exact ⟨n, Nat.le_refl _, hgrows⟩
  | advance _ hs =>
    obtain ⟨-, k, hk, hmore⟩ := hc.last hs
    exact ⟨n + k, by omega, hgrows.trans hmore⟩

/-- More rounds do not change the outcome, unless the rounds are spent. -/
theorem Counts.cutAt (hc : it.Counts progress) (hs : (progress s).expansions = 0) (m more : Nat) :
    CutAt m Result.IsSpent Result.progress (it.run m s) (it.run (m + more) s) := by
  obtain ⟨n, left, s', rfl, hafter, hlast⟩ := it.run_ends m s
  obtain ⟨k, hk, hwithin⟩ := hc.run (n + left) s
  have hexpansions := hwithin.expansions
  rw [Nat.add_assoc, hafter.run_add (left + more)]
  generalize it.run (n + left) s = r at hlast hexpansions ⊢
  cases hlast with
  | ended hended =>
    refine ⟨by omega, fun _ => run_of_ended hended _, fun hspent => ?_⟩
    exact absurd hspent (hc.ended hended).1
  | stopped hopen =>
    obtain ⟨hspent, hprogress⟩ := hc.stopped s'
    refine ⟨by omega, fun hnot => absurd hspent hnot, fun _ => ?_⟩
    obtain ⟨_, -, hmore⟩ := hc.run (0 + more) s'
    rw [hprogress, (hc.after hafter).expansions, hs]
    exact ⟨by omega, hmore.events⟩
  | advance hopen hadvance =>
    refine ⟨by omega, fun _ => ?_, fun hspent => absurd hspent (hc.last hadvance).1⟩
    rw [Nat.add_right_comm, run_of_inl hopen hadvance]

end Iteration

/-! ## Tree and graph search -/

section
variable [Scalar κ] {μ : Type} {δ : Type → Type} [Discipline δ κ]

omit [Scalar κ] in
theorem Horizon.sameWork_offer (policy : TimedPolicy) (memory : Memory σ μ)
    (kids : List (Placed σ α κ)) (h : Horizon σ α κ μ δ) :
    h.stats.SameWork (offer policy memory kids h).stats := by
  induction kids generalizing h with
  | nil => exact .refl _
  | cons kid rest ih =>
    obtain ⟨stats, frontier, seen⟩ := h
    unfold offer
    split
    · have hskip : stats.SameWork { stats with depthSkipped := stats.depthSkipped + 1 } := ⟨rfl, rfl⟩
      exact hskip.trans (ih ⟨_, frontier, seen⟩)
    split
    next seen' _ => exact ih ⟨stats, frontier.push kid kid.node.cost, seen'⟩
    next seen' _ =>
      have hdrop : stats.SameWork { stats with duplicates := stats.duplicates + 1 } := ⟨rfl, rfl⟩
      exact hdrop.trans (ih ⟨_, frontier, seen'⟩)

theorem Exploration.Round.progress {P : Problem σ α κ} {policy : TimedPolicy} {memory : Memory σ μ}
    {s s' : Exploration σ α κ μ δ} {here : Placed σ α κ} {rest : Frontier δ (Placed σ α κ)}
    {run : Run σ α κ} {kids : List (Placed σ α κ)}
    (hr : Round P policy memory s here rest run kids s') :
    s.run.progress.Grows 1 s'.run.progress := by
  have hgrows : s.noted.progress.Grows 1 run.progress := Run.progress_expand_ok hr.expand
  rw [hr.offers]
  refine ⟨?_, hgrows.events⟩
  exact (Horizon.sameWork_offer policy memory kids _).expansions.trans hgrows.expansions

theorem Exploration.Ends.progress {P : Problem σ α κ} {s : Exploration σ α κ μ δ}
    {algorithm : String} {r : Result σ α κ} (hends : Ends P s algorithm r) :
    r.progress = s.run.progress := by
  cases hends with
  | expansion _ expand => rw [Run.progress_finish, Run.progress_expand_error expand]; rfl
  | _ => exact Run.progress_finish ..

theorem Exploration.counts (P : Problem σ α κ) (policy : TimedPolicy) (memory : Memory σ μ)
    (algorithm : String) :
    (iteration (δ := δ) P policy memory algorithm).Counts fun s => s.run.progress where
  ended h := by
    obtain ⟨-, rfl⟩ := eq_of_ended h
    exact ⟨Run.exhausted_ne_expansionBudgetExceeded, Run.progress_finish ..⟩
  stopped _ := ⟨rfl, Run.progress_finish ..⟩
  last h := ⟨(ends_of_inl h).2, 0, Nat.zero_le _, (ends_of_inl h).1.progress ▸ .refl _⟩
  round h := by
    obtain ⟨_, _, _, _, hr⟩ := round_of_inr h
    exact hr.progress

theorem exploreFromRoot_cutAt (P : Problem σ α κ) (policy : TimedPolicy) (memory : Memory σ μ)
    (algorithm : String) {m m' : Nat} (hm : m ≤ m') :
    CutAt m Result.IsSpent Result.progress
      (exploreFromRoot δ P { policy with maxExpansions := m } memory algorithm)
      (exploreFromRoot δ P { policy with maxExpansions := m' } memory algorithm) := by
  obtain ⟨more, rfl⟩ := Nat.exists_eq_add_of_le hm
  rw [exploreFromRoot_eq_run, exploreFromRoot_eq_run]
  exact (Exploration.counts P policy memory algorithm).cutAt rfl m more

end

/-! ## Best-first search -/

section
variable [Scalar κ] [BEq σ] [Hashable σ]

namespace BestFirst

variable {P : Problem σ α κ} {eval : Evaluation σ α κ} {reopening : Reopening} {policy : TimedPolicy}
  {s s' : BestFirst σ α κ} {here : Placed σ α κ} {f : κ}
  {rest : Frontier (Ranked κ) (Placed σ α κ)} {run : Run σ α κ} {kids : List (Placed σ α κ)}
  {algorithm : String} {r : Result σ α κ}

theorem progress_offers {violation? : Option (Violation κ)}
    (hexpand : s.noted.expand P here f = (run, .ok kids))
    (hoffers : offerAll eval reopening policy (s.close here rest run) kids = (s', violation?)) :
    s.run.progress.Grows 1 s'.run.progress := by
  have hgrows : s.noted.progress.Grows 1 run.progress := Run.progress_expand_ok hexpand
  have hsame := progress_offerAll eval reopening policy (s.close here rest run) kids
  rw [hoffers] at hsame
  rw [hsame]
  exact hgrows

theorem Ends.progress (hends : Ends P eval reopening policy s algorithm r) :
    ∃ n ≤ 1, s.run.progress.Grows n r.progress := by
  have hself : ∀ termination : Termination κ,
      ∃ n ≤ 1, s.run.progress.Grows n (s.noted.finish algorithm termination).progress := by
    intro termination
    rw [Run.progress_finish]
    exact ⟨0, Nat.zero_le _, .refl _⟩
  cases hends with
  | expansion _ expand =>
    rw [Run.progress_finish, Run.progress_expand_error expand]
    exact ⟨0, Nat.zero_le _, .refl _⟩
  | evaluation _ expand offers =>
    rw [Run.progress_finish]
    exact ⟨1, Nat.le_refl _, progress_offers expand offers⟩
  | _ => exact hself _

theorem counts (P : Problem σ α κ) (eval : Evaluation σ α κ) (reopening : Reopening)
    (policy : TimedPolicy) (algorithm : String) :
    (iteration P eval reopening policy algorithm).Counts fun s => s.run.progress where
  ended h := by
    obtain ⟨-, rfl⟩ := eq_of_ended h
    exact ⟨Run.exhausted_ne_expansionBudgetExceeded, Run.progress_finish ..⟩
  stopped _ := ⟨rfl, Run.progress_finish ..⟩
  last h := ⟨(ends_of_inl h).2, (ends_of_inl h).1.progress⟩
  round h := by
    obtain ⟨_, _, _, _, _, ht⟩ := turn_of_inr h
    exact progress_offers ht.expand ht.offers

end BestFirst

theorem bestFirst_cutAt (P : Problem σ α κ) (eval : Evaluation σ α κ) (reopening : Reopening)
    (policy : TimedPolicy) (algorithm : String) {m m' : Nat} (hm : m ≤ m') :
    CutAt m Result.IsSpent Result.progress
      (bestFirst P eval reopening { policy with maxExpansions := m } algorithm)
      (bestFirst P eval reopening { policy with maxExpansions := m' } algorithm) := by
  cases heval : eval (SearchTree.rootNode P.initial) with
  | error violation =>
    rw [BestFirst.bestFirst_of_error algorithm heval, BestFirst.bestFirst_of_error algorithm heval]
    exact ⟨Nat.zero_le m, fun _ => rfl, fun hspent => by cases hspent⟩
  | ok f =>
    obtain ⟨more, rfl⟩ := Nat.exists_eq_add_of_le hm
    rw [BestFirst.bestFirst_eq_run algorithm heval, BestFirst.bestFirst_eq_run algorithm heval]
    exact (BestFirst.counts P eval reopening policy algorithm).cutAt rfl m more

end

/-! ## Depth-limited search -/

/-- Expansions are only added, and the record only grows. -/
def Progress.GrowsTo (p p' : Progress κ) : Prop := ∃ n, p.Grows n p'

namespace Progress.GrowsTo

theorem refl (p : Progress κ) : p.GrowsTo p := ⟨0, .refl p⟩

theorem trans {p p' p'' : Progress κ} (h : p.GrowsTo p') (h' : p'.GrowsTo p'') :
    p.GrowsTo p'' := by
  obtain ⟨_, h⟩ := h
  obtain ⟨_, h'⟩ := h'
  exact ⟨_, h.trans h'⟩

end Progress.GrowsTo

/-- The search of a subtree was stopped because its budget was spent. -/
def Verdict.IsSpent (v : Verdict κ) : Prop := v = .stopped .expansionBudgetExceeded

/-- The outcome of a pass whose root gets this verdict. -/
def Verdict.outcome : Verdict κ → Termination κ
  | .found node => .goalReached node
  | .cutoff => .cutoff
  | .failure => .frontierExhausted
  | .stopped termination => termination

theorem Verdict.IsSpent.ne_cutoff {v : Verdict κ} (h : v.IsSpent) : v ≠ .cutoff := by
  rintro rfl
  cases h

theorem Verdict.IsSpent.ne_failure {v : Verdict κ} (h : v.IsSpent) : v ≠ .failure := by
  rintro rfl
  cases h
theorem Verdict.isSpent_iff {v : Verdict κ} :
    v.IsSpent ↔ v.outcome = .expansionBudgetExceeded := by
  cases v <;> simp [IsSpent, outcome]

section
variable {m m' : Nat} {visit visit' : Run σ α κ → Placed σ α κ → Run σ α κ × Verdict κ}

theorem progress_dropFailed (kids : List (Placed σ α κ)) (r : Run σ α κ × Verdict κ) :
    (Run.dropFailed kids r).1.progress = r.1.progress := by
  unfold Run.dropFailed
  split <;> rfl

theorem visitEach_cons_grows
    (grows : ∀ (run : Run σ α κ) kids cut,
      run.progress.GrowsTo (visitEach visit run kids cut).1.progress)
    (run : Run σ α κ) (kid : Placed σ α κ) (rest : List (Placed σ α κ)) (cut : Bool) :
    (visit run kid).1.progress.GrowsTo (visitEach visit run (kid :: rest) cut).1.progress := by
  unfold visitEach
  split
  next run' hcutoff =>
    rw [hcutoff]
    exact grows run' rest true
  next run' hfailure =>
    rw [hfailure]
    exact grows run' rest cut
  next => exact .refl _

theorem visitEach_grows
    (grows : ∀ (run : Run σ α κ) kid, run.progress.GrowsTo (visit run kid).1.progress)
    (run : Run σ α κ) (kids : List (Placed σ α κ)) (cut : Bool) :
    run.progress.GrowsTo (visitEach visit run kids cut).1.progress := by
  induction kids generalizing run cut with
  | nil => exact .refl _
  | cons kid rest ih =>
    have hkid := grows run kid
    unfold visitEach
    split
    next run' hcutoff =>
      rw [hcutoff] at hkid
      exact hkid.trans (ih run' true)
    next run' hfailure =>
      rw [hfailure] at hkid
      exact hkid.trans (ih run' cut)
    next => exact hkid

/-- If each subtree is cut by the budget alone, so are all of them together. -/
theorem visitEach_cutAt
    (grows : ∀ (run : Run σ α κ) kid, run.progress.GrowsTo (visit' run kid).1.progress)
    (hvisit : ∀ (run : Run σ α κ) kid, run.stats.expansions ≤ m →
      CutAt m (·.2.IsSpent) (·.1.progress) (visit run kid) (visit' run kid))
    (run : Run σ α κ) (hrun : run.stats.expansions ≤ m) (kids : List (Placed σ α κ))
    (cut : Bool) :
    CutAt m (·.2.IsSpent) (·.1.progress) (visitEach visit run kids cut)
      (visitEach visit' run kids cut) := by
  induction kids generalizing run cut with
  | nil =>
    refine ⟨hrun, fun _ => rfl, ?_⟩
    cases cut <;> simp [visitEach, Verdict.IsSpent]
  | cons kid rest ih =>
    have hkid := hvisit run kid hrun
    have hlater := visitEach_cons_grows (visitEach_grows grows) run kid rest cut
    by_cases hspent : (visit run kid).2.IsSpent
    · -- the budget is spent in the first subtree, and the visit ends there
      have hstop : visitEach visit run (kid :: rest) cut = visit run kid :=
        visitEach_of_decided hspent.ne_cutoff hspent.ne_failure rest cut
      obtain ⟨hm, hevents⟩ := hkid.cut hspent
      obtain ⟨_, hgrows⟩ := hlater
      rw [hstop]
      exact ⟨hkid.within, fun hnot => absurd hspent hnot,
        fun _ => ⟨hm, hevents.trans hgrows.events⟩⟩
    · have hsame := hkid.finished hspent
      have hwithin := hkid.within
      unfold visitEach
      rw [hsame]
      split
      next run' hcutoff =>
        rw [hcutoff] at hwithin
        exact ih run' hwithin true
      next run' hfailure =>
        rw [hfailure] at hwithin
        exact ih run' hwithin cut
      next => exact ⟨hwithin, fun _ => rfl, fun h => absurd h hspent⟩

theorem CutAt.dropFailed {r r' : Run σ α κ × Verdict κ}
    (h : CutAt m (·.2.IsSpent) (·.1.progress) r r') (kids : List (Placed σ α κ)) :
    CutAt m (·.2.IsSpent) (·.1.progress) (Run.dropFailed kids r) (Run.dropFailed kids r') := by
  constructor
  · rw [progress_dropFailed]
    exact h.within
  · rw [verdict_dropFailed]
    exact fun hnot => by rw [h.finished hnot]
  · rw [verdict_dropFailed, progress_dropFailed, progress_dropFailed]
    exact h.cut

end

section
variable [Scalar κ] (P : Problem σ α κ) (policy : TimedPolicy) {m m' : Nat}

theorem descend_grows (remaining : Nat) (run : Run σ α κ) (here : Placed σ α κ) :
    run.progress.GrowsTo (descend P policy remaining run here).1.progress := by
  induction remaining generalizing run here with
  | zero =>
    unfold descend
    split <;> exact .refl _
  | succ remaining ih =>
    unfold descend
    split
    · exact .refl _
    dsimp only
    split
    · exact .refl _
    split
    next hexpand =>
      rw [Run.progress_expand_error hexpand]
      exact .refl _
    next expanded kids hexpand =>
      rw [progress_dropFailed]
      have hexpanded : run.progress.GrowsTo expanded.progress :=
        ⟨1, Run.progress_expand_ok hexpand⟩
      exact hexpanded.trans
        (visitEach_grows ih (expanded.noteHighWater expanded.tree.size) kids false)

theorem TimedPolicy.timeIsUp_budget (policy : TimedPolicy) (m : Nat) :
    ({ policy with maxExpansions := m } : TimedPolicy).timeIsUp = policy.timeIsUp := rfl

/-- A subtree is cut by the budget alone. -/
theorem descend_cutAt (hm : m ≤ m') (remaining : Nat) (run : Run σ α κ) (here : Placed σ α κ)
    (hrun : run.stats.expansions ≤ m) :
    CutAt m (·.2.IsSpent) (·.1.progress)
      (descend P { policy with maxExpansions := m } remaining run here)
      (descend P { policy with maxExpansions := m' } remaining run here) := by
  induction remaining generalizing run here with
  | zero =>
    unfold descend
    split <;> exact ⟨hrun, fun _ => rfl, by simp [Verdict.IsSpent]⟩
  | succ remaining ih =>
    have hgrows := descend_grows P { policy with maxExpansions := m' } (remaining + 1) run here
    unfold descend at hgrows ⊢
    split
    · exact ⟨hrun, fun _ => rfl, by simp [Verdict.IsSpent]⟩
    next hgoal =>
    rw [if_neg hgoal] at hgrows
    dsimp only at hgrows ⊢
    unfold TimedPolicy.stop? at hgrows ⊢
    rw [TimedPolicy.timeIsUp_budget policy m, TimedPolicy.timeIsUp_budget policy m']
    by_cases hspent : m ≤ run.stats.expansions
    · -- the smaller budget is spent here; the larger one only adds to what was done
      rw [if_pos hspent]
      obtain ⟨_, hgrows⟩ := hgrows
      exact ⟨hrun, fun hnot => absurd rfl hnot,
        fun _ => ⟨Nat.le_antisymm hrun hspent, hgrows.events⟩⟩
    rw [if_neg hspent, if_neg (show ¬ m' ≤ run.stats.expansions by omega)]
    by_cases htime : policy.timeIsUp run.stats.expansions = true
    · rw [if_pos htime]
      exact ⟨hrun, fun _ => rfl, by simp [Verdict.IsSpent]⟩
    rw [if_neg htime]
    dsimp only
    split
    next hexpand =>
      have hprogress := Run.progress_expand_error hexpand
      exact ⟨hprogress ▸ hrun, fun _ => rfl, by simp [Verdict.IsSpent]⟩
    next expanded kids hexpand =>
      have hexpansions := (Run.progress_expand_ok hexpand).expansions
      refine (visitEach_cutAt (descend_grows P _ remaining) ih
        (expanded.noteHighWater expanded.tree.size) ?_ kids false).dropFailed kids
      show expanded.progress.expansions ≤ m
      have hless : run.progress.expansions < m := Nat.lt_of_not_le hspent
      omega

/-! ## Passes -/

theorem pass_eq (limit : Nat) (run : Run σ α κ) :
    run.pass P policy limit =
      let root := SearchTree.empty.addRoot P.initial
      let r := descend P policy limit { run with tree := root.1 } root.2
      (r.1, r.2.outcome) := by
  unfold Run.pass
  dsimp only
  split
  all_goals
    next h =>
      rw [h]
      rfl

theorem pass_grows (limit : Nat) (run : Run σ α κ) :
    run.progress.GrowsTo (run.pass P policy limit).1.progress := by
  rw [pass_eq]
  exact descend_grows P policy limit { run with tree := (SearchTree.empty.addRoot P.initial).1 } _

theorem pass_cutAt (hm : m ≤ m') (limit : Nat) (run : Run σ α κ)
    (hrun : run.stats.expansions ≤ m) :
    CutAt m (·.2 = .expansionBudgetExceeded) (·.1.progress)
      (run.pass P { policy with maxExpansions := m } limit)
      (run.pass P { policy with maxExpansions := m' } limit) := by
  have h := descend_cutAt P policy hm limit
    { run with tree := (SearchTree.empty.addRoot P.initial).1 }
    (SearchTree.empty.addRoot P.initial).2 hrun
  rw [pass_eq, pass_eq]
  refine ⟨h.within, fun hnot => ?_, fun hspent => h.cut (Verdict.isSpent_iff.2 hspent)⟩
  dsimp only
  rw [h.finished fun hspent => hnot (Verdict.isSpent_iff.1 hspent)]

theorem deepen_grows (passes limit : Nat) (run : Run σ α κ) :
    run.progress.GrowsTo (run.deepen P policy passes limit).1.progress := by
  induction passes generalizing limit run with
  | zero => exact .refl _
  | succ passes ih =>
    have hpass := pass_grows P policy limit run
    unfold Run.deepen
    split
    next hcutoff =>
      rw [hcutoff] at hpass
      exact hpass.trans (ih _ _)
    next => exact hpass

theorem deepen_succ_grows (passes limit : Nat) (run : Run σ α κ) :
    (run.pass P policy limit).1.progress.GrowsTo
      (run.deepen P policy (passes + 1) limit).1.progress := by
  rw [Run.deepen]
  split
  next hcutoff =>
    rw [hcutoff]
    exact deepen_grows P policy passes (limit + 1) _
  next => exact .refl _

theorem deepen_cutAt (hm : m ≤ m') (passes limit : Nat) (run : Run σ α κ)
    (hrun : run.stats.expansions ≤ m) :
    CutAt m (·.2 = .expansionBudgetExceeded) (·.1.progress)
      (run.deepen P { policy with maxExpansions := m } passes limit)
      (run.deepen P { policy with maxExpansions := m' } passes limit) := by
  induction passes generalizing limit run with
  | zero => exact ⟨hrun, fun _ => rfl, by simp [Run.deepen]⟩
  | succ passes ih =>
    have hpass := pass_cutAt P policy hm limit run hrun
    have hlater := deepen_succ_grows P { policy with maxExpansions := m' } passes limit run
    by_cases hspent : (run.pass P { policy with maxExpansions := m } limit).2 =
        .expansionBudgetExceeded
    · have hstop : run.deepen P { policy with maxExpansions := m } (passes + 1) limit =
          run.pass P { policy with maxExpansions := m } limit := by
        rw [Run.deepen]
        split
        next hcutoff => simp [hcutoff] at hspent
        next => rfl
      obtain ⟨hexpansions, hevents⟩ := hpass.cut hspent
      obtain ⟨_, hgrows⟩ := hlater
      rw [hstop]
      exact ⟨hpass.within, fun hnot => absurd hspent hnot,
        fun _ => ⟨hexpansions, hevents.trans hgrows.events⟩⟩
    · have hsame := hpass.finished hspent
      have hwithin := hpass.within
      rw [Run.deepen, Run.deepen, hsame]
      split
      next run' hcutoff =>
        rw [hcutoff] at hwithin
        exact ih (limit + 1) run' hwithin
      next => exact ⟨hwithin, fun _ => rfl, fun h => absurd h hspent⟩

omit [Scalar κ] in
theorem CutAt.finish {r r' : Run σ α κ × Termination κ}
    (h : CutAt m (·.2 = .expansionBudgetExceeded) (·.1.progress) r r') (algorithm : String) :
    CutAt m Result.IsSpent Result.progress (r.1.finish algorithm r.2)
      (r'.1.finish algorithm r'.2) := by
  constructor
  · rw [Run.progress_finish]
    exact h.within
  · exact fun hnot => by rw [h.finished hnot]
  · rw [Run.progress_finish, Run.progress_finish]
    exact h.cut

theorem depthLimitedSearch_cutAt (limit : Nat) (hm : m ≤ m') :
    CutAt m Result.IsSpent Result.progress
      (depthLimitedSearch P limit { policy with maxExpansions := m })
      (depthLimitedSearch P limit { policy with maxExpansions := m' }) :=
  (pass_cutAt P policy hm limit (.empty policy) (Nat.zero_le m)).finish _

theorem iterativeDeepeningSearch_cutAt (hm : m ≤ m') :
    CutAt m Result.IsSpent Result.progress
      (iterativeDeepeningSearch P { policy with maxExpansions := m })
      (iterativeDeepeningSearch P { policy with maxExpansions := m' }) :=
  (deepen_cutAt P policy hm (policy.maxDepth + 1) 0 (.empty policy) (Nat.zero_le m)).finish _

end

/-! ## All strategies -/

section
variable [Scalar κ] [BEq σ] [Hashable σ]

/-- The most expansions that a strategy makes under the budget `m`. -/
def Strategy.budget : Strategy σ α κ → (m : Nat) → Nat
  | cappedBreadthFirstTree, m => min m treeSearchCap
  | _, m => m

theorem Strategy.cutAt (strategy : Strategy σ α κ) (P : Problem σ α κ) (policy : TimedPolicy)
    {m m' : Nat} (hm : m ≤ m') :
    CutAt (strategy.budget m) Result.IsSpent Result.progress
      (strategy.run P { policy with maxExpansions := m })
      (strategy.run P { policy with maxExpansions := m' }) := by
  cases strategy with
  | tree waiting => cases waiting <;> exact exploreFromRoot_cutAt P policy _ _ hm
  | graph waiting => cases waiting <;> exact exploreFromRoot_cutAt P policy _ _ hm
  | breadthFirstTree => exact exploreFromRoot_cutAt P policy _ _ hm
  | breadthFirstGraph => exact exploreFromRoot_cutAt P policy _ _ hm
  | depthFirstTree => exact exploreFromRoot_cutAt P policy _ _ hm
  | depthFirstGraph => exact exploreFromRoot_cutAt P policy _ _ hm
  | cappedBreadthFirstTree =>
    exact exploreFromRoot_cutAt P policy _ _ (min_le_min_right treeSearchCap hm)
  | bestFirst eval reopening => exact bestFirst_cutAt P eval reopening policy _ hm
  | uniformCost => exact bestFirst_cutAt P (fun node => .ok node.cost) .never policy _ hm
  | greedy => exact bestFirst_cutAt P _ _ policy _ hm
  | astar =>
    exact bestFirst_cutAt P (fun node => (checkedHeuristic P node).map (node.cost + ·))
      .onCheaperPath policy _ hm
  | depthLimited limit => exact depthLimitedSearch_cutAt P policy limit hm
  | iterativeDeepening => exact iterativeDeepeningSearch_cutAt P policy hm

/-- A larger budget of expansions never changes a finished answer: a run keeps its budget; if that
is not spent, a larger one gives the same outcome; if it is, exactly so many expansions were made,
and a larger one makes them first. -/
theorem largerBudget_same (P : Problem σ α κ) (strategy : Strategy σ α κ) (policy : TimedPolicy)
    {m m' : Nat} (hm : m ≤ m') :
    let r := strategy.run P { policy with maxExpansions := m }
    let r' := strategy.run P { policy with maxExpansions := m' }
    r.stats.expansions ≤ strategy.budget m ∧
      (r.termination ≠ .expansionBudgetExceeded → r' = r) ∧
      (r.termination = .expansionBudgetExceeded →
        r.stats.expansions = strategy.budget m ∧
          Option.Rel (· <+: ·) r.events r'.events) := by
  obtain ⟨hwithin, hfinished, hcut⟩ := strategy.cutAt P policy hm
  exact ⟨hwithin, hfinished, hcut⟩

/-- One expansion is not enough to climb the stairs by iterative deepening, three are. -/
theorem stairs_sameBudget :
    (let r := Strategy.iterativeDeepening.run stairs { maxExpansions := 1, recordTrace := true }
      let r' := Strategy.iterativeDeepening.run stairs { maxExpansions := 5, recordTrace := true }
      r.termination = .expansionBudgetExceeded ∧ r.stats.expansions = 1 ∧
        Option.Rel (· <+: ·) r.events r'.events) ∧
    (Strategy.iterativeDeepening.run stairs { maxExpansions := 3 }).termination = .goalReached 4 ∧
      Strategy.iterativeDeepening.run stairs { maxExpansions := 5 } =
        Strategy.iterativeDeepening.run stairs { maxExpansions := 3 } := by
  have hspent : (Strategy.iterativeDeepening.run stairs
      { maxExpansions := 1, recordTrace := true }).termination = .expansionBudgetExceeded := by cbv
  have hreached : (Strategy.iterativeDeepening.run stairs
      { maxExpansions := 3 }).termination = .goalReached 4 := by cbv
  obtain ⟨-, -, hcut⟩ := largerBudget_same stairs .iterativeDeepening { recordTrace := true }
    (show 1 ≤ 5 by decide)
  obtain ⟨-, hsame, -⟩ := largerBudget_same stairs .iterativeDeepening {}
    (show 3 ≤ 5 by decide)
  exact ⟨⟨hspent, hcut hspent⟩, hreached, hsame (by rw [hreached]; simp)⟩

end

end ProblemSolving
