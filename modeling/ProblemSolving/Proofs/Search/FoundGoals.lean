import Mathlib
import ProblemSolving.Proofs.Number.Difference
import ProblemSolving.Proofs.Search.Budgets
import ProblemSolving.Proofs.Search.WholeEstimates

/-!
# A* finds a goal

Over unit steps with a consistent whole-number estimate, a search can neither come to a violation nor
lose the way to a goal, so with a budget for all states it finds one.

* `Problem.Total` : a problem in which everything is defined.
* `astarSearch_isGoalReached` : a solution that is not too deep is enough for a goal to be reached.
-/

namespace ProblemSolving

open Double (Whole)

variable {σ α : Type}

/-- Whatever a search may ask for is defined. -/
structure Problem.Total (P : Problem σ α Double) : Prop where
  actions : ∀ s, P.isDefined s = true
  estimate : ∀ node, P.isEstimable node = true

variable {P : Problem σ α Double} {h : σ → Nat} {states most bound : Nat}

/-! ## No violation -/

theorem Problem.Paced.exists_value (hp : P.Paced h) (ht : P.Total) (node : Node σ α Double)
    (hsmall : h node.state < 2 ^ 53) : ∃ f, byTotal P node = .ok f := by
  have hwhole : Whole (h node.state) (P.heuristic node) := by
    rw [hp.heuristic]
    exact Double.whole_ofNat hsmall
  have hnumber : Scalar.isNaN (P.heuristic node) = false := Double.isNaN_of_isFinite hwhole.1
  have hnonneg : Scalar.lt (P.heuristic node) 0 = false := by
    rw [← Bool.not_eq_true, hwhole.lt_iff Double.whole_zero]
    exact Nat.not_lt_zero _
  refine ⟨node.cost + P.heuristic node, ?_⟩
  simp [byTotal, checkedHeuristic, estimate, ht.estimate, hnumber, hnonneg, Except.map]

theorem Problem.Paced.lowersCost_child (hp : P.Paced h) {parent : Placed σ α Double}
    (hcost : Whole parent.node.depth parent.node.cost) (hsmall : parent.node.depth + 1 < 2 ^ 53)
    (a : α) :
    SearchTree.lowersCost parent.node.cost (SearchTree.child P parent a) = false := by
  have hchild : (SearchTree.child P parent a).cost = parent.node.cost + 1 := by
    simp only [SearchTree.child, hp.unit, Problem.unitCost]
  have hone : Whole 1 (1 : Double) := Double.whole_ofNat (by norm_num)
  have hstep := (hcost.add hone hsmall).sub hcost (Nat.le_add_right ..) hsmall
  unfold SearchTree.lowersCost
  rw [hchild]
  have hnumber : Scalar.isNaN (parent.node.cost + 1 - parent.node.cost) = false :=
    Double.isNaN_of_isFinite hstep.1
  rw [hnumber, Bool.false_or, ← Bool.not_eq_true, hstep.lt_iff Double.whole_zero]
  exact Nat.not_lt_zero _

/-- An expansion comes to a violation only if something is not defined or a cost is lowered. -/
theorem Run.expand_ne_error {run run' : Run σ α Double} {parent : Placed σ α Double} {f : Double}
    {violation : Violation Double} (defined : P.isDefined parent.node.state = true)
    (fair : ∀ a, SearchTree.lowersCost parent.node.cost (SearchTree.child P parent a) = false) :
    run.expand P parent f ≠ (run', .error violation) := by
  have hfind : (SearchTree.children P parent).find?
      (SearchTree.lowersCost parent.node.cost) = none := by
    refine List.find?_eq_none.2 fun node hnode => ?_
    obtain ⟨a, -, rfl⟩ := SearchTree.mem_children.1 hnode
    rw [fair a]
    exact Bool.false_ne_true
  unfold expand SearchTree.expand
  simp [defined, hfind]

namespace BestFirst

variable [BEq σ] [Hashable σ] {policy : TimedPolicy} {s s' : BestFirst σ α Double}
  {eval : Evaluation σ α Double} {reopening : Reopening} {kids : List (Placed σ α Double)}

theorem exists_error_of_offerAll {violation : Violation Double}
    (hoffers : offerAll eval reopening policy s kids = (s', some violation)) :
    ∃ kid ∈ kids, eval kid.node = .error violation := by
  induction kids generalizing s with
  | nil => cases hoffers
  | cons kid rest ih =>
    have hlater : (∃ later ∈ rest, eval later.node = .error violation) →
        ∃ later ∈ kid :: rest, eval later.node = .error violation :=
      fun ⟨later, hmem, herror⟩ => ⟨later, List.mem_cons_of_mem _ hmem, herror⟩
    unfold offerAll at hoffers
    split at hoffers
    · exact hlater (ih hoffers)
    split at hoffers
    next violation' herror =>
      obtain rfl := Option.some.inj (Prod.mk.inj hoffers).2
      exact ⟨kid, List.mem_cons_self .., herror⟩
    next => exact hlater (ih hoffers)

end BestFirst

/-! ## Enough budget -/

theorem Problem.Compact.lt (hc : P.Compact h states most bound) {s : σ} (hs : P.Reachable s) :
    h s < 2 ^ 53 := by
  have hle := hc.estimate s hs
  have hsmall := hc.small
  omega

/-- With a budget for all states, A* reaches a goal if one lies within the depth of the policy. -/
theorem astarSearch_isGoalReached [BEq σ] [Hashable σ] [LawfulBEq σ] (hp : P.Paced h)
    (hc : P.Compact h states most bound) (ht : P.Total) {policy : TimedPolicy}
    (htime : ∀ n, policy.timeIsUp n = false) (hbudget : states < policy.maxExpansions)
    {as : List α} (hs : P.Solution as) (hshort : as.length ≤ policy.maxDepth) :
    (astarSearch P policy).isGoalReached = true := by
  rcases BestFirst.straight_ends hp hc policy with
    ⟨violation, hroot, -⟩ | ⟨s, visited, hsound, hst, hends⟩
  · obtain ⟨f, hf⟩ := hp.exists_value ht (SearchTree.rootNode P.initial) (hc.lt ⟨[], .nil _⟩)
    cases hroot.symm.trans hf
  have hcounts := hst.frugal.counts hsound.grown hp hc
  have hnoError : ∀ {here f rest run}, s.next? = some (here, f, rest) → ∀ violation,
      s.noted.expand P here f ≠ (run, .error violation) := by
    intro here f rest run hnext violation
    obtain ⟨hheld, -, -⟩ := hsound.next hnext
    refine Run.expand_ne_error (ht.actions _) (hp.lowersCost_child (hcounts.cost hheld) ?_)
    have hdepth := hsound.grown.depth_le hheld
    have hid := SearchTree.get?_lt hheld
    have hsize := hst.frugal.size_lt hc
    omega
  have hcut := (bestFirst_cutAt P (byTotal P) .onCheaperPath policy "astar_search"
    (Nat.le_refl policy.maxExpansions)).cut
  obtain ⟨r, hr⟩ : ∃ r, r = astarSearch P policy := ⟨_, rfl⟩
  change Result.IsSpent (astarSearch P policy) →
    (astarSearch P policy).progress.expansions = _ ∧ _ at hcut
  rw [← hr] at hends hcut ⊢
  cases hends with
  | goal => rfl
  | emptied hempty =>
    obtain ⟨t, hpath, htgoal⟩ := hs
    obtain ⟨n, f, bs, -, hentry, -, -⟩ :=
      hst.waits_before_goal hcounts hsound hpath htgoal hshort
    cases (hsound.opened_eq_none hempty n.node.state).symm.trans hentry
  | stopped termination hstop =>
    rcases hstop with rfl | ⟨hup, -⟩
    · have hspent : s.noted.stats.expansions = policy.maxExpansions := (hcut rfl).1
      have hvisits : s.noted.stats.expansions = visited.length := hst.once.distinct.visits.count
      have hlength := hst.frugal.length_le hc
      omega
    · rw [htime] at hup
      contradiction
  | expansion next expand => exact absurd expand (hnoError next _)
  | evaluation next expand offers =>
    obtain ⟨kid, hkid, herror⟩ := BestFirst.exists_error_of_offerAll offers
    obtain ⟨hgrown, -⟩ := hst.expand hc hsound next expand
    have hheld := (Run.expand_ok expand).1.holds kid hkid
    obtain ⟨f, hf⟩ := hp.exists_value ht kid.node (hc.lt (hgrown.reachable hheld))
    cases herror.symm.trans hf

end ProblemSolving
