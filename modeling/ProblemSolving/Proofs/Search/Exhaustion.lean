import Mathlib
import ProblemSolving.Proofs.Number.Exact
import ProblemSolving.Proofs.Search.Coverage
import ProblemSolving.Proofs.Search.Deepening
import ProblemSolving.Proofs.Search.EveryStrategy
import ProblemSolving.Proofs.Search.Exploration

/-!
# An exhausted frontier proves that there is no goal

* `bestFirst_conclusive` : best-first search covers every path, by whatever evaluation.
* `Strategy.conclusive` : every strategy tells the truth about its problem.
* `frontierExhausted_absent` : so no two strategies disagree.
-/

namespace ProblemSolving

variable {σ α κ : Type} [Scalar κ] [BEq σ] [Hashable σ] [LawfulBEq σ]

/-! ## Best-first search -/

namespace BestFirst

variable {P : Problem σ α κ} {eval : Evaluation σ α κ} {reopening : Reopening} {policy : TimedPolicy}
  {s s' : BestFirst σ α κ} {here : Placed σ α κ} {f : κ}
  {rest : Frontier (Ranked κ) (Placed σ α κ)} {run : Run σ α κ} {kids : List (Placed σ α κ)}

/-- Any cost is as good as any other. -/
def AnyCost (_ _ : κ) : Prop := True

theorem Covered.turn_anyCost (h : Sound P eval s)
    (hc : s.run.stats.depthSkipped = 0 → Covered P AnyCost s)
    (ht : Turn P eval reopening policy s here f rest run kids s')
    (hskipped : s'.run.stats.depthSkipped = 0) : Covered P AnyCost s' := by
  have hcovered := hc (ht.depthSkipped_eq_zero h hskipped)
  refine hcovered.turn h ht (fun _ _ => trivial) (fun _ _ => trivial) ?_ ?_ hskipped
  · exact fun _ _ _ _ _ => ⟨fun _ => trivial, fun _ => trivial⟩
  · exact fun _ _ _ _ => ⟨fun _ => trivial, fun _ => trivial⟩

omit [LawfulBEq σ] in
/-- When no state is open, and nothing was left out, no path leads to a goal. -/
theorem Covered.absent (hc : Covered P AnyCost s) (h : Sound P eval s)
    (hnone : ∀ state : σ, s.opened[state]? = none) {t : σ} (ht : P.Reachable t) :
    P.isGoal t = false := by
  obtain ⟨as, hp⟩ := ht
  refine eq_false_of_ne_true fun hgoal => ?_
  let Φ : σ → κ → List α → Prop := fun _ _ _ => True
  have hstep : ∀ state g a as g', s.closed[state]? = some g → a ∈ P.actions state →
      P.Path (P.result state a) as t → Φ state g (a :: as) →
      AnyCost g' (P.pathCost g state a (P.result state a)) → Φ (P.result state a) g' as :=
    fun _ _ _ _ _ _ _ _ _ _ => trivial
  obtain ⟨mid, g, bs, ⟨n, f, hentry, -, -⟩, -, -⟩ :=
    hc.waits_before_goal (Φ := Φ) h (fun _ _ => trivial) hstep hp hgoal
  cases (hnone mid).symm.trans hentry

end BestFirst

theorem bestFirst_conclusive (P : Problem σ α κ) (eval : Evaluation σ α κ)
    (reopening : Reopening) (policy : TimedPolicy) (algorithm : String) :
    (bestFirst P eval reopening policy algorithm).termination.Conclusive P := by
  let I : BestFirst σ α κ → Prop := fun s =>
    s.run.stats.depthSkipped = 0 → BestFirst.Covered P BestFirst.AnyCost s
  have hstart : ∀ f, I ((BestFirst.fresh (Run.start P policy).1).enter (Run.start P policy).2 f) :=
    fun f _ => BestFirst.covered_enter_root (Run.holds_start P policy) rfl trivial
  have hkeep : ∀ {s here f rest run kids s'}, BestFirst.Sound P eval s → I s →
      BestFirst.Turn P eval reopening policy s here f rest run kids s' → I s' :=
    fun h hI ht hskipped => BestFirst.Covered.turn_anyCost h hI ht hskipped
  rcases BestFirst.bestFirst_ends algorithm (fun f _ => hstart f) hkeep with
    ⟨violation, -, hrun⟩ | ⟨s, h, hI, hends⟩
  · rw [hrun]
    exact .of_ne (by simp) (by simp)
  · constructor
    · intro hr t ht
      obtain ⟨hempty, hskipped⟩ := hends.frontierExhausted hr
      exact (hI hskipped).absent h (h.opened_eq_none hempty) ht
    · intro id hid
      obtain ⟨here, f, rest, hnext, hgoal, -, -, -⟩ :=
        hends.goalReached (Result.isGoalReached_iff.2 ⟨id, hid⟩)
      exact ⟨here.node.state, h.grown.reachable (h.next hnext).1, hgoal⟩

/-! ## All strategies -/

/-- What the end of any search tells about the problem is true. -/
theorem Strategy.conclusive (strategy : Strategy σ α κ) (P : Problem σ α κ) (policy : TimedPolicy) :
    (strategy.run P policy).termination.Conclusive P := by
  cases strategy with
  | tree waiting => cases waiting <;> exact exploreFromRoot_conclusive Memory.lawful_forgetful ..
  | graph waiting => cases waiting <;> exact exploreFromRoot_conclusive Memory.lawful_seen ..
  | breadthFirstTree => exact exploreFromRoot_conclusive Memory.lawful_forgetful ..
  | breadthFirstGraph => exact exploreFromRoot_conclusive Memory.lawful_seen ..
  | depthFirstTree => exact exploreFromRoot_conclusive Memory.lawful_forgetful ..
  | depthFirstGraph => exact exploreFromRoot_conclusive Memory.lawful_seen ..
  | cappedBreadthFirstTree => exact exploreFromRoot_conclusive Memory.lawful_forgetful ..
  | bestFirst eval reopening => exact bestFirst_conclusive ..
  | uniformCost => exact bestFirst_conclusive ..
  | greedy => exact bestFirst_conclusive ..
  | astar => exact bestFirst_conclusive ..
  | depthLimited limit => exact depthLimitedSearch_conclusive ..
  | iterativeDeepening => exact iterativeDeepeningSearch_conclusive ..

/-- If any strategy exhausts its frontier, no goal can be reached, and no strategy reaches one under
any policy. -/
theorem frontierExhausted_absent (P : Problem σ α κ) (strategy : Strategy σ α κ) (policy : TimedPolicy)
    (h : (strategy.run P policy).termination = .frontierExhausted) :
    (∀ s, P.Reachable s → P.isGoal s = false) ∧
      ∀ (other : Strategy σ α κ) (policy' : TimedPolicy),
        (other.run P policy').isGoalReached = false := by
  have habsent := (strategy.conclusive P policy).absent h
  refine ⟨habsent, ?_⟩
  intro other policy'
  refine eq_false_of_ne_true fun hreached => ?_
  obtain ⟨id, hid⟩ := Result.isGoalReached_iff.1 hreached
  obtain ⟨s, hs, hgoal⟩ := (other.conclusive P policy').present id hid
  rw [habsent s hs] at hgoal
  contradiction

/-- Three places in a ring, the goal being a fourth one. -/
def ring : Problem Nat Bool ℚ where
  initial := 0
  actions _ := [true, false]
  result s forward := if forward then (s + 1) % 3 else (s + 2) % 3
  isGoal s := s == 3
  pathCost cost _ _ _ := cost + 1
  heuristic _ := 0

theorem ring_absent :
    ((Strategy.graph .queue).run ring {}).termination = .frontierExhausted ∧
      ∀ (other : Strategy Nat Bool ℚ) (policy : TimedPolicy),
        (other.run ring policy).isGoalReached = false := by
  have hexhausted : ((Strategy.graph .queue).run ring {}).termination = .frontierExhausted := by
    cbv
  exact ⟨hexhausted, (frontierExhausted_absent ring (.graph .queue) {} hexhausted).2⟩

end ProblemSolving
