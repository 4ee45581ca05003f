import Mathlib
import ProblemSolving.Proofs.Search.FoundGoals
import ProblemSolving.Proofs.World.SlidingEstimates
import ProblemSolving.Proofs.World.SlidingTexts

/-!
# Searches for the goal of the sliding puzzle

* `SlidingPuzzle.guidedBy` : the search problem of a puzzle, with one of the estimates.
* `SlidingPuzzle.paced`, `SlidingPuzzle.compact` : every estimate is consistent, and there are few
  enough boards.
* `SlidingPuzzle.isGoalReached` : with a budget for all boards A* reaches the goal.
* `slidingPuzzle_shortest` : what it finds is a shortest solution, whatever the estimate and the
  policy.
-/

namespace ProblemSolving

open scoped List

namespace SlidingPuzzle

/-- The puzzle with another estimate. -/
def withHeuristic (p : SlidingPuzzle) (kind : PuzzleHeuristic) : SlidingPuzzle :=
  { p with heuristic := kind }

/-- The search for the goal of a puzzle by one of the estimates. -/
def guidedBy (p : SlidingPuzzle) (kind : PuzzleHeuristic) : Problem Board Move Double :=
  (p.withHeuristic kind).problem

variable {p : SlidingPuzzle} {b : Board} {m : Move}

/-! ## The estimates along a search -/

theorem Guides.estimate_slide (h : p.Guides) (hb : b.Proper) (hm : m ∈ b.moves) :
    p.estimate b ≤ p.estimate (b.slide m) + 1 := by
  unfold estimate
  cases p.heuristic with
  | zero => exact Nat.zero_le _
  | misplacedTiles => exact (h.misplacedTiles_slide b hb m hm).2
  | manhattan =>
    have hstep := h.manhattan_slide b hb m hm
    dsimp only
    omega

theorem Guides.estimate_goal (h : p.Guides) (hgoal : p.goal.Proper) : p.estimate p.goal = 0 := by
  unfold estimate
  cases p.heuristic with
  | zero => rfl
  | misplacedTiles => exact (h.misplacedTiles_eq_zero p.goal hgoal).2 rfl
  | manhattan => exact (h.manhattan_eq_zero p.goal hgoal).2 rfl

theorem estimate_le (p : SlidingPuzzle) (b : Board) : p.estimate b ≤ 36 := by
  unfold estimate
  cases p.heuristic with
  | zero => exact Nat.zero_le 36
  | misplacedTiles =>
    dsimp only
    rw [misplacedTiles_eq_tally]
    have hle := Board.tally_le fun i => stray_le_one p.goal (b.squares.get i) i
    omega
  | manhattan =>
    dsimp only
    rw [manhattan_eq_tally]
    exact Board.tally_le fun i => walk_le p.goal (b.squares.get i) i

theorem proper_of_reachable (hinitial : p.initial.Proper)
    (hb : (p.problem : Problem Board Move Double).Reachable b) : b.Proper := by
  obtain ⟨ms, hpath⟩ := hb
  exact hinitial.run? (Board.run?_eq_some_iff.2 hpath)

theorem paced (hinitial : p.initial.Proper) (hgoal : p.goal.Proper) :
    (p.problem : Problem Board Move Double).Paced p.estimate where
  unit := rfl
  heuristic _ := rfl
  step b hb m hm := (guides hgoal).estimate_slide (proper_of_reachable hinitial hb) hm
  goal b _ hisGoal := by
    obtain rfl : b = p.goal := of_decide_eq_true hisGoal
    exact (guides hgoal).estimate_goal hgoal

/-! ## How many boards there are -/

/-- Different proper boards are different orders of the blank and the tiles. -/
theorem length_le_factorial {boards : List Board} (hnodup : boards.Nodup)
    (hproper : ∀ b ∈ boards, b.Proper) : boards.length ≤ Nat.factorial 9 := by
  have hlists : (boards.map fun b => b.squares.toList).Nodup :=
    hnodup.map fun _ _ h => Board.ext_squares h
  have hsubset : (boards.map fun b => b.squares.toList) ⊆ (List.range 9).permutations := by
    intro squares hsquares
    obtain ⟨b, hb, rfl⟩ := List.mem_map.1 hsquares
    exact List.mem_permutations.2 (hproper b hb)
  have hle := (List.subperm_of_subset hlists hsubset).length_le
  rwa [List.length_map, List.length_permutations, List.length_range] at hle

theorem length_moves_le (b : Board) : b.moves.length ≤ 4 := by
  have hall : ∀ i, (Board.movesAt i).length ≤ 4 := by decide
  exact hall b.blank

theorem compact (hinitial : p.initial.Proper) :
    (p.problem : Problem Board Move Double).Compact p.estimate (Nat.factorial 9) 4 36 where
  reachable boards hnodup hreach :=
    length_le_factorial hnodup fun b hb => proper_of_reachable hinitial (hreach b hb)
  actions b _ := length_moves_le b
  estimate b _ := estimate_le p b
  small := by decide

/-! ## Solutions -/

theorem solution_iff {ms : List Move} : (p.problem : Problem Board Move Double).Solution ms ↔
    Board.run? ms p.initial = some p.goal := by
  rw [Board.run?_eq_some_iff (κ := Double) (p := p)]
  constructor
  · rintro ⟨t, hpath, ht⟩
    obtain rfl : t = p.goal := of_decide_eq_true ht
    exact hpath
  · exact fun hpath => ⟨p.goal, hpath, decide_eq_true rfl⟩

theorem length_eq_of_shortest {kind kind' : PuzzleHeuristic} {ms ms' : List Move}
    (h : (p.guidedBy kind).Shortest ms) (h' : (p.guidedBy kind').Shortest ms') :
    ms.length = ms'.length := by
  have hrun : ∀ {kind ms}, (p.guidedBy kind).Solution ms ↔ Board.run? ms p.initial = some p.goal :=
    fun {kind _} => solution_iff (p := p.withHeuristic kind)
  exact (h.2 ms' (hrun.2 (hrun.1 h'.1))).antisymm (h'.2 ms (hrun.2 (hrun.1 h.1)))

/-- With a budget for all boards, A* reaches a goal that is not too deep for the policy. -/
theorem isGoalReached (hinitial : p.initial.Proper) (hgoal : p.goal.Proper) {policy : TimedPolicy}
    (htime : ∀ n, policy.timeIsUp n = false) (hbudget : Nat.factorial 9 < policy.maxExpansions)
    {ms : List Move} (hrun : Board.run? ms p.initial = some p.goal)
    (hshort : ms.length ≤ policy.maxDepth) :
    (astarSearch (p.problem : Problem Board Move Double) policy).isGoalReached = true :=
  astarSearch_isGoalReached (paced hinitial hgoal) (compact hinitial) ⟨fun _ => rfl, fun _ => rfl⟩
    htime hbudget (solution_iff.2 hrun) hshort

theorem estimate_le_length (hgoal : p.goal.Proper) (hb : b.Proper) {ms : List Move}
    (hpath : (p.problem : Problem Board Move Double).Path b ms p.goal) : p.estimate b ≤ ms.length := by
  -- as if the search had started at this board
  let q : SlidingPuzzle := { p with initial := b }
  have hpath' : (q.problem : Problem Board Move Double).Path b ms p.goal :=
    Board.run?_eq_some_iff.1 (Board.run?_eq_some_iff.2 hpath)
  exact (paced (p := q) hb hgoal).le_length ⟨[], .nil b⟩ hpath' (decide_eq_true rfl)

end SlidingPuzzle

open SlidingPuzzle in
/-- **Every estimate of the sliding puzzle gives shortest solutions.** Of a puzzle that is accepted,
every move changes the sum of the ways by one and the number of tiles off their squares by at most
one, and neither is more than the moves that are left. So with either of them, or with none, under
every policy, what A* finds is a shortest solution, it reopens no board on the way, and breadth-first
search finds no shorter one. -/
theorem slidingPuzzle_shortest {i g : String} {p : SlidingPuzzle}
    (hp : SlidingPuzzle.parse i g = .ok p) :
    p.Guides ∧
    (∀ b ms, b.Proper → (p.problem : Problem Board Move Double).Path b ms p.goal →
      p.misplacedTiles b ≤ ms.length ∧ p.manhattan b ≤ ms.length) ∧
    (∀ kind policy, (astarSearch (p.guidedBy kind) policy).isGoalReached = true →
      (astarSearch (p.guidedBy kind) policy).stats.reopened = 0 ∧
        ∃ ms, (astarSearch (p.guidedBy kind) policy).solution? = some ms ∧
          (p.guidedBy kind).Shortest ms) ∧
    ∀ kind policy ms kind' policy' ms',
      (astarSearch (p.guidedBy kind) policy).solution? = some ms →
      (astarSearch (p.guidedBy kind') policy').solution? = some ms' ∨
        (breadthFirstGraphSearch (p.guidedBy kind') policy').solution? = some ms' →
      ms.length = ms'.length := by
  have hproper : ∀ {text b}, Board.parse text = .ok b → b.Proper := by
    intro text b h
    obtain ⟨hdigits, hshows⟩ := Board.parse_eq_ok_iff.1 h
    exact hshows.proper hdigits
  obtain ⟨hi, hg, -, -⟩ := parse_eq_ok_iff.1 hp
  have hgoal := hproper hg
  have hastar : ∀ kind policy, (astarSearch (p.guidedBy kind) policy).stats.reopened = 0 ∧
      ∀ ms, (astarSearch (p.guidedBy kind) policy).solution? = some ms →
        (p.guidedBy kind).Shortest ms := fun kind policy =>
    astarSearch_shortest (paced (p := p.withHeuristic kind) (hproper hi) hgoal)
      (compact (hproper hi)) policy
  refine ⟨guides hgoal, ?_, ?_, ?_⟩
  · intro b ms hb hpath
    have hpath' : ∀ kind, (p.guidedBy kind).Path b ms p.goal :=
      fun _ => Board.run?_eq_some_iff.1 (Board.run?_eq_some_iff.2 hpath)
    exact ⟨estimate_le_length (p := p.withHeuristic .misplacedTiles) hgoal hb (hpath' _),
      estimate_le_length (p := p.withHeuristic .manhattan) hgoal hb (hpath' _)⟩
  · intro kind policy hreached
    obtain ⟨id, hid⟩ := Result.isGoalReached_iff.1 hreached
    have hs := Result.solution?_eq_some.2 ⟨id, hid, rfl⟩
    exact ⟨(hastar kind policy).1, _, hs, (hastar kind policy).2 _ hs⟩
  · intro kind policy ms kind' policy' ms' hms hms'
    have hshortest' : (p.guidedBy kind').Shortest ms' := by
      rcases hms' with hms' | hms'
      · exact (hastar kind' policy').2 ms' hms'
      · have hbreadth : (Strategy.breadthFirstGraph.run (p.guidedBy kind') policy').solution? =
          some ms' := hms'
        have hnearest : (Strategy.breadthFirstGraph : Strategy Board Move Double).IsNearestFirst :=
          trivial
        exact Strategy.solution_shortest hnearest (p.guidedBy kind') policy' hbreadth
    exact length_eq_of_shortest ((hastar kind policy).2 ms hms) hshortest'

/-- A puzzle that takes three moves. -/
def threeMoves : SlidingPuzzle where
  initial := ⟨#v[1, 2, 5, 3, 4, 0, 6, 7, 8]⟩
  goal := ⟨#v[0, 1, 2, 3, 4, 5, 6, 7, 8]⟩

theorem threeMoves_shortest :
    SlidingPuzzle.parse "125340678" "012345678" = .ok threeMoves ∧
      ∀ kind, ∃ ms, (astarSearch (threeMoves.guidedBy kind) {}).solution? = some ms ∧
        ms.length = 3 ∧ (astarSearch (threeMoves.guidedBy kind) {}).stats.reopened = 0 := by
  have hparse : SlidingPuzzle.parse "125340678" "012345678" = .ok threeMoves := rfl
  have hrun : Board.run? [.up, .left, .left] threeMoves.initial = some threeMoves.goal := by
    decide +kernel
  have hinitial : threeMoves.initial.Proper := by unfold Board.Proper; decide
  have hgoal : threeMoves.goal.Proper := by unfold Board.Proper; decide
  obtain ⟨-, hbound, hshortest, -⟩ := slidingPuzzle_shortest hparse
  refine ⟨hparse, fun kind => ?_⟩
  have hreached : (astarSearch (threeMoves.guidedBy kind) {}).isGoalReached = true :=
    SlidingPuzzle.isGoalReached (p := threeMoves.withHeuristic kind) hinitial hgoal (fun _ => rfl)
      (by decide) hrun (by decide)
  obtain ⟨hreopened, ms, hms, hsolution, hfewest⟩ := hshortest kind {} hreached
  have hrun' : Board.run? ms threeMoves.initial = some threeMoves.goal :=
    (SlidingPuzzle.solution_iff (p := threeMoves.withHeuristic kind)).1 hsolution
  have hmost : ms.length ≤ 3 :=
    hfewest _ ((SlidingPuzzle.solution_iff (p := threeMoves.withHeuristic kind)).2 hrun)
  have hleast : threeMoves.manhattan threeMoves.initial ≤ ms.length :=
    (hbound _ ms hinitial (Board.run?_eq_some_iff.1 hrun')).2
  have hthree : threeMoves.manhattan threeMoves.initial = 3 := by decide +kernel
  exact ⟨ms, hms, by omega, hreopened⟩

end ProblemSolving
