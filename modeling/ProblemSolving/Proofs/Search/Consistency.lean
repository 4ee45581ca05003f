import Mathlib
import ProblemSolving.Proofs.Search.Astar
import ProblemSolving.Proofs.Search.Recording
import ProblemSolving.Proofs.Search.Rising

/-!
# A* with a consistent estimate

* `Problem.Consistent` : no step lowers the estimate by more than it costs.
* `Problem.Consistent.climbs` : then the sum of cost and estimate climbs, unless it is rounded.
* `astarSearch_consistent` : so no state is reopened, none is expanded twice, and the values of the
  expansions never fall.
-/

namespace ProblemSolving

variable {σ α κ : Type} [Scalar κ] [MeasuredScalar κ]

/-- Costs are sums of steps; the estimate depends on the state alone, and no step lowers it by more
than it costs. -/
structure Problem.Consistent (P : Problem σ α κ) (step : σ → α → κ) (estimate : σ → κ) : Prop where
  additive : ∀ c s, ∀ a ∈ P.actions s, P.pathCost c s a (P.result s a) = c + step s a
  heuristic : ∀ node, P.heuristic node = estimate node.state
  consistent : ∀ s, ∀ a ∈ P.actions s,
    value (estimate s) ≤ value (step s a) + value (estimate (P.result s a))

section
variable {P : Problem σ α κ} {step : σ → α → κ} {estimate : σ → κ} {t : SearchTree σ α κ}

/-- In a tree whose sums are exact, the sum of cost and estimate climbs. -/
theorem Problem.Consistent.climbs (hc : P.Consistent step estimate) (he : t.Exact P step) :
    t.Climbs P (byTotal P) where
  number {n f} hn hf := by
    obtain ⟨rfl, -⟩ := byTotal_ok hf
    exact MeasuredScalar.isNumber_of_isFinite (he.values n hn).sum
  rises {parent kid a f f'} hparent hkid legal hchild hf hf' := by
    obtain ⟨rfl, -⟩ := byTotal_ok hf
    obtain ⟨rfl, -⟩ := byTotal_ok hf'
    have hsum := he.values parent hparent
    have hsum' := he.values kid hkid
    have hstep := he.steps parent kid a hparent hkid (by rw [hchild]; rfl)
    have hconsistent := hc.consistent _ a legal
    have hcost : kid.node.cost = parent.node.cost + step parent.node.state a := by
      rw [hchild]
      exact hc.additive _ _ a legal
    have hstate : kid.node.state = P.result parent.node.state a := by
      rw [hchild]
      rfl
    refine (MeasuredScalar.le_iff hsum.sum hsum'.sum).2 ?_
    rw [hsum.value_add, hsum'.value_add, hc.heuristic, hc.heuristic, hcost, hstep.value_add, hstate]
    linarith

theorem Problem.Consistent.ranks (hc : P.Consistent step estimate) (he : t.Exact P step) :
    t.Ranks (byTotal P) := by
  intro m n f f' hm hn hstate hf hf' hle
  obtain ⟨rfl, -⟩ := byTotal_ok hf
  obtain ⟨rfl, -⟩ := byTotal_ok hf'
  have hsum := he.values m hm
  have hsum' := he.values n hn
  rw [MeasuredScalar.le_iff hsum.sum hsum'.sum, hsum.value_add, hsum'.value_add, hc.heuristic,
    hc.heuristic, hstate] at hle
  refine eq_false_of_ne_true fun hlt => ?_
  rw [MeasuredScalar.lt_iff hsum'.left hsum.left] at hlt
  linarith

end

/-- With a consistent estimate and exact sums A* reopens no state and expands none twice, and the
values of its expansions never fall. That a search is recorded makes no other difference. -/
theorem astarSearch_consistent [BEq σ] [Hashable σ] [LawfulBEq σ] (P : Problem σ α κ)
    (step : σ → α → κ) (estimate : σ → κ) (policy : TimedPolicy) (hc : P.Consistent step estimate)
    (hexact : (astarSearch P policy).tree.Exact P step) :
    let r := astarSearch P policy
    let recorded := astarSearch P { policy with recordTrace := true }
    r.stats.reopened = 0 ∧ recorded.silent = r.silent ∧
      ∃ trace, recorded.trace = some trace ∧
        (trace.events.map (·.f)).Pairwise (fun f g => Scalar.le f g = true) ∧
        ∃ states : List σ, states.Nodup ∧ states.length = r.stats.expansions ∧
          trace.events.map (fun e => (r.tree.get? e.node).map (·.state)) = states.map some := by
  intro r recorded
  -- what is proved of the recorded search holds of the other one, which differs in the record alone
  have hsilent : recorded.silent = r.silent :=
    (bestFirst_silent P (byTotal P) .onCheaperPath _ _).trans
      (bestFirst_silent P (byTotal P) .onCheaperPath policy _).symm
  have htree : recorded.tree = r.tree := (congrArg Result.tree hsilent :)
  have hstats : recorded.stats = r.stats := (congrArg Result.stats hsilent :)
  have hkept : ∀ t : SearchTree σ α κ, t.Keeps recorded.tree → t.Exact P step := by
    intro t hkeeps
    rw [htree] at hkeeps
    exact hexact.of_keeps hkeeps
  obtain ⟨hreopened, states, hnodup, hvisits⟩ := bestFirst_once_of_climbs fun t hkeeps _ _ =>
    ⟨hc.climbs (hkept t hkeeps), hc.ranks (hkept t hkeeps)⟩
  have hrecorded : recorded.trace.isSome = true := bestFirst_isSome_trace P (byTotal P) _ _ _
  obtain ⟨trace, htrace⟩ := Option.isSome_iff_exists.1 hrecorded
  have hevents : recorded.progress.events = some trace.events := by
    unfold Result.progress Result.events
    rw [htrace]
    rfl
  have hascends := bestFirst_ascends (fun t hkeeps _ => hc.climbs (hkept t hkeeps)) htrace
  refine ⟨?_, hsilent, trace, htrace, hascends, states, hnodup, ?_, ?_⟩
  · rw [← hstats]
    exact hreopened
  · rw [← hstats]
    exact hvisits.count.symm
  · rw [← htree]
    exact hvisits.recorded _ hevents

/-- The roads of `detour`, with an estimate that is consistent. The third place is reached by the
direct way first, and waits again on the better one. -/
def bypass : Problem (Fin 4) (Fin 4) ℚ :=
  { detour with heuristic := fun node => bypass.toGo node.state }
where
  toGo (s : Fin 4) : ℚ := if s.val = 3 then 0 else 4

theorem bypass_consistent :
    bypass.Consistent detour.road bypass.toGo ∧
      (astarSearch bypass {}).tree.Exact bypass detour.road ∧
      (astarSearch bypass {}).stats.reopened = 0 ∧
      ∃ trace, (astarSearch bypass { recordTrace := true }).trace = some trace ∧
        trace.events.map (·.f) = [4, 5, 6] ∧ ∃ states : List (Fin 4), states.Nodup ∧
          trace.events.map (fun e => ((astarSearch bypass {}).tree.get? e.node).map (·.state)) =
            states.map some := by
  have hconsistent : bypass.Consistent detour.road bypass.toGo :=
    ⟨fun _ _ _ _ => rfl, fun _ => rfl, by decide +kernel⟩
  have hexact : (astarSearch bypass {}).tree.Exact bypass detour.road :=
    ⟨fun _ _ _ _ _ _ => addsExactly_rat _ _, fun _ _ => addsExactly_rat _ _⟩
  have hfacts : (BestFirst.reach? bypass (byTotal bypass) .onCheaperPath { recordTrace := true } 6
      ((BestFirst.fresh (Run.start bypass { recordTrace := true }).1).enter
        (Run.start bypass { recordTrace := true }).2 4)).map (fun r => r.2.chosen) =
      some [4, 5, 6] := by cbv
  obtain ⟨⟨here, run⟩, hreach, hchosen⟩ := Option.map_eq_some_iff.1 hfacts
  have hsearch : astarSearch bypass { recordTrace := true } = run.finish _ (.goalReached here.id) :=
    BestFirst.bestFirst_of_reach? _ 6 (by cbv) (fun _ => rfl) (by decide) hreach
  obtain ⟨hreopened, -, trace, htrace, -, states, hnodup, -, hstates⟩ :=
    astarSearch_consistent bypass detour.road bypass.toGo {} hconsistent hexact
  refine ⟨hconsistent, hexact, hreopened, trace, htrace, ?_, states, hnodup, hstates⟩
  have htrace' : (astarSearch bypass { recordTrace := true }).trace = some trace := htrace
  rw [hsearch] at htrace'
  exact (Run.map_f_events htrace').trans hchosen

end ProblemSolving
