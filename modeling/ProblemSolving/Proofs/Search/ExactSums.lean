import Mathlib
import ProblemSolving.Proofs.Search.Astar
import ProblemSolving.Proofs.Search.UniformCost

/-!
# Uniform-cost search in exact arithmetic

* `Problem.Weighted` : costs are sums of finite steps that are not negative.
* `SearchTree.SumsExactly` : no cost in the tree was rounded.
* `SearchTree.Grown.exactly` : then a node costs what its path does, in exact numbers.
* `uniformCostSearch_exactly` : a search that rounds nothing reports a solution with the least exact
  cost.
* `uniformCostSearch_of_reach?` : a search that takes a goal within a number of turns.
-/

namespace ProblemSolving

variable {σ α κ : Type} [Scalar κ] [MeasuredScalar κ]

/-! ## Exact costs -/

/-- Costs are sums of steps, each of them finite and not negative. -/
structure Problem.Weighted (P : Problem σ α κ) (step : σ → α → κ) : Prop where
  additive : ∀ c s, ∀ a ∈ P.actions s, P.pathCost c s a (P.result s a) = c + step s a
  finite : ∀ s, ∀ a ∈ P.actions s, Scalar.isFinite (step s a) = true
  nonneg : ∀ s, ∀ a ∈ P.actions s, Scalar.le 0 (step s a) = true

/-- No cost in the tree was rounded. -/
def SearchTree.SumsExactly (t : SearchTree σ α κ) (step : σ → α → κ) : Prop :=
  ∀ parent node : Placed σ α κ, ∀ a, t.Holds parent → t.Holds node →
    node.node.origin = some (parent.id, a) → AddsExactly parent.node.cost (step parent.node.state a)

variable {P : Problem σ α κ} {step : σ → α → κ} {t : SearchTree σ α κ}

theorem Problem.exactCost_append {s u : σ} {as : List α} (hp : P.Path s as u) (bs : List α) :
    P.exactCost step s (as ++ bs) = P.exactCost step s as + P.exactCost step u bs := by
  induction hp with
  | nil => exact (zero_add _).symm
  | @cons s u a as legal later ih =>
    show value (step s a) + P.exactCost step (P.result s a) (as ++ bs) =
      value (step s a) + P.exactCost step (P.result s a) as + P.exactCost step u bs
    rw [ih, add_assoc]

theorem Problem.Weighted.value_nonneg (hw : P.Weighted step) {s : σ} {a : α}
    (ha : a ∈ P.actions s) : 0 ≤ value (step s a) := by
  have hle := hw.nonneg s a ha
  rwa [MeasuredScalar.le_iff MeasuredScalar.isFinite_zero (hw.finite s a ha),
    MeasuredScalar.value_zero] at hle

theorem Problem.Weighted.exactCost_nonneg (hw : P.Weighted step) {s u : σ} {as : List α}
    (hp : P.Path s as u) : 0 ≤ P.exactCost step s as := by
  induction hp with
  | nil => exact le_rfl
  | cons legal _ ih => exact add_nonneg (hw.value_nonneg legal) ih

/-- In a tree whose sums are exact, a node costs what the path to it does. -/
theorem SearchTree.Grown.exactly (hg : t.Grown P) (hw : P.Weighted step)
    (hexact : t.SumsExactly step) {n : Placed σ α κ} (hn : t.Holds n) :
    Scalar.isFinite n.node.cost = true ∧ ∃ as, P.Path P.initial as n.node.state ∧
      value n.node.cost = P.exactCost step P.initial as := by
  obtain ⟨id, node⟩ := n
  induction id using Nat.strongRecOn generalizing node with
  | _ id ih =>
    rcases hg id node hn with rfl | ⟨parent, hlt, hparent, a, legal, hchild⟩
    · exact ⟨MeasuredScalar.isFinite_zero, [], .nil _, MeasuredScalar.value_zero⟩
    · obtain ⟨-, as, hpath, hvalue⟩ := ih parent.id hlt parent.node hparent
      have hadd := hexact parent ⟨id, node⟩ a hparent hn (by rw [hchild]; rfl)
      have hcost : node.cost = parent.node.cost + step parent.node.state a := by
        rw [hchild]
        exact hw.additive _ _ a legal
      refine ⟨hcost ▸ hadd.sum, as ++ [a], ?_, ?_⟩
      · rw [hchild]
        exact hpath.concat legal
      · show value node.cost = _
        rw [hcost, hadd.value_add, hvalue, Problem.exactCost_append hpath]
        simp only [Problem.exactCost, add_zero]

/-! ## The search -/

namespace BestFirst

variable [BEq σ] [Hashable σ] {s : BestFirst σ α κ} {here : Placed σ α κ} {f : κ}
  {rest : Frontier (Ranked κ) (Placed σ α κ)}

/-- A goal that is taken costs no more than any solution does in exact numbers. -/
theorem Dijkstra.cheapest_exactly (hw : P.Weighted step) (costs : P.MonotoneCosts)
    (h : Sound P byCost s) (hd : Dijkstra P s) (hexact : s.run.tree.SumsExactly step)
    (hskipped : s.run.stats.depthSkipped = 0) (hnext : s.next? = some (here, f, rest))
    {as : List α} (hsolution : P.Solution as) :
    value here.node.cost ≤ P.exactCost step P.initial as := by
  obtain ⟨t, hp, htgoal⟩ := hsolution
  have hnumber : ∀ {n : Placed σ α κ}, s.run.tree.Holds n → Scalar.isFinite n.node.cost = true :=
    fun hn => (h.grown.exactly hw hexact hn).1
  let Φ : σ → κ → List α → Prop := fun state g bs => Scalar.isFinite g = true →
    value g + P.exactCost step state bs ≤ P.exactCost step P.initial as
  have hstart : ∀ g, NoDearer g 0 → Φ P.initial g as := by
    intro g hg hfinite
    have hzero := (MeasuredScalar.le_iff hfinite MeasuredScalar.isFinite_zero).1 hg.2
    rw [MeasuredScalar.value_zero] at hzero
    linarith
  have hstep : ∀ state g a bs g', s.closed[state]? = some g → a ∈ P.actions state →
      P.Path (P.result state a) bs t → Φ state g (a :: bs) →
      NoDearer g' (P.pathCost g state a (P.result state a)) → Φ (P.result state a) g' bs := by
    intro state g a bs g' hclosed hlegal _ hΦ hg' hfinite
    obtain ⟨-, n, hn, rfl, rfl, hkids⟩ := h.closed state g hclosed
    obtain ⟨kid, hkid, hnode⟩ := hkids a hlegal
    have hadd := hexact n kid a hn hkid (by rw [hnode]; rfl)
    have hle := hg'.2
    rw [hw.additive _ _ a hlegal, MeasuredScalar.le_iff hfinite hadd.sum, hadd.value_add] at hle
    have hΦ' : value n.node.cost + (value (step n.node.state a) +
        P.exactCost step (P.result n.node.state a) bs) ≤ P.exactCost step P.initial as :=
      hΦ (hnumber hn)
    linarith
  obtain ⟨mid, g, bs, hwaits, hbs, hΦ⟩ :=
    (hd.covered hskipped).waits_before_goal h hstart hstep hp htgoal
  have hle := hd.le_waits costs h hnext hwaits
  obtain ⟨n, f', -, hn, rfl⟩ := hwaits
  obtain rfl := h.cost_eq hnext
  have hahead := hw.exactCost_nonneg hbs
  have hfirst := (MeasuredScalar.le_iff (hnumber (h.next hnext).1) (hnumber hn)).1 hle
  have htotal := hΦ (hnumber hn)
  linarith

end BestFirst

/-- A search that rounds nothing reports a solution with the least exact cost. -/
theorem uniformCostSearch_exactly [MonotoneScalar κ] [BEq σ] [Hashable σ] [LawfulBEq σ]
    (hw : P.Weighted step) {policy : TimedPolicy}
    (hgoal : (uniformCostSearch P policy).isGoalReached = true)
    (hskipped : (uniformCostSearch P policy).stats.depthSkipped = 0)
    (hexact : (uniformCostSearch P policy).tree.SumsExactly step) :
    ∃ c as, (uniformCostSearch P policy).pathCost? = some c ∧ P.Solution as ∧
      value c = P.exactCost step P.initial as ∧
      ∀ bs, P.Solution bs → value c ≤ P.exactCost step P.initial bs := by
  have costs : P.MonotoneCosts := .of_weights hw.additive hw.nonneg
  obtain ⟨s, h, hd, hends⟩ := BestFirst.uniformCostSearch_ends costs policy
  obtain ⟨here, f, rest, hnext, hisGoal, hterm, htree, hsame⟩ := hends.goalReached hgoal
  have hheld : (uniformCostSearch P policy).tree.Holds here := htree ▸ (h.next hnext).1
  rw [htree] at hexact
  obtain ⟨-, as, hpath, hvalue⟩ := h.grown.exactly hw hexact (h.next hnext).1
  refine ⟨here.node.cost, as, Result.pathCost?_of_goalReached hterm hheld, ⟨_, hpath, hisGoal⟩,
    hvalue, fun bs hbs => ?_⟩
  exact hd.cheapest_exactly hw costs h hexact (hsame.symm.trans hskipped) hnext hbs

omit [MeasuredScalar κ] in
/-- A search with the default budget that takes a goal within a number of turns. -/
theorem uniformCostSearch_of_reach? [BEq σ] [Hashable σ] [LawfulBEq σ] (turns : Nat)
    (hturns : turns ≤ 1000000)
    (h : (BestFirst.reach? P BestFirst.byCost .never {} turns
      ((BestFirst.fresh (Run.start P {}).1).enter (Run.start P {}).2 0)).map
        (fun r => r.2.stats.depthSkipped) = some 0) :
    (uniformCostSearch P {}).isGoalReached = true ∧
      (uniformCostSearch P {}).stats.depthSkipped = 0 := by
  obtain ⟨⟨here, run⟩, hreach, hskipped⟩ := Option.map_eq_some_iff.1 h
  have hsearch : uniformCostSearch P {} = run.finish _ (.goalReached here.id) :=
    BestFirst.bestFirst_of_reach? _ turns rfl (fun _ => rfl) hturns hreach
  rw [hsearch]
  exact ⟨rfl, hskipped⟩

end ProblemSolving
