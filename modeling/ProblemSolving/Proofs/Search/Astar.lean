import Mathlib
import ProblemSolving.Proofs.Number.RoundedSum
import ProblemSolving.Proofs.Search.Coverage

/-!
# A* search

* `Problem.exactCost` : the cost of a path whose steps are added without rounding.
* `Problem.Admissible` : costs are sums, and the estimate of a state is at most the cost of every way
  from it to a goal.
* `SearchTree.Exact` : no sum of the search was rounded.
* `astarSearch_exact` : over small whole numbers none is.
* `astarSearch_optimal` : a goal that is reached is reached as cheaply as can be, though the estimate
  may not be consistent.
-/

namespace ProblemSolving

variable {σ α κ : Type}

/-! ## Exact costs -/

section
variable [Scalar κ] [MeasuredScalar κ]

/-- The cost of the actions from a state, every step being of its own cost. -/
def Problem.exactCost (P : Problem σ α κ) (step : σ → α → κ) : σ → List α → ℚ
  | _, [] => 0
  | s, a :: as => value (step s a) + P.exactCost step (P.result s a) as

/-- Adding up the actions from a state rounds nowhere. -/
def Problem.SumsExactly (P : Problem σ α κ) (step : σ → α → κ) : κ → σ → List α → Prop
  | _, _, [] => True
  | c, s, a :: as =>
    AddsExactly c (step s a) ∧ P.SumsExactly step (c + step s a) (P.result s a) as

/-- Costs are sums of steps; the estimate depends on the state alone and is at most the cost of
every way from there to a goal. -/
structure Problem.Admissible (P : Problem σ α κ) (step : σ → α → κ) (estimate : σ → κ) :
    Prop where
  additive : ∀ c s, ∀ a ∈ P.actions s, P.pathCost c s a (P.result s a) = c + step s a
  heuristic : ∀ node, P.heuristic node = estimate node.state
  admissible : ∀ s as t, P.Path s as t → P.isGoal t = true →
    value (estimate s) ≤ P.exactCost step s as

/-- No sum of the search was rounded, neither the cost of a child nor the value of a node. -/
structure SearchTree.Exact (P : Problem σ α κ) (step : σ → α → κ) (t : SearchTree σ α κ) :
    Prop where
  steps : ∀ parent node : Placed σ α κ, ∀ a, t.Holds parent → t.Holds node →
    node.node.origin = some (parent.id, a) →
    AddsExactly parent.node.cost (step parent.node.state a)
  values : ∀ n, t.Holds n → AddsExactly n.node.cost (P.heuristic n.node)

variable {P : Problem σ α κ} {step : σ → α → κ} {estimate : σ → κ}

theorem SearchTree.Exact.of_keeps {t t' : SearchTree σ α κ} (h : t'.Exact P step)
    (hk : t.Keeps t') : t.Exact P step where
  steps parent node a hp hn := h.steps parent node a (hp.keeps hk) (hn.keeps hk)
  values n hn := h.values n (hn.keeps hk)

theorem Problem.Admissible.value_costFrom (ha : P.Admissible step estimate) {s t : σ}
    {as : List α} (hp : P.Path s as t) {c : κ} (hc : Scalar.isFinite c = true)
    (h : P.SumsExactly step c s as) :
    Scalar.isFinite (P.costFrom c s as) = true ∧
      value (P.costFrom c s as) = value c + P.exactCost step s as := by
  induction hp generalizing c with
  | nil => simp [Problem.costFrom, Problem.exactCost, hc]
  | @cons s t a as legal later ih =>
    obtain ⟨hadd, hrest⟩ := h
    obtain ⟨hfinite, hvalue⟩ := ih hadd.sum hrest
    simp only [Problem.costFrom, ha.additive c s a legal, Problem.exactCost]
    refine ⟨hfinite, ?_⟩
    rw [hvalue, hadd.value_add]
    ring

/-- What no step lowers by more than it costs, and is not positive at a goal, is at most the cost of
every way to a goal. -/
theorem Problem.le_exactCost {potential : σ → ℚ}
    (hstep : ∀ s, ∀ a ∈ P.actions s, potential s ≤ value (step s a) + potential (P.result s a))
    (hgoal : ∀ s, P.isGoal s = true → potential s ≤ 0) {s t : σ} {as : List α}
    (hp : P.Path s as t) (ht : P.isGoal t = true) : potential s ≤ P.exactCost step s as := by
  induction hp with
  | nil s => exact hgoal s ht
  | @cons s t a as legal later ih =>
    have hrest := ih ht
    have hfirst := hstep s a legal
    show potential s ≤ value (step s a) + P.exactCost step (P.result s a) as
    linarith

end

/-! ## Whole numbers -/

section
variable {P : Problem σ α Double} {step : σ → α → Double} {estimate : σ → Double}
  {t : SearchTree σ α Double} {most : Nat}

theorem SearchTree.Grown.cost_wholeUpTo (ha : P.Admissible step estimate) (hg : t.Grown P)
    (steps : ∀ s, ∀ a ∈ P.actions s, (step s a).WholeUpTo most)
    (small : t.size * most < 2 ^ 53) {id : Nat} {node : Node σ α Double}
    (h : t.get? id = some node) : node.cost.WholeUpTo (id * most) := by
  induction id using Nat.strongRecOn generalizing node with
  | _ id ih =>
    have hid : id < t.size := SearchTree.get?_lt h
    rcases hg id node h with rfl | ⟨parent, hlt, hparent, a, legal, rfl⟩
    · exact Double.wholeUpTo_zero.mono (Nat.zero_le _)
    · have hsteps : parent.id * most + most ≤ id * most := by
        rw [← Nat.succ_mul]
        exact Nat.mul_le_mul_right most hlt
      have hnodes : id * most ≤ t.size * most := Nat.mul_le_mul_right most hid.le
      have hcost := (ih parent.id hlt hparent).add (steps _ a legal) (by omega)
      show (P.pathCost parent.node.cost parent.node.state a _).WholeUpTo _
      rw [ha.additive _ _ a legal]
      exact hcost.mono hsteps

/-- Whole steps and whole estimates are added without rounding as long as all of them together stay
below `2 ^ 53`. -/
theorem SearchTree.Grown.exact (ha : P.Admissible step estimate) (hg : t.Grown P)
    (steps : ∀ s, ∀ a ∈ P.actions s, (step s a).WholeUpTo most) {bound : Nat}
    (estimates : ∀ s, (estimate s).WholeUpTo bound)
    (small : t.size * most + bound < 2 ^ 53) : t.Exact P step where
  steps parent node a hparent hnode horigin := by
    have hid : parent.id < t.size := SearchTree.get?_lt hparent
    have hnodes : parent.id * most + most ≤ t.size * most := by
      rw [← Nat.succ_mul]
      exact Nat.mul_le_mul_right most hid
    have hcost := hg.cost_wholeUpTo ha steps (by omega) hparent
    rcases hg node.id node.node hnode with hroot | ⟨parent', -, hparent', b, legal, hchild⟩
    · rw [hroot] at horigin
      cases horigin
    · rw [hchild] at horigin
      obtain ⟨hsame, rfl⟩ := Prod.mk.inj (Option.some.inj horigin)
      obtain rfl := hparent'.eq hparent hsame
      exact hcost.addsExactly (steps _ b legal) (by omega)
  values n hn := by
    have hnodes : n.id * most ≤ t.size * most :=
      Nat.mul_le_mul_right most (SearchTree.get?_lt hn).le
    rw [ha.heuristic]
    exact (hg.cost_wholeUpTo ha steps (by omega) hn).addsExactly (estimates _) (by omega)

end

/-! ## The evaluation -/

section
variable [Scalar κ] {P : Problem σ α κ}

theorem checkedHeuristic_ok {node : Node σ α κ} {h : κ} (hok : checkedHeuristic P node = .ok h) :
    h = P.heuristic node ∧ Scalar.isNaN h = false ∧ Scalar.lt h 0 = false := by
  unfold checkedHeuristic estimate at hok
  cases hdefined : P.isEstimable node with
  | false => simp [hdefined] at hok
  | true =>
    simp only [hdefined, if_true] at hok
    split at hok
    · cases hok
    next hcheck =>
      cases hok
      simpa using hcheck

/-- The evaluation of A*: the cost so far and the estimate of the rest. -/
abbrev byTotal (P : Problem σ α κ) : Evaluation σ α κ :=
  fun node => (checkedHeuristic P node).map (node.cost + ·)

theorem byTotal_ok {node : Node σ α κ} {f : κ} (hok : byTotal P node = .ok f) :
    f = node.cost + P.heuristic node ∧ Scalar.lt (P.heuristic node) 0 = false := by
  unfold byTotal at hok
  cases hcheck : checkedHeuristic P node with
  | error violation => simp [hcheck, Except.map] at hok
  | ok h =>
    obtain ⟨rfl, -, hneg⟩ := checkedHeuristic_ok hcheck
    rw [hcheck] at hok
    cases hok
    exact ⟨rfl, hneg⟩

end

namespace BestFirst

variable [Scalar κ] [MeasuredScalar κ] [BEq σ] [Hashable σ] {P : Problem σ α κ}
  {step : σ → α → κ} {estimate : σ → κ} {policy : TimedPolicy} {s s' : BestFirst σ α κ}
  {here : Placed σ α κ} {f : κ} {rest : Frontier (Ranked κ) (Placed σ α κ)} {run : Run σ α κ}
  {kids : List (Placed σ α κ)}

/-- A cost that stands for no greater number. -/
def NoMore (g c : κ) : Prop := value g ≤ value c

/-- Unless something was left out for its depth or rounded, the search covers every path. -/
structure Optimal (P : Problem σ α κ) (step : σ → α → κ) (s : BestFirst σ α κ) : Prop where
  ordered : s.frontier.waiting.Ordered
  covered : s.run.tree.Exact P step → s.run.stats.depthSkipped = 0 → Covered P NoMore s

omit [BEq σ] [Hashable σ] in
theorem sorts_byTotal (ha : P.Admissible step estimate) {t : SearchTree σ α κ}
    (he : t.Exact P step) : Sorts (byTotal P) NoMore t := by
  intro m n f f' hm hn hstate hf hf'
  obtain ⟨rfl, -⟩ := byTotal_ok hf
  obtain ⟨rfl, -⟩ := byTotal_ok hf'
  have hm' := he.values m hm
  have hn' := he.values n hn
  have hsame : value (P.heuristic m.node) = value (P.heuristic n.node) := by
    rw [ha.heuristic, ha.heuristic, hstate]
  have hle := MeasuredScalar.le_iff hm'.sum hn'.sum
  rw [hm'.value_add, hn'.value_add, hsame, add_le_add_iff_right] at hle
  unfold NoMore
  constructor
  · exact hle.1
  · intro hnot
    have hlt : ¬ value m.node.cost ≤ value n.node.cost := by
      rw [← hle, hnot]
      simp
    linarith

/-- The node that is taken is worth no more than what an open state and the way from there to a goal
cost together. -/
theorem Optimal.value_le_waits (ha : P.Admissible step estimate) (h : Sound P (byTotal P) s)
    (ho : Optimal P step s) (hexact : s.run.tree.Exact P step)
    (hnext : s.next? = some (here, f, rest)) {mid t : σ} {g : κ} {bs : List α}
    (hw : s.Waits mid g) (hbs : P.Path mid bs t) (ht : P.isGoal t = true) :
    value here.node.cost ≤ value g + P.exactCost step mid bs := by
  obtain ⟨hheld, hvalue, -⟩ := h.next hnext
  obtain ⟨n, f', hentry, hn, rfl⟩ := hw
  obtain ⟨rfl, hvalue'⟩ := h.value_of_entry hentry hn
  have hrank := h.rank_next ho.ordered hnext hentry
  obtain ⟨rfl, hnonneg⟩ := byTotal_ok hvalue
  obtain ⟨rfl, -⟩ := byTotal_ok hvalue'
  have hhere := hexact.values here hheld
  have hthere := hexact.values n hn
  have hh : 0 ≤ value (P.heuristic here.node) :=
    MeasuredScalar.value_nonneg hhere.right hnonneg
  have hle := MeasuredScalar.value_le_of_rank hhere.sum hthere.sum hrank
  have hadmissible := ha.admissible _ bs t hbs ht
  rw [hhere.value_add, hthere.value_add, ha.heuristic n.node] at hle
  linarith

theorem Optimal.cheapest (ha : P.Admissible step estimate) (h : Sound P (byTotal P) s)
    (ho : Optimal P step s) (hexact : s.run.tree.Exact P step)
    (hskipped : s.run.stats.depthSkipped = 0) (hnext : s.next? = some (here, f, rest))
    {as : List α} (hsolution : P.Solution as) :
    value here.node.cost ≤ P.exactCost step P.initial as := by
  obtain ⟨t, hp, htgoal⟩ := hsolution
  let Φ : σ → κ → List α → Prop := fun state g bs =>
    value g + P.exactCost step state bs ≤ P.exactCost step P.initial as
  have hstart : ∀ g, NoMore g 0 → Φ P.initial g as := by
    intro g hg
    have hzero : value g ≤ 0 := hg.trans_eq MeasuredScalar.value_zero
    show value g + _ ≤ _
    linarith
  have hstep : ∀ state g a bs g', s.closed[state]? = some g → a ∈ P.actions state →
      P.Path (P.result state a) bs t → Φ state g (a :: bs) →
      NoMore g' (P.pathCost g state a (P.result state a)) → Φ (P.result state a) g' bs := by
    intro state g a bs g' hclosed hlegal _ hΦ hg'
    obtain ⟨-, n, hn, rfl, rfl, hkids⟩ := h.closed state g hclosed
    obtain ⟨kid, hkid, hnode⟩ := hkids a hlegal
    have hadd := hexact.steps n kid a hn hkid (by rw [hnode]; rfl)
    unfold NoMore at hg'
    rw [ha.additive _ _ a hlegal, hadd.value_add] at hg'
    have hΦ' : value n.node.cost + (value (step n.node.state a) +
        P.exactCost step (P.result n.node.state a) bs) ≤ P.exactCost step P.initial as := hΦ
    show value g' + _ ≤ _
    linarith
  obtain ⟨mid, g, bs, hw, hbs, hΦ⟩ :=
    (ho.covered hexact hskipped).waits_before_goal h hstart hstep hp htgoal
  exact (ho.value_le_waits ha h hexact hnext hw hbs htgoal).trans hΦ

variable [LawfulBEq σ]

theorem Optimal.turn (ha : P.Admissible step estimate) (h : Sound P (byTotal P) s)
    (ho : Optimal P step s)
    (ht : Turn P (byTotal P) .onCheaperPath policy s here f rest run kids s') :
    Optimal P step s' := by
  refine ⟨ht.ordered h ho.ordered, ?_⟩
  intro hexact hskipped
  obtain ⟨hclose, hoffers⟩ := ht.closes h
  have hcovered := ho.covered (hexact.of_keeps ht.keeps) (ht.depthSkipped_eq_zero h hskipped)
  refine hcovered.turn h ht ?_ ?_ (sorts_byTotal ha hexact) ?_ hskipped
  · exact fun hab hbc => le_trans hab hbc
  · exact fun kid hkid => le_refl _
  · intro kid hkid g hg
    rw [hoffers.tree] at hexact
    obtain ⟨-, n, hn, -, rfl, -⟩ := hclose.closed _ g hg
    have hg' := (hexact.values n hn).left
    have hkid' := (hexact.values kid (ht.expands.holds kid hkid)).left
    have hlt := MeasuredScalar.lt_iff hkid' hg'
    unfold Settles NoMore
    simp only [decide_true, Bool.true_and]
    constructor
    · intro hcheaper
      exact (hlt.1 hcheaper).le
    · intro hdear
      have hnot : ¬ value kid.node.cost < value n.node.cost := by
        rw [← hlt, hdear]
        simp
      linarith

theorem optimal_start (policy : TimedPolicy) (f : κ) :
    Optimal P step ((fresh (Run.start P policy).1).enter (Run.start P policy).2 f) where
  ordered := Ranked.ordered_empty.add _ _
  covered _ _ := covered_enter_root (Run.holds_start P policy) rfl (le_refl _)

/-- The invariant holds when the search ends, unless the root already shows a violation. -/
theorem astarSearch_ends (ha : P.Admissible step estimate) (policy : TimedPolicy)
    (hgoal : (astarSearch P policy).isGoalReached = true) :
    ∃ s, Sound P (byTotal P) s ∧ Optimal P step s ∧
      Ends P (byTotal P) .onCheaperPath policy s "astar_search" (astarSearch P policy) := by
  have hkeep : ∀ {s here f rest run kids s'}, Sound P (byTotal P) s → Optimal P step s →
      Turn P (byTotal P) .onCheaperPath policy s here f rest run kids s' → Optimal P step s' :=
    fun h ho ht => ho.turn ha h ht
  rcases bestFirst_ends "astar_search" (fun f _ => optimal_start policy f) hkeep with
    ⟨violation, -, hrun⟩ | hends
  · have hrun' : astarSearch P policy = _ := hrun
    rw [hrun'] at hgoal
    simp at hgoal
  · exact hends

end BestFirst

/-- Over small whole numbers a search that reaches a goal rounds nothing. -/
theorem astarSearch_exact [BEq σ] [Hashable σ] [LawfulBEq σ] {P : Problem σ α Double}
    {step : σ → α → Double} {estimate : σ → Double} {policy : TimedPolicy} {most bound : Nat}
    (ha : P.Admissible step estimate)
    (steps : ∀ s, ∀ a ∈ P.actions s, (step s a).WholeUpTo most)
    (estimates : ∀ s, (estimate s).WholeUpTo bound)
    (hgoal : (astarSearch P policy).isGoalReached = true)
    (small : (astarSearch P policy).tree.size * most + bound < 2 ^ 53) :
    (astarSearch P policy).tree.Exact P step := by
  obtain ⟨s, h, -, hends⟩ := BestFirst.astarSearch_ends ha policy hgoal
  obtain ⟨_, _, _, -, -, -, htree, -⟩ := hends.goalReached hgoal
  rw [htree] at small ⊢
  exact h.grown.exact ha steps estimates small

/-- A* with an admissible estimate, consistent or not, returns a cheapest solution, as long as its
own sums are not rounded. -/
theorem astarSearch_optimal [Scalar κ] [MeasuredScalar κ] [BEq σ] [Hashable σ] [LawfulBEq σ]
    (P : Problem σ α κ) (step : σ → α → κ) (estimate : σ → κ) (policy : TimedPolicy)
    (ha : P.Admissible step estimate)
    (hgoal : (astarSearch P policy).isGoalReached = true)
    (hskipped : (astarSearch P policy).stats.depthSkipped = 0)
    (hexact : (astarSearch P policy).tree.Exact P step) :
    ∃ c, (astarSearch P policy).pathCost? = some c ∧
      ∀ as, P.Solution as → value c ≤ P.exactCost step P.initial as ∧
        (P.SumsExactly step 0 P.initial as → Scalar.le c (P.totalCost as) = true) := by
  obtain ⟨s, h, ho, hends⟩ := BestFirst.astarSearch_ends ha policy hgoal
  obtain ⟨here, f, rest, hnext, -, hterm, htree, hsame⟩ := hends.goalReached hgoal
  rw [htree] at hexact
  have hheld : (astarSearch P policy).tree.Holds here := htree ▸ (h.next hnext).1
  refine ⟨here.node.cost, Result.pathCost?_of_goalReached hterm hheld, ?_⟩
  intro as hsolution
  have hcheapest := ho.cheapest ha h hexact (hsame.symm.trans hskipped) hnext hsolution
  refine ⟨hcheapest, ?_⟩
  intro hsums
  obtain ⟨t, hp, -⟩ := hsolution
  obtain ⟨hfinite, hvalue⟩ := ha.value_costFrom hp MeasuredScalar.isFinite_zero hsums
  rw [MeasuredScalar.value_zero, zero_add] at hvalue
  exact (MeasuredScalar.le_iff (hexact.values here (h.next hnext).1).left hfinite).2
    (hcheapest.trans_eq hvalue.symm)

/-- Four places, the last one being the goal. The direct way to the third one is not the best. -/
def detour : Problem (Fin 4) (Fin 4) ℚ where
  initial := 0
  actions
    | 0 => [1, 2]
    | 1 => [0, 2]
    | 2 => [3]
    | 3 => []
  result _ next := next
  isGoal s := s == 3
  pathCost cost s next _ := cost + detour.road s next
  heuristic node := detour.toGo node.state
where
  /-- The length of a road. -/
  road (s next : Fin 4) : ℚ := if s = 0 ∧ next = 2 then 3 else if s = 2 then 4 else 1
  /-- An estimate that is right at the second place and says nothing about the third. -/
  toGo (s : Fin 4) : ℚ := if s = 1 then 5 else 0
  /-- How far the goal is. -/
  distance : Fin 4 → ℚ
    | 0 => 6
    | 1 => 5
    | 2 => 4
    | 3 => 0

theorem admissible_detour : detour.Admissible detour.road detour.toGo where
  additive _ _ _ _ := rfl
  heuristic _ := rfl
  admissible s as t hp ht := by
    have hbelow : ∀ s, detour.toGo s ≤ detour.distance s := by decide +kernel
    have hstep : ∀ s, ∀ a ∈ detour.actions s,
        detour.distance s ≤ detour.road s a + detour.distance (detour.result s a) := by
      decide +kernel
    have hgoal : ∀ s, detour.isGoal s = true → detour.distance s ≤ 0 := by decide
    exact (hbelow s).trans (Problem.le_exactCost hstep hgoal hp ht)

theorem detour_optimal :
    detour.Admissible detour.road detour.toGo ∧
      (astarSearch detour {}).stats.depthSkipped = 0 ∧
      (astarSearch detour {}).pathCost? = some 6 ∧
      ∀ as, detour.Solution as → (6 : ℚ) ≤ detour.exactCost detour.road detour.initial as := by
  have hfacts : (BestFirst.reach? detour (byTotal detour) .onCheaperPath {} 6
      ((BestFirst.fresh (Run.start detour {}).1).enter (Run.start detour {}).2 0)).map
        (fun r => (r.2.stats.depthSkipped, (r.2.tree.get? r.1.id).map (·.cost))) =
      some (0, some 6) := by cbv
  obtain ⟨⟨here, run⟩, hreach, hrun⟩ := Option.map_eq_some_iff.1 hfacts
  obtain ⟨hskipped, hcost⟩ := Prod.mk.inj hrun
  have hsearch : astarSearch detour {} = run.finish _ (.goalReached here.id) :=
    BestFirst.bestFirst_of_reach? _ 6 (by cbv) (fun _ => rfl) (by decide) hreach
  have hskipped' : (astarSearch detour {}).stats.depthSkipped = 0 := by
    rw [hsearch]
    exact hskipped
  have hsix : (astarSearch detour {}).pathCost? = some 6 := by
    rw [hsearch]
    exact hcost
  have hexact : (astarSearch detour {}).tree.Exact detour detour.road :=
    ⟨fun _ _ _ _ _ _ => addsExactly_rat _ _, fun _ _ => addsExactly_rat _ _⟩
  obtain ⟨c, hc, hall⟩ := astarSearch_optimal detour detour.road detour.toGo {}
    admissible_detour (by rw [hsearch]; rfl) hskipped' hexact
  obtain rfl : c = 6 := Option.some.inj (hc.symm.trans hsix)
  exact ⟨admissible_detour, hskipped', hsix, fun as h => (hall as h).1⟩

end ProblemSolving
