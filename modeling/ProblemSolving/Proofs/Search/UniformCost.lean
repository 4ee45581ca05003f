import Mathlib
import ProblemSolving.Proofs.Number.RoundedSum
import ProblemSolving.Proofs.Search.Rising

/-!
# Uniform-cost search

* `Problem.MonotoneCosts` : a step never lowers the cost of a path, and a dearer path stays dearer.
* `Dijkstra` : closed states are no dearer than what waits, and nothing cheaper is overlooked.
* `uniformCostSearch_cheapest` : a goal that is reached is reached as cheaply as can be, and the
  values of the expansions ascend.
-/

namespace ProblemSolving

variable {σ α κ : Type} [Scalar κ]

/-! ## Costs -/

/-- From a cost that is not negative, a step leads to one that is no less, and a dearer path stays
dearer. -/
structure Problem.MonotoneCosts (P : Problem σ α κ) : Prop where
  grows : ∀ c s, ∀ a ∈ P.actions s, Scalar.le 0 c = true →
    Scalar.le c (P.pathCost c s a (P.result s a)) = true
  monotone : ∀ c c' s, ∀ a ∈ P.actions s, Scalar.le 0 c = true → Scalar.le c c' = true →
    Scalar.le (P.pathCost c s a (P.result s a)) (P.pathCost c' s a (P.result s a)) = true

/-- A cost that is not negative and at most another one. -/
def NoDearer (g c : κ) : Prop := Scalar.le 0 g = true ∧ Scalar.le g c = true

namespace Problem.MonotoneCosts

open OrderedScalar

variable [OrderedScalar κ] {P : Problem σ α κ}

theorem le_costFrom (h : P.MonotoneCosts) {s t : σ} {as : List α} (hp : P.Path s as t) {c : κ}
    (hc : Scalar.le 0 c = true) : Scalar.le c (P.costFrom c s as) = true := by
  induction hp generalizing c with
  | nil => exact le_refl (isNumber_right hc)
  | @cons s t a as legal later ih =>
    have hstep := h.grows c s a legal hc
    exact le_trans hstep (ih (le_trans hc hstep))

theorem costFrom_le (h : P.MonotoneCosts) {s t : σ} {as : List α} (hp : P.Path s as t) {c c' : κ}
    (hc : Scalar.le 0 c = true) (hcc' : Scalar.le c c' = true) :
    Scalar.le (P.costFrom c s as) (P.costFrom c' s as) = true := by
  induction hp generalizing c c' with
  | nil => exact hcc'
  | @cons s t a as legal later ih =>
    exact ih (le_trans hc (h.grows c s a legal hc)) (h.monotone c c' s a legal hc hcc')

theorem attained_nonneg (h : P.MonotoneCosts) {s : σ} {c : κ} (hc : P.Attained s c) :
    Scalar.le 0 c = true := by
  obtain ⟨as, hp, rfl⟩ := hc
  exact h.le_costFrom hp zero_le_zero

omit [OrderedScalar κ] in
/-- Sums of weights that are not negative are such costs, though they may be rounded, or become
infinite. -/
theorem of_weights [MonotoneScalar κ] {weight : σ → α → κ}
    (sums : ∀ c s, ∀ a ∈ P.actions s, P.pathCost c s a (P.result s a) = c + weight s a)
    (nonneg : ∀ s, ∀ a ∈ P.actions s, Scalar.le 0 (weight s a) = true) : P.MonotoneCosts where
  grows c s a ha hc := by
    rw [sums c s a ha]
    exact MonotoneScalar.le_add hc (nonneg s a ha)
  monotone c c' s a ha hc hle := by
    rw [sums c s a ha, sums c' s a ha]
    exact MonotoneScalar.add_le_add_right hc hle (nonneg s a ha)

end Problem.MonotoneCosts

namespace BestFirst

open OrderedScalar

variable [BEq σ] [Hashable σ]

/-! ## The invariant -/

/-- What waits is at least as dear as what is closed and as every node chosen so far; no state is
known only at a cost above that of a path through closed states. -/
structure Dijkstra (P : Problem σ α κ) (s : BestFirst σ α κ) : Prop where
  ordered : s.frontier.waiting.Ordered
  closed : ∀ (state : σ) (g : κ), s.closed[state]? = some g →
    ∀ x ∈ s.frontier.waiting.entries, Scalar.le g x.item.node.cost = true
  chosen : ∀ f ∈ s.run.chosen, ∀ x ∈ s.frontier.waiting.entries,
    Scalar.le f x.item.node.cost = true
  ascending : s.run.chosen.Pairwise fun f g => Scalar.le f g = true
  covered : s.run.stats.depthSkipped = 0 → Covered P NoDearer s

/-- The evaluation of uniform-cost search. -/
abbrev byCost : Evaluation σ α κ := fun node => .ok node.cost

variable [OrderedScalar κ] {P : Problem σ α κ} {reopening : Reopening} {policy : TimedPolicy}
  {s s' : BestFirst σ α κ} {here : Placed σ α κ} {f : κ}
  {rest : Frontier (Ranked κ) (Placed σ α κ)} {run : Run σ α κ} {kids : List (Placed σ α κ)}

omit [OrderedScalar κ] in
theorem Sound.cost_eq (h : Sound P byCost s) (hnext : s.next? = some (here, f, rest)) :
    here.node.cost = f :=
  Except.ok.inj (h.next hnext).2.1

theorem noDearer_refl {c : κ} (hc : Scalar.le 0 c = true) : NoDearer c c :=
  ⟨hc, le_refl (isNumber_right hc)⟩

omit [BEq σ] [Hashable σ] in
theorem sorts_byCost (costs : P.MonotoneCosts) {t : SearchTree σ α κ} (hg : t.Grown P) :
    Sorts byCost NoDearer t := by
  intro m n f f' hm hn _ hf hf'
  obtain rfl := Except.ok.inj hf
  obtain rfl := Except.ok.inj hf'
  have hm0 := costs.attained_nonneg (hg.attained hm)
  have hn0 := costs.attained_nonneg (hg.attained hn)
  refine ⟨fun hle => ⟨hm0, hle⟩, fun hnot => ⟨hn0, ?_⟩⟩
  exact le_of_not_le (isNumber_right hm0) (isNumber_right hn0) hnot

omit [BEq σ] [Hashable σ] in
theorem climbs_byCost (costs : P.MonotoneCosts) {t : SearchTree σ α κ} (hg : t.Grown P) :
    t.Climbs P byCost where
  number {n f} hn hvalue := by
    obtain rfl := Except.ok.inj hvalue
    exact isNumber_right (costs.attained_nonneg (hg.attained hn))
  rises {parent kid a f f'} hparent _ ha hchild hvalue hvalue' := by
    obtain rfl := Except.ok.inj hvalue
    obtain rfl := Except.ok.inj hvalue'
    rw [hchild]
    exact costs.grows _ _ a ha (costs.attained_nonneg (hg.attained hparent))

omit [OrderedScalar κ] in
theorem Dijkstra.rising (hd : Dijkstra P s) (h : Sound P byCost s) : Rising byCost s := by
  have hkey : ∀ x ∈ s.frontier.waiting.entries, x.item.node.cost = x.key.priority :=
    fun x hx => Except.ok.inj (h.waiting x hx).2
  refine ⟨hd.ordered, ?_, ?_, hd.ascending⟩
  · intro state g hg
    obtain ⟨-, n, hn, hstate, rfl, -⟩ := h.closed state g hg
    exact ⟨n, _, hn, hstate, rfl, rfl, fun x hx => hkey x hx ▸ hd.closed state _ hg x hx⟩
  · exact fun g hg x hx => hkey x hx ▸ hd.chosen g hg x hx

omit [OrderedScalar κ] in
theorem Rising.dijkstra (hr : Rising byCost s) (h : Sound P byCost s)
    (covered : s.run.stats.depthSkipped = 0 → Covered P NoDearer s) : Dijkstra P s := by
  have hkey : ∀ x ∈ s.frontier.waiting.entries, x.item.node.cost = x.key.priority :=
    fun x hx => Except.ok.inj (h.waiting x hx).2
  refine ⟨hr.ordered, ?_, ?_, hr.ascending, covered⟩
  · intro state g hg x hx
    obtain ⟨n, _, -, -, rfl, hvalue, hbelow⟩ := hr.closed state g hg
    rw [Except.ok.inj hvalue, hkey x hx]
    exact hbelow x hx
  · intro g hg x hx
    rw [hkey x hx]
    exact hr.chosen g hg x hx

theorem Dijkstra.le_waits (costs : P.MonotoneCosts) (h : Sound P byCost s) (hd : Dijkstra P s)
    (hnext : s.next? = some (here, f, rest)) {state : σ} {g : κ} (hw : s.Waits state g) :
    Scalar.le f g = true := by
  obtain ⟨n, f', hentry, hn, rfl⟩ := hw
  obtain ⟨hheld, -, -⟩ := h.next hnext
  obtain rfl := h.cost_eq hnext
  obtain ⟨-, hvalue⟩ := h.value_of_entry hentry hn
  have hrank := h.rank_next hd.ordered hnext hentry
  rw [← Except.ok.inj hvalue] at hrank
  exact le_of_rank (isNumber_right (costs.attained_nonneg (h.grown.attained hheld)))
    (isNumber_right (costs.attained_nonneg (h.grown.attained hn))) hrank

omit [OrderedScalar κ] in
theorem Dijkstra.le_here (h : Sound P byCost s) (hd : Dijkstra P s)
    (hnext : s.next? = some (here, f, rest)) :
    (∀ (state : σ) (g : κ), s.closed[state]? = some g → Scalar.le g f = true) ∧
      ∀ g ∈ s.run.chosen, Scalar.le g f = true := by
  obtain ⟨skipped, key, hentries, -⟩ := (pops_of_next? hnext).entries
  have hmem : ⟨key, here⟩ ∈ s.frontier.waiting.entries := hentries.mem_iff.2 (by simp)
  obtain rfl := h.cost_eq hnext
  exact ⟨fun state g hg => hd.closed state g hg _ hmem, fun g hg => hd.chosen g hg _ hmem⟩

variable [LawfulBEq σ]

theorem Dijkstra.turn (costs : P.MonotoneCosts) (h : Sound P byCost s) (hd : Dijkstra P s)
    (ht : Turn P byCost .never policy s here f rest run kids s') : Dijkstra P s' := by
  have hsound := h.turn ht
  have hr := hd.rising h
  refine (hr.turn h ht (climbs_byCost costs hsound.grown)).dijkstra hsound fun hskipped => ?_
  obtain ⟨hheld, hvalue, -⟩ := h.next ht.next
  have hgrown := h.grown.expands hheld ht.expands
  have hclimbs := climbs_byCost costs hgrown
  have hnumber := hclimbs.number (hheld.keeps ht.expands.keeps) hvalue
  refine (hd.covered (ht.depthSkipped_eq_zero h hskipped)).turn h ht ?_ ?_ ?_ ?_ hskipped
  · exact fun hab hbc => ⟨hab.1, le_trans hab.2 hbc.2⟩
  · exact fun kid hkid =>
      noDearer_refl (costs.attained_nonneg (hgrown.attained (ht.expands.holds kid hkid)))
  · exact sorts_byCost costs hsound.grown
  · intro kid hkid g hg
    obtain ⟨n, f', hn, -, rfl, hvalue', hle⟩ := hr.closed_le h ht.next hnumber hg
    obtain rfl := Except.ok.inj hvalue'
    refine ⟨by simp, fun _ => ⟨costs.attained_nonneg (h.grown.attained hn), ?_⟩⟩
    exact le_trans hle (hclimbs.le_kid ht.expands hheld hkid hvalue rfl)

theorem dijkstra_start (policy : TimedPolicy) (f : κ)
    (heval : byCost (SearchTree.rootNode P.initial : Node σ α κ) = .ok f) :
    Dijkstra P ((fresh (Run.start P policy).1).enter (Run.start P policy).2 f) :=
  (rising_start P policy f).dijkstra (sound_start P policy heval) fun _ =>
    covered_enter_root (Run.holds_start P policy) rfl (noDearer_refl zero_le_zero)

omit [LawfulBEq σ] in
/-- A goal that is taken is as cheap as every solution. -/
theorem Dijkstra.cheapest (costs : P.MonotoneCosts) (h : Sound P byCost s) (hd : Dijkstra P s)
    (hskipped : s.run.stats.depthSkipped = 0) (hnext : s.next? = some (here, f, rest))
    {as : List α} (hsolution : P.Solution as) : Scalar.le f (P.totalCost as) = true := by
  obtain ⟨t, hp, htgoal⟩ := hsolution
  let Φ : σ → κ → List α → Prop := fun state g bs =>
    Scalar.le 0 g = true ∧ Scalar.le (P.costFrom g state bs) (P.totalCost as) = true
  have hstart : ∀ g, NoDearer g 0 → Φ P.initial g as :=
    fun g hg => ⟨hg.1, costs.costFrom_le hp hg.1 hg.2⟩
  have hstep : ∀ state g a bs g', s.closed[state]? = some g → a ∈ P.actions state →
      P.Path (P.result state a) bs t → Φ state g (a :: bs) →
      NoDearer g' (P.pathCost g state a (P.result state a)) → Φ (P.result state a) g' bs := by
    intro state g a bs g' _ _ hbs hΦ hB
    exact ⟨hB.1, le_trans (costs.costFrom_le hbs hB.1 hB.2) hΦ.2⟩
  obtain ⟨mid, g, bs, hw, hbs, hΦ⟩ :=
    (hd.covered hskipped).waits_before_goal h hstart hstep hp htgoal
  have hwaits : Scalar.le f g = true := hd.le_waits costs h hnext hw
  have hahead : Scalar.le g (P.costFrom g mid bs) = true := costs.le_costFrom hbs hΦ.1
  exact le_trans hwaits (le_trans hahead hΦ.2)

end BestFirst

theorem BestFirst.uniformCostSearch_ends [OrderedScalar κ] [BEq σ] [Hashable σ] [LawfulBEq σ]
    {P : Problem σ α κ} (costs : P.MonotoneCosts) (policy : TimedPolicy) :
    ∃ s, Sound P byCost s ∧ Dijkstra P s ∧
      Ends P byCost .never policy s "uniform_cost_search" (uniformCostSearch P policy) := by
  have hkeep : ∀ {s here f rest run kids s'}, Sound P byCost s → Dijkstra P s →
      Turn P byCost .never policy s here f rest run kids s' → Dijkstra P s' :=
    fun h hd ht => hd.turn costs h ht
  rcases bestFirst_ends "uniform_cost_search" (dijkstra_start policy) hkeep with
    ⟨violation, heval, -⟩ | hends
  · cases heval
  · exact hends

/-- Uniform-cost search returns a cheapest solution, for costs that need not be sums, and the values
of its expansions ascend. -/
theorem uniformCostSearch_cheapest [OrderedScalar κ] [BEq σ] [Hashable σ] [LawfulBEq σ]
    (P : Problem σ α κ) (costs : P.MonotoneCosts) (policy : TimedPolicy) :
    let r := uniformCostSearch P policy
    (r.isGoalReached = true → r.stats.depthSkipped = 0 →
      ∃ c, r.pathCost? = some c ∧
        ∀ as, P.Solution as → Scalar.le c (P.totalCost as) = true) ∧
    ∀ trace, r.trace = some trace →
      (trace.events.map (·.f)).Pairwise fun f g => Scalar.le f g = true := by
  intro r
  obtain ⟨s, h, hd, hends⟩ := BestFirst.uniformCostSearch_ends costs policy
  constructor
  · intro hgoal hskipped
    obtain ⟨here, f, rest, hnext, -, hterm, htree, hsame⟩ := hends.goalReached hgoal
    have hheld : r.tree.Holds here := htree ▸ (h.next hnext).1
    refine ⟨here.node.cost, Result.pathCost?_of_goalReached hterm hheld, ?_⟩
    intro as hsolution
    rw [h.cost_eq hnext]
    exact hd.cheapest costs h (hsame.symm.trans hskipped) hnext hsolution
  · intro trace htrace
    rcases hends.chosen htrace with hchosen | ⟨here, f, rest, run, kids, hnext, hexpand, hchosen⟩
    · rw [hchosen]
      exact hd.ascending
    · rw [hchosen]
      exact (Run.chosen_expand hexpand hd.ascending (hd.le_here h hnext).2).1

/-- Four places, the last one being the goal. A way is as dear as its worst road, and the direct way
has the worst one. -/
def worstRoad : Problem Nat Nat ℚ where
  initial := 0
  actions
    | 0 => [1, 2]
    | 1 => [0, 3]
    | 2 => [1]
    | _ => []
  result _ next := next
  isGoal s := s == 3
  pathCost cost s next _ := max cost (if s = 0 ∧ next = 1 then 5 else if s = 2 then 3 else 2)
  heuristic _ := 0

theorem monotoneCosts_worstRoad : worstRoad.MonotoneCosts where
  grows c _ _ _ _ := decide_eq_true (le_max_left c _)
  monotone _ _ _ _ _ _ h := decide_eq_true (max_le_max_right _ (of_decide_eq_true h))

theorem worstRoad_cheapest :
    worstRoad.MonotoneCosts ∧ (uniformCostSearch worstRoad {}).pathCost? = some 3 ∧
      ∀ as, worstRoad.Solution as → Scalar.le (3 : ℚ) (worstRoad.totalCost as) = true := by
  have hfacts : (BestFirst.reach? worstRoad BestFirst.byCost .never {} 5
      ((BestFirst.fresh (Run.start worstRoad {}).1).enter (Run.start worstRoad {}).2 0)).map
        (fun r => (r.2.stats.depthSkipped, (r.2.tree.get? r.1.id).map (·.cost))) =
      some (0, some 3) := by cbv
  obtain ⟨⟨here, run⟩, hreach, hrun⟩ := Option.map_eq_some_iff.1 hfacts
  obtain ⟨hskipped, hcost⟩ := Prod.mk.inj hrun
  have hsearch : uniformCostSearch worstRoad {} = run.finish _ (.goalReached here.id) :=
    BestFirst.bestFirst_of_reach? _ 5 rfl (fun _ => rfl) (by decide) hreach
  have hthree : (uniformCostSearch worstRoad {}).pathCost? = some 3 := by
    rw [hsearch]
    exact hcost
  obtain ⟨c, hc, hall⟩ := (uniformCostSearch_cheapest worstRoad monotoneCosts_worstRoad {}).1
    (by rw [hsearch]; rfl) (by rw [hsearch]; exact hskipped)
  obtain rfl : c = 3 := Option.some.inj (hc.symm.trans hthree)
  exact ⟨monotoneCosts_worstRoad, hthree, hall⟩

end ProblemSolving
