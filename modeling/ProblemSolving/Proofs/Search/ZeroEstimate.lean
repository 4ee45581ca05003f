import ProblemSolving.Proofs.Number.Counting
import ProblemSolving.Proofs.Search.Astar
import ProblemSolving.Proofs.Search.Rising
import ProblemSolving.Proofs.Search.UniformCost

/-!
# A* without an estimate

* `SearchTree.Fair.climbs` : in a tree whose steps are checked, costs climb.
* `Problem.EstimatesZero`, `Problem.UnsignedCosts` : every estimate is a zero, and no path costs a
  negative one; `Problem.UnsignedCosts.of_weights` : sums of unsigned weights are such costs.
* `astarSearch_uniformCost` : then A* is uniform-cost search.
-/

namespace ProblemSolving

open BestFirst (byCost)

variable {σ α : Type}

/-! ## Costs that are checked -/

section
variable {P : Problem σ α Double} {t : SearchTree σ α Double}

/-- The costs of a tree whose steps are checked climb, also where they are infinite or rounded. -/
theorem SearchTree.Fair.climbs (hf : t.Fair) (hg : t.Grown P) : t.Climbs P byCost := by
  have hstep : ∀ {parent kid : Placed σ α Double} {a : α}, t.Holds parent → t.Holds kid →
      kid.node = child P parent a → Scalar.le parent.node.cost kid.node.cost = true := by
    intro parent kid a hparent hkid hchild
    obtain ⟨above, habove, hcost⟩ := hf kid.id kid.node hkid parent.id a (by rw [hchild]; rfl)
    obtain rfl := Option.some.inj (habove.symm.trans hparent)
    obtain ⟨hnumber, hnonneg⟩ := Bool.or_eq_false_iff.1 hcost
    exact DifferenceScalar.le_of_sub hnumber hnonneg
  constructor
  case number =>
    intro n f hn hvalue
    cases hvalue
    rcases hg n.id n.node hn with hroot | ⟨parent, -, hparent, a, -, hchild⟩
    · rw [hroot]
      exact OrderedScalar.zero_isNumber
    · exact OrderedScalar.isNumber_right (hstep hparent hn hchild)
  case rises =>
    intro parent kid a f f' hparent hkid _ hchild hvalue hvalue'
    cases hvalue
    cases hvalue'
    exact hstep hparent hkid hchild

theorem SearchTree.ranks_byCost (t : SearchTree σ α Double) : t.Ranks byCost := by
  intro m n f f' _ _ _ hvalue hvalue' hle
  cases hvalue
  cases hvalue'
  obtain ⟨-, -, hle⟩ := Double.le_iff.1 hle
  refine eq_false_of_ne_true fun hlt => ?_
  obtain ⟨-, -, hlt⟩ := Double.lt_iff.1 hlt
  omega

end

/-! ## A search without an estimate -/

/-- Every estimate is defined, and is a zero of either sign. -/
def Problem.EstimatesZero (P : Problem σ α Double) : Prop :=
  ∀ node, P.isEstimable node = true ∧ (P.heuristic node).magnitude = 0

/-- No path costs a negative zero. -/
def Problem.UnsignedCosts (P : Problem σ α Double) : Prop :=
  ∀ s c, P.Attained s c → c ≠ -0

/-- Sums of weights that are not negative, nor a negative zero, are no negative zeros. -/
theorem Problem.UnsignedCosts.of_weights {P : Problem σ α Double} {weight : σ → α → Double}
    (sums : ∀ c s, ∀ a ∈ P.actions s, P.pathCost c s a (P.result s a) = c + weight s a)
    (nonneg : ∀ s, ∀ a ∈ P.actions s, Scalar.le 0 (weight s a) = true)
    (unsigned : ∀ s, ∀ a ∈ P.actions s, (weight s a).negative = false) : P.UnsignedCosts := by
  have hpath : ∀ {s t : σ} {as : List α}, P.Path s as t → ∀ c : Double, Scalar.le 0 c = true →
      c.negative = false → (P.costFrom c s as).negative = false := by
    intro s t as hp
    induction hp with
    | nil => exact fun c _ hsign => hsign
    | @cons s t a as legal later ih =>
      intro c hc hsign
      have hweight := nonneg s a legal
      rw [Problem.costFrom, sums c s a legal]
      exact ih _ (OrderedScalar.le_trans hc (Double.le_add hc hweight))
        (Double.negative_add hc hweight hsign (unsigned s a legal))
  rintro s c ⟨as, hp, rfl⟩ hzero
  have hsign : (P.totalCost as).negative = false := hpath hp 0 OrderedScalar.zero_le_zero rfl
  rw [hzero] at hsign
  cases hsign

theorem Problem.EstimatesZero.byTotal_eq {P : Problem σ α Double} (zero : P.EstimatesZero)
    (unsigned : P.UnsignedCosts) {node : Node σ α Double}
    (h : P.Attained node.state node.cost) : byTotal P node = byCost node := by
  obtain ⟨hdefined, hzero⟩ := zero node
  have hcheck : (Scalar.isNaN (P.heuristic node) || Scalar.lt (P.heuristic node) 0) = false := by
    refine Bool.or_eq_false_iff.2 ⟨?_, eq_false_of_ne_true fun hlt => ?_⟩
    · show decide (infinityMagnitude < (P.heuristic node).magnitude) = false
      rw [hzero]
      decide
    · obtain ⟨-, -, hbelow⟩ := Double.lt_iff.1 hlt
      have habs := Double.natAbs_signedMagnitude (P.heuristic node)
      have hzero' : (0 : Double).signedMagnitude = 0 := by decide
      omega
  have hsum : node.cost + P.heuristic node = node.cost :=
    Double.add_eq_left (unsigned _ _ h) hzero
  unfold byTotal checkedHeuristic estimate
  simp only [hdefined, hcheck, if_true, Bool.false_eq_true, if_false, Except.map, hsum]

/-- Without an estimate, A* is uniform-cost search: it ends alike, with the same tree and the same
counts, after the same expansions. It reopens nothing. -/
theorem astarSearch_uniformCost [BEq σ] [Hashable σ] [LawfulBEq σ] (P : Problem σ α Double)
    (zero : P.EstimatesZero) (unsigned : P.UnsignedCosts) (policy : TimedPolicy) :
    (astarSearch P policy).Agree (uniformCostSearch P policy) ∧
      (astarSearch P policy).stats.reopened = 0 := by
  have hsame : ∀ node : Node σ α Double, P.Attained node.state node.cost →
      byTotal P node = byCost node := fun _ h => zero.byTotal_eq unsigned h
  have hagree : (astarSearch P policy).Agree (uniformCostSearch P policy) := by
    refine bestFirst_never P policy _ _ hsame fun t _ hg hf => ?_
    have hheld : ∀ n : Placed σ α Double, t.Holds n → byTotal P n.node = byCost n.node :=
      fun n hn => hsame n.node (hg.attained hn)
    exact ⟨(hf.climbs hg).congr hheld, (t.ranks_byCost).congr hheld⟩
  refine ⟨hagree, ?_⟩
  rw [hagree.stats]
  exact (bestFirst_once P byCost policy _).1

/-- Places in a row, the goal being the fifth one. The way back is free, and on at the second place
infinitely dear. -/
def tollRoads : Problem Nat Bool Double where
  initial := 0
  actions _ := [true, false]
  result s on := if on then s + 1 else s - 1
  isGoal s := s == 5
  pathCost cost s on _ := cost + tollRoads.toll s on
  heuristic := Problem.noEstimate
where
  /-- What the way on or back from a place costs. -/
  toll (s : Nat) (on : Bool) : Double := if on then (if s = 2 then Double.infinity else 1) else 0

theorem tollRoads_uniformCost :
    tollRoads.EstimatesZero ∧ tollRoads.UnsignedCosts ∧
      (astarSearch tollRoads { recordTrace := true }).Agree
        (uniformCostSearch tollRoads { recordTrace := true }) ∧
      (astarSearch tollRoads { recordTrace := true }).stats.reopened = 0 := by
  have hzero : tollRoads.EstimatesZero := fun _ => ⟨rfl, rfl⟩
  have htoll : ∀ s, ∀ a ∈ tollRoads.actions s,
      Scalar.le 0 (tollRoads.toll s a) = true ∧ (tollRoads.toll s a).negative = false := by
    intro s a _
    unfold tollRoads.toll
    split
    · split
      · exact ⟨by decide, rfl⟩
      · exact ⟨Double.le_zero_one, by decide +kernel⟩
    · exact ⟨OrderedScalar.zero_le_zero, rfl⟩
  have hunsigned : tollRoads.UnsignedCosts :=
    .of_weights (fun _ _ _ _ => rfl) (fun s a ha => (htoll s a ha).1) fun s a ha => (htoll s a ha).2
  exact ⟨hzero, hunsigned, astarSearch_uniformCost tollRoads hzero hunsigned _⟩

end ProblemSolving
