import ProblemSolving.Proofs.Constraint.RepairRounds
import ProblemSolving.Random.SplitMix

/-!
# A step of a repair adds no clash

A step looks at one variable alone, and gives it a place with the fewest conflicts. What it counts
are the pairs of variables that clash and have this one in them; the other pairs stay as they are.

* `Model.clashes` : the pairs of variables whose values are incompatible.
* `Linked.card_clashes_eq` : the clashes of one variable, and those without it.
* `Linked.conflictsAt_eq_card` : the conflicts of a place are the clashes once the variable has it.
* `Placed.card_clashes_assign_le` : what a step does to the number of clashes.
* `Repair.Next`, `Repair.Reached` : one round after the other, from a greedy start.
* `repair_addsNoClash` : between two new starts the number of clashes never rises.
-/

namespace ProblemSolving

variable {ν ρ : Type} [RandomSource ρ] {m : Model ν}

/-! ## Pairs that clash -/

namespace Model

/-- Whether the values of two variables are incompatible. -/
def clash (m : Model ν) (current : Array (Option Nat)) (v w : Nat) : Bool :=
  (m.valueAt? current v).any fun x => (m.valueAt? current w).any fun y => !m.consistent v x w y

/-- The pairs of variables that share a constraint and whose values are incompatible, each pair with
the lesser variable first. -/
def clashes (m : Model ν) (current : Array (Option Nat)) : Finset (Nat × Nat) :=
  {p ∈ Finset.range m.size ×ˢ Finset.range m.size |
    p.1 < p.2 ∧ p.2 ∈ m.neighbors p.1 ∧ m.clash current p.1 p.2}

/-- The variables with which a variable clashes. -/
def clashesOf (m : Model ν) (current : Array (Option Nat)) (v : Nat) : Finset Nat :=
  {w ∈ Finset.range m.size | m.clash current v w}

theorem mem_clashes_iff {current : Array (Option Nat)} {v w : Nat} :
    (v, w) ∈ m.clashes current ↔
      (v < m.size ∧ w < m.size) ∧ v < w ∧ w ∈ m.neighbors v ∧ m.clash current v w = true := by
  unfold clashes
  rw [Finset.mem_filter, Finset.mem_product, Finset.mem_range, Finset.mem_range]

theorem mem_clashesOf_iff {current : Array (Option Nat)} {v w : Nat} :
    w ∈ m.clashesOf current v ↔ w < m.size ∧ m.clash current v w = true := by
  unfold clashesOf
  rw [Finset.mem_filter, Finset.mem_range]

theorem card_clashesOf (current : Array (Option Nat)) (v : Nat) :
    (m.clashesOf current v).card = (List.range m.size).countP (m.clash current v) := by
  rw [List.countP_eq_length_filter, ← List.toFinset_card_of_nodup (List.nodup_range.filter _)]
  congr 1
  ext w
  rw [mem_clashesOf_iff, List.mem_toFinset, List.mem_filter, List.mem_range]

theorem clash_assign_of_ne {current : Array (Option Nat)} {u v w : Nat} (hv : v ≠ u) (hw : w ≠ u)
    (place : Option Nat) : m.clash (current.setIfInBounds u place) v w = m.clash current v w := by
  unfold clash
  rw [valueAt?_assign_of_ne hv, valueAt?_assign_of_ne hw]

theorem clashes_assign_apart (current : Array (Option Nat)) (v : Nat) (place : Option Nat) :
    {p ∈ m.clashes (current.setIfInBounds v place) | ¬ (p.1 = v ∨ p.2 = v)} =
      {p ∈ m.clashes current | ¬ (p.1 = v ∨ p.2 = v)} := by
  ext ⟨a, b⟩
  simp only [Finset.mem_filter, mem_clashes_iff, not_or]
  refine and_congr_left fun ⟨ha, hb⟩ => ?_
  rw [clash_assign_of_ne ha hb]

namespace Linked
variable (hm : m.Linked)
include hm

theorem clash_comm (current : Array (Option Nat)) (v w : Nat) :
    m.clash current v w = m.clash current w v := by
  unfold clash
  cases m.valueAt? current v with
  | none => cases m.valueAt? current w <;> rfl
  | some x =>
    cases m.valueAt? current w with
    | none => rfl
    | some y => exact congrArg (!·) (hm.consistent_comm v x w y)

theorem mem_neighbors_of_clash {current : Array (Option Nat)} {v w : Nat}
    (h : m.clash current v w = true) : w ∈ m.neighbors v := by
  obtain ⟨x, -, h⟩ := (Option.any_eq_true _ _).1 h
  obtain ⟨y, -, h⟩ := (Option.any_eq_true _ _).1 h
  rw [hm.mem_neighbors_iff]
  intro hnil
  rw [hm.consistent_eq, hnil] at h
  cases h

/-- Each clash of a variable is one pair, whichever of the two is the lesser. -/
theorem card_clashes_touching (current : Array (Option Nat)) (v : Nat) :
    {p ∈ m.clashes current | p.1 = v ∨ p.2 = v}.card = (m.clashesOf current v).card := by
  refine Finset.card_nbij' (fun p => if p.1 = v then p.2 else p.1)
    (fun w => if v < w then (v, w) else (w, v)) ?_ ?_ ?_ ?_
  · rintro ⟨a, b⟩ h
    obtain ⟨hclash, hv⟩ := Finset.mem_filter.1 h
    obtain ⟨⟨ha, hb⟩, -, -, hclash⟩ := mem_clashes_iff.1 hclash
    refine mem_clashesOf_iff.2 ?_
    dsimp only
    split
    · rename_i hav
      exact ⟨hb, hav ▸ hclash⟩
    · rename_i hav
      obtain rfl := hv.resolve_left hav
      exact ⟨ha, (hm.clash_comm current b a).trans hclash⟩
  · intro w h
    obtain ⟨hw, hclash⟩ := mem_clashesOf_iff.1 h
    have hneighbors := hm.mem_neighbors_of_clash hclash
    obtain ⟨hv, -, hne⟩ := hm.lt_size_of_mem_neighbors hneighbors
    dsimp only
    split
    · rename_i hlt
      exact Finset.mem_filter.2
        ⟨mem_clashes_iff.2 ⟨⟨hv, hw⟩, hlt, hneighbors, hclash⟩, .inl rfl⟩
    · rename_i hlt
      exact Finset.mem_filter.2 ⟨mem_clashes_iff.2 ⟨⟨hw, hv⟩, by omega,
        hm.mem_neighbors_comm.1 hneighbors, (hm.clash_comm current w v).trans hclash⟩, .inr rfl⟩
  · rintro ⟨a, b⟩ h
    obtain ⟨hclash, hv⟩ := Finset.mem_filter.1 h
    obtain ⟨-, hlt, -, -⟩ := mem_clashes_iff.1 hclash
    dsimp only at hv ⊢
    grind
  · intro w _
    dsimp only
    grind

/-- The pairs that clash are those of one variable, and those without it. -/
theorem card_clashes_eq (current : Array (Option Nat)) (v : Nat) :
    (m.clashes current).card = (m.clashesOf current v).card +
      {p ∈ m.clashes current | ¬ (p.1 = v ∨ p.2 = v)}.card := by
  rw [← hm.card_clashes_touching current v]
  exact (Finset.card_filter_add_card_filter_not _).symm

theorem conflictsAt_eq (current : Array (Option Nat)) {v ix : Nat} {x : ν}
    (hx : (m.domain v)[ix]? = some x) :
    m.conflictsAt current v ix = (List.range m.size).countP fun w =>
      (m.valueAt? current w).any fun y => !m.consistent v x w y := by
  have h := hm.conflicts_eq (m.materialize current) v x
  simp only [conflicts, get?_materialize] at h
  unfold conflictsAt
  rw [hx]
  exact h

/-- The conflicts of a place are the clashes of the variable once it has this place. The place that
it had before does not count, for no variable is its own neighbour. -/
theorem conflictsAt_eq_card {current : Array (Option Nat)} {v ix : Nat} (hv : v < current.size)
    (hix : ix < (m.domain v).size) :
    m.conflictsAt current v ix = (m.clashesOf (current.setIfInBounds v (some ix)) v).card := by
  have hx : (m.domain v)[ix]? = some (m.domain v)[ix] := Array.getElem?_eq_getElem hix
  rw [hm.conflictsAt_eq current hx, card_clashesOf]
  refine List.countP_congr fun w _ => ?_
  unfold clash
  rw [valueAt?_assign_self hv, hx, Option.any_some]
  by_cases hwv : w = v
  · subst hwv
    simp [hm.consistent_eq, hm.relationsBetween_self]
  · rw [valueAt?_assign_of_ne hwv]

end Linked

/-- **A step adds no clash.** A place with the fewest conflicts has no more of them than the place
before, and the pairs without the variable stay as they are. -/
theorem Placed.card_clashes_assign_le (hm : m.Linked) {current : Array (Option Nat)}
    (h : m.Placed current []) {v ix : Nat} (hv : v < m.size)
    (hix : ix ∈ leastConflictPlaces m current v) :
    (m.clashes (current.setIfInBounds v (some ix))).card ≤ (m.clashes current).card := by
  obtain ⟨jx, hplace⟩ := h.exists_place hv
  have hjx := h.lt_size v jx hplace
  obtain ⟨hlt, hleast⟩ := mem_leastConflictPlaces_iff.1 hix
  have hsize : v < current.size := by rwa [h.size_eq]
  calc (m.clashes (current.setIfInBounds v (some ix))).card
    _ = m.conflictsAt current v ix + {p ∈ m.clashes current | ¬ (p.1 = v ∨ p.2 = v)}.card := by
      rw [hm.card_clashes_eq _ v, hm.conflictsAt_eq_card hsize hlt, clashes_assign_apart]
    _ ≤ m.conflictsAt current v jx + {p ∈ m.clashes current | ¬ (p.1 = v ∨ p.2 = v)}.card :=
      Nat.add_le_add_right (hleast jx hjx) _
    _ = (m.clashes current).card := by
      rw [hm.conflictsAt_eq_card hsize hjx, assign_of_getElem? hplace, ← hm.card_clashes_eq]

end Model

/-! ## Runs -/

section Runs
variable (ρ) (m) (config : RepairConfig)

/-- After the steps and the repair at the head of a round, those at the head of the next one, for
some words of the source. -/
def Repair.Next (p q : Nat × Repair) : Prop :=
  (p.2.round m config p.1 : Draw ρ (SolverOutcome ν ⊕ Nat × Repair)).Can (.inr q)

/-- The steps and the repair at the head of a round, some rounds after a greedy start. -/
def Repair.Reached (p : Nat × Repair) : Prop :=
  ∃ current, (greedyStart m : Draw ρ (Option (Array (Option Nat)))).Can (some current) ∧
    Relation.ReflTransGen (Repair.Next ρ m config) (0, ⟨current, none, 0, 0⟩) p

end Runs

/-- A later assignment of a repair that started anew no more often has no more clashes. -/
structure Repair.NoWorse (m : Model ν) (s s' : Repair) : Prop where
  restarts_le : s.restarts ≤ s'.restarts
  card_le : s'.restarts = s.restarts → (m.clashes s'.current).card ≤ (m.clashes s.current).card

omit [RandomSource ρ] in
theorem Repair.NoWorse.trans {s s' s'' : Repair} (h : s.NoWorse m s') (h' : s'.NoWorse m s'') :
    s.NoWorse m s'' where
  restarts_le := h.restarts_le.trans h'.restarts_le
  card_le hsame := by
    have hle := h.restarts_le
    have hle' := h'.restarts_le
    exact (h'.card_le (by omega)).trans (h.card_le (by omega))

section Always
variable {config : RepairConfig} (hm : m.Linked) (hvalues : ∀ v < m.size, 0 < (m.domain v).size)
include hm hvalues

theorem Repair.Next.round {p q : Nat × Repair} (h : Repair.Next ρ m config p q)
    (hp : m.Placed p.2.current []) : p.2.Round m config p.1 (.inr q) :=
  (round_always hm hvalues config p.1 hp).of_can h

theorem Repair.Next.noWorse {p q : Nat × Repair} (h : Repair.Next ρ m config p q)
    (hp : m.Placed p.2.current []) : m.Placed q.2.current [] ∧ p.2.NoWorse m q.2 := by
  obtain ⟨step, s'⟩ := q
  cases h.round hm hvalues hp with
  | anew _ _ placed => exact ⟨placed, Nat.le_succ _, fun h => absurd h (Nat.succ_ne_self _)⟩
  | moved _ progress inConflict least =>
    have hv := lt_size_of_mem_conflicted inConflict
    exact ⟨hp.assign (List.nil_subset _) hv (mem_leastConflictPlaces_iff.1 least).1,
      (Repair.progress?_eq_some progress).2.1.ge, fun _ => hp.card_clashes_assign_le hm hv least⟩

theorem Repair.noWorse_of_rounds {p q : Nat × Repair}
    (h : Relation.ReflTransGen (Repair.Next ρ m config) p q) (hp : m.Placed p.2.current []) :
    m.Placed q.2.current [] ∧ p.2.NoWorse m q.2 := by
  induction h with
  | refl => exact ⟨hp, Nat.le_refl _, fun _ => Nat.le_refl _⟩
  | tail _ hnext ih =>
    obtain ⟨hplaced, hrounds⟩ := ih
    obtain ⟨hplaced', hround⟩ := hnext.noWorse hm hvalues hplaced
    exact ⟨hplaced', hrounds.trans hround⟩

theorem Repair.Reached.placed {p : Nat × Repair} (h : Repair.Reached ρ m config p) :
    m.Placed p.2.current [] := by
  obtain ⟨current, hstart, hrounds⟩ := h
  exact (noWorse_of_rounds hm hvalues hrounds ((greedyStart_always hm hvalues).of_can hstart)).1

end Always

/-- **Between two new starts a repair never makes the assignment worse.** Every assignment that a
repair of a model without empty domains gets to is complete. Whichever variable in conflict is then
chosen, and whichever of its places with the fewest conflicts, the step does not raise the number of
pairs of variables that share a constraint and have incompatible values. A round that is not the last
makes a new start or such a step; so along any number of rounds without a new start that number never
rises. -/
theorem repair_addsNoClash [BEq ν] (hm : m.Built) (hvalues : ∀ v < m.size, m.domain v ≠ #[])
    (config : RepairConfig) {p : Nat × Repair} (h : Repair.Reached ρ m config p) :
    (∀ v < m.size, ∃ ix < (m.domain v).size, p.2.current[v]? = some (some ix)) ∧
    (∀ v ∈ conflicted m p.2.current, ∀ ix ∈ leastConflictPlaces m p.2.current v,
      (m.clashes (p.2.current.setIfInBounds v (some ix))).card ≤ (m.clashes p.2.current).card) ∧
    (∀ q, Repair.Next ρ m config p q →
      (q.1 = p.1 ∧ q.2.restarts = p.2.restarts + 1) ∨
      (q.1 = p.1 + 1 ∧ q.2.restarts = p.2.restarts ∧ ∃ v ∈ conflicted m p.2.current,
        ∃ ix ∈ leastConflictPlaces m p.2.current v,
          q.2.current = p.2.current.setIfInBounds v (some ix))) ∧
    ∀ q, Relation.ReflTransGen (Repair.Next ρ m config) p q → q.2.restarts = p.2.restarts →
      (m.clashes q.2.current).card ≤ (m.clashes p.2.current).card := by
  have hvalues : ∀ v < m.size, 0 < (m.domain v).size :=
    fun v hv => Array.size_pos_iff.2 (hvalues v hv)
  have hplaced := h.placed hm.linked hvalues
  refine ⟨fun v hv => ?_, fun v hconflict ix hix => ?_, fun q hq => ?_, fun q hq hsame => ?_⟩
  · obtain ⟨ix, hix⟩ := hplaced.exists_place hv
    exact ⟨ix, hplaced.lt_size v ix hix, hix⟩
  · exact hplaced.card_clashes_assign_le hm.linked (lt_size_of_mem_conflicted hconflict) hix
  · obtain ⟨step, s'⟩ := q
    cases hq.round hm.linked hvalues hplaced with
    | anew _ _ _ => exact .inl ⟨rfl, rfl⟩
    | moved _ progress inConflict least =>
      exact .inr ⟨rfl, (Repair.progress?_eq_some progress).2.1, _, inConflict, _, least, rfl⟩
  · exact (Repair.noWorse_of_rounds hm.linked hvalues hq hplaced).2.card_le hsame

/-- Two colours for a triangle leave one clash at the start, and never more than one. -/
theorem twoColouredTriangle_addsNoClash :
    let start : Repair := ⟨#[some 1, some 0, some 0], none, 0, 0⟩
    Repair.Reached SplitMix twoColouredTriangle ⟨3, none⟩ (0, start) ∧
      ∀ q, Relation.ReflTransGen (Repair.Next SplitMix twoColouredTriangle ⟨3, none⟩) (0, start) q →
        q.2.restarts = 0 → (twoColouredTriangle.clashes q.2.current).card ≤ 1 := by
  intro start
  have hreached : Repair.Reached SplitMix twoColouredTriangle ⟨3, none⟩ (0, start) :=
    ⟨start.current, ⟨⟨[], 0⟩, by decide +kernel⟩, .refl⟩
  have hone : (twoColouredTriangle.clashes start.current).card = 1 := by decide +kernel
  refine ⟨hreached, fun q hq hnone => ?_⟩
  rw [← hone]
  exact (repair_addsNoClash built_twoColouredTriangle (by decide +kernel) ⟨3, none⟩
    hreached).2.2.2 q hq hnone

/-- The number of variables in conflict may rise: here two pairs clash before and after a step, but
they have three variables before it, and four after it. -/
example :
    let m : Model Nat := .build [.addVariable "a" #[0, 1], .addVariable "b" #[0, 1],
      .addVariable "c" #[0, 1], .addVariable "d" #[0, 1],
      .addConstraint 0 1 .unequal, .addConstraint 0 2 .unequal, .addConstraint 1 3 .unequal]
    let current : Array (Option Nat) := #[some 0, some 0, some 1, some 0]
    1 ∈ leastConflictPlaces m current 0 ∧ conflicted m current = [0, 1, 3] ∧
      conflicted m (current.setIfInBounds 0 (some 1)) = [0, 1, 2, 3] ∧
      m.clashes current = {(0, 1), (1, 3)} ∧
      m.clashes (current.setIfInBounds 0 (some 1)) = {(0, 2), (1, 3)} := by
  decide +kernel

end ProblemSolving
