import ProblemSolving.Local.Roulette
import ProblemSolving.Proofs.Number.RoundedSum
import ProblemSolving.Proofs.Random.Draws

/-!
# Wheels

* `weightTotal` : some weights, added from the left.
* `Wheel.ofWeights?_eq_none_iff` : weights have no wheel exactly when their total is infinite.
* `Wheel.spin_always` : a spin gives one of the places, whatever is drawn.
* `isFinite_weightTotal` : a limited number of limited weights has a finite total.
* `isFinite_weightTotal_of_le` : so has any number of smaller ones, which at last are lost in it.
-/

namespace ProblemSolving

/-! ## Weights -/

theorem weightOfFitness_nonneg (fitness : Double) :
    Scalar.le 0 (weightOfFitness fitness) = true := by
  unfold weightOfFitness
  split
  next h => exact StrictScalar.le_of_lt (Bool.and_eq_true_iff.1 h).2
  next => exact OrderedScalar.zero_le_zero

/-- Some weights, added from the left. -/
def weightTotal : List Double → Double
  | [] => .zero
  | first :: rest => rest.foldl (· + ·) first

theorem foldl_add_nonneg {total : Double} {weights : List Double} (h : Scalar.le 0 total = true)
    (hweights : ∀ w ∈ weights, Scalar.le 0 w = true) :
    Scalar.le 0 (weights.foldl (· + ·) total) = true := by
  induction weights generalizing total with
  | nil => exact h
  | cons w weights ih =>
    obtain ⟨hw, hrest⟩ := List.forall_mem_cons.1 hweights
    exact ih (OrderedScalar.le_trans h (Double.le_add h hw)) hrest

theorem weightTotal_nonneg {weights : List Double} (h : ∀ w ∈ weights, Scalar.le 0 w = true) :
    Scalar.le 0 (weightTotal weights) = true := by
  cases weights with
  | nil => exact OrderedScalar.zero_le_zero
  | cons first rest =>
    obtain ⟨hfirst, hrest⟩ := List.forall_mem_cons.1 h
    exact foldl_add_nonneg hfirst hrest

/-! ## The wheel of some weights -/

namespace Wheel

theorem length_fst_totals (total : Double) (weights : List Double) :
    (totals total weights).1.length = weights.length := by
  induction weights generalizing total with
  | nil => rfl
  | cons w weights ih => exact congrArg (· + 1) (ih (total + w))

theorem snd_totals (total : Double) (weights : List Double) :
    (totals total weights).2 = weights.foldl (· + ·) total := by
  induction weights generalizing total with
  | nil => rfl
  | cons w weights ih => exact ih (total + w)

/-- Weights have no wheel exactly when their total is infinite. -/
theorem ofWeights?_eq_none_iff {weights : List Double} (h : ∀ w ∈ weights, Scalar.le 0 w = true) :
    ofWeights? weights = none ↔ (weightTotal weights).isInfinite = true := by
  cases weights with
  | nil => exact iff_of_false (Option.some_ne_none _) (by decide)
  | cons first rest =>
    have hnumber := OrderedScalar.isNumber_right (weightTotal_nonneg h)
    change (weightTotal (first :: rest)).isNaN = false at hnumber
    have htotal : (totals first rest).2 = weightTotal (first :: rest) := snd_totals first rest
    unfold ofWeights?
    dsimp only
    rw [htotal]
    generalize weightTotal (first :: rest) = total at hnumber
    simp only [Double.isNaN, Double.isInfinite, Double.isFinite, decide_eq_false_iff_not,
      beq_iff_eq, decide_eq_true_eq] at hnumber ⊢
    split
    next hzero =>
      refine iff_of_false (Option.some_ne_none _) ?_
      rw [hzero]
      decide
    next =>
      split
      next hfinite => exact iff_of_false (Option.some_ne_none _) hfinite.ne
      next hfinite => exact iff_of_true rfl (by omega)

/-- A spin gives one of the places, whatever is drawn. -/
theorem spin_always {ρ : Type} [RandomSource ρ] {weights : List Double} {wheel : Wheel}
    (h : ofWeights? weights = some wheel) (hne : weights ≠ []) :
    Draw.Always (wheel.spin : Draw ρ Nat) (· < weights.length) := by
  cases weights with
  | nil => exact absurd rfl hne
  | cons first rest =>
    have hlength := length_fst_totals first rest
    unfold ofWeights? at h
    dsimp only at h
    split at h
    next =>
      obtain rfl := Option.some.inj h
      exact Draw.below64_always (Nat.succ_pos _)
    next =>
      split at h
      next =>
        obtain rfl := Option.some.inj h
        refine Draw.word64_always.bind fun w _ => .pure ?_
        exact Nat.lt_succ_of_le (List.countP_le_length.trans hlength.le)
      next => cases h

end Wheel

/-! ## Limited weights -/

section
variable {x y : Double} {k e : Nat}

/-- Of so many units, and fewer than `2 ^ 53` of them, no sum is rounded up. -/
theorem absUnits_add_le (hx : Scalar.le 0 x = true) (hy : Scalar.le 0 y = true)
    (hxk : x.absUnits ≤ k * 2 ^ e) (hye : y.absUnits ≤ 2 ^ e) (hk : k + 1 < 2 ^ 53) :
    (x + y).absUnits ≤ (k + 1) * 2 ^ e := by
  obtain ⟨-, hsum⟩ := Double.add_of_nonneg hx hy
  rw [Double.signedMagnitude_of_nonneg (OrderedScalar.le_trans hx (Double.le_add hx hy)),
    Int.ofNat_inj] at hsum
  have hexact : x.absUnits + y.absUnits ≤ (k + 1) * 2 ^ e := by
    rw [Nat.succ_mul]
    exact Nat.add_le_add hxk hye
  -- the bound is a double, so what is below it is not rounded past it
  have hplace : (x + y).magnitude ≤ Double.placeOfRatio ((k + 1) * 2 ^ e) 1 :=
    hsum.trans_le ((Nat.min_le_left _ _).trans (Double.placeOfRatio_mono hexact))
  calc (x + y).absUnits
      ≤ Double.unitsAt (Double.placeOfRatio ((k + 1) * 2 ^ e) 1) :=
        Double.unitsAt_strictMono.monotone hplace
    _ = (k + 1) * 2 ^ e := Double.unitsAt_placeOfRatio_mul hk e

theorem absUnits_foldl_add_le {weights : List Double} (hx : Scalar.le 0 x = true)
    (hxk : x.absUnits ≤ k * 2 ^ e)
    (h : ∀ w ∈ weights, Scalar.le 0 w = true ∧ w.absUnits ≤ 2 ^ e)
    (hk : k + weights.length < 2 ^ 53) :
    (weights.foldl (· + ·) x).absUnits ≤ (k + weights.length) * 2 ^ e := by
  induction weights generalizing x k with
  | nil => exact hxk
  | cons w weights ih =>
    obtain ⟨⟨hw, hwe⟩, hrest⟩ := List.forall_mem_cons.1 h
    rw [List.length_cons, ← Nat.succ_add_eq_add_succ] at hk ⊢
    exact ih (OrderedScalar.le_trans hx (Double.le_add hx hw))
      (absUnits_add_le hx hw hxk hwe (by omega)) hrest hk

theorem two_pow_le_unitsAt {n : Nat} (h : n ≤ 2098) : 2 ^ n ≤ Double.unitsAt infinityMagnitude :=
  (Nat.pow_le_pow_right Nat.two_pos h).trans (by decide +kernel)

/-- Fewer than `2 ^ 53` weights of at most `2 ^ 2045` units have a finite total. -/
theorem isFinite_weightTotal {weights : List Double} (he : e ≤ 2045)
    (hlength : weights.length < 2 ^ 53)
    (h : ∀ w ∈ weights, Scalar.le 0 w = true ∧ w.absUnits ≤ 2 ^ e) :
    (weightTotal weights).isFinite = true := by
  cases weights with
  | nil => decide
  | cons first rest =>
    obtain ⟨⟨hfirst, hfirste⟩, hrest⟩ := List.forall_mem_cons.1 h
    rw [List.length_cons, Nat.add_comm] at hlength
    have hunits := absUnits_foldl_add_le (k := 1) hfirst (by rwa [Nat.one_mul]) hrest hlength
    have hlimit : (1 + rest.length) * 2 ^ e < Double.unitsAt infinityMagnitude :=
      calc (1 + rest.length) * 2 ^ e
          < 2 ^ 53 * 2 ^ e := Nat.mul_lt_mul_of_pos_right hlength (Nat.two_pow_pos e)
        _ = 2 ^ (53 + e) := (Nat.pow_add _ _ _).symm
        _ ≤ Double.unitsAt infinityMagnitude := two_pow_le_unitsAt (by omega)
    exact decide_eq_true (Double.unitsAt_strictMono.lt_iff_lt.1 (hunits.trans_lt hlimit))

/-! ## Weights that are lost in a sum -/

theorem log2_two_pow_add (e : Nat) : (2 ^ (e + 54) + 2 ^ e).log2 = e + 54 := by
  have hpos := Nat.two_pow_pos e
  have hlow : 2 ^ (e + 54) = 2 ^ 54 * 2 ^ e := by rw [Nat.add_comm, Nat.pow_add]
  have hhigh : 2 ^ (e + 54 + 1) = 2 * 2 ^ (e + 54) := Nat.pow_succ'
  rw [Nat.log2_eq_iff (by omega)]
  omega

/-- A sum that exceeds a power of two by a part in `2 ^ 54` is rounded to the power. -/
theorem placeOfRatio_two_pow_add (e : Nat) :
    Double.placeOfRatio (2 ^ (e + 54) + 2 ^ e) 1 = Double.placeOfRatio (2 ^ (e + 54)) 1 := by
  have hpos := Nat.two_pow_pos e
  have hden : 2 ^ (e + 2) = 4 * 2 ^ e := by rw [Nat.add_comm, Nat.pow_add]
  have hnum : 2 ^ (e + 54) = 2 ^ 52 * 2 ^ (e + 2) := by rw [← Nat.pow_add]; congr 1; omega
  have hdropped : Double.droppedBits (2 ^ (e + 54) + 2 ^ e) = e + 2 := by
    unfold Double.droppedBits
    rw [log2_two_pow_add]
    omega
  have hdropped' : Double.droppedBits (2 ^ (e + 54)) = e + 2 := by
    unfold Double.droppedBits
    rw [Nat.log2_two_pow]
    omega
  have hrest : (2 ^ (e + 54) + 2 ^ e) % 2 ^ (e + 2) = 2 ^ e := by
    rw [hnum, Nat.mul_add_mod_self_right]
    exact Nat.mod_eq_of_lt (by omega)
  have hquotient : (2 ^ (e + 54) + 2 ^ e) / 2 ^ (e + 2) = 2 ^ 52 := by
    rw [hnum]
    exact Nat.div_eq_of_lt_le (by omega) (by omega)
  have hcompare : compare (2 * 2 ^ e) (2 ^ (e + 2)) = .lt := Nat.compare_eq_lt.2 (by omega)
  rw [Double.placeOfRatio_eq, Double.placeOfRatio_eq, hdropped, hdropped',
    roundDiv_of_eq_mul (Nat.two_pow_pos _) hnum]
  unfold roundDiv
  simp only [hrest, hcompare, hquotient]

/-- A weight is lost in a sum that is `2 ^ 54` times as large. -/
theorem absUnits_add_le_two_pow (hx : Scalar.le 0 x = true) (hy : Scalar.le 0 y = true)
    (hxe : x.absUnits ≤ 2 ^ (e + 54)) (hye : y.absUnits ≤ 2 ^ e) :
    (x + y).absUnits ≤ 2 ^ (e + 54) := by
  obtain ⟨-, hsum⟩ := Double.add_of_nonneg hx hy
  rw [Double.signedMagnitude_of_nonneg (OrderedScalar.le_trans hx (Double.le_add hx hy)),
    Int.ofNat_inj] at hsum
  have hplace : (x + y).magnitude ≤ Double.placeOfRatio (2 ^ (e + 54)) 1 := by
    rw [← placeOfRatio_two_pow_add, hsum]
    exact (Nat.min_le_left _ _).trans (Double.placeOfRatio_mono (Nat.add_le_add hxe hye))
  have hself := Double.unitsAt_placeOfRatio_mul (m := 1) (by decide) (e + 54)
  rw [Nat.one_mul] at hself
  rw [← hself]
  exact Double.unitsAt_strictMono.monotone hplace

/-- Any number of weights of at most `2 ^ 2043` units have a finite total. -/
theorem isFinite_weightTotal_of_le {weights : List Double} (he : e ≤ 2043)
    (h : ∀ w ∈ weights, Scalar.le 0 w = true ∧ w.absUnits ≤ 2 ^ e) :
    (weightTotal weights).isFinite = true := by
  have hsum : ∀ {x : Double}, Scalar.le 0 x = true → x.absUnits ≤ 2 ^ (e + 54) →
      ∀ ws : List Double, (∀ w ∈ ws, Scalar.le 0 w = true ∧ w.absUnits ≤ 2 ^ e) →
      (ws.foldl (· + ·) x).absUnits ≤ 2 ^ (e + 54) := by
    intro x hx hxe ws hws
    induction ws generalizing x with
    | nil => exact hxe
    | cons w ws ih =>
      obtain ⟨⟨hw, hwe⟩, hrest⟩ := List.forall_mem_cons.1 hws
      exact ih (OrderedScalar.le_trans hx (Double.le_add hx hw))
        (absUnits_add_le_two_pow hx hw hxe hwe) hrest
  cases weights with
  | nil => decide
  | cons first rest =>
    obtain ⟨⟨hfirst, hfirste⟩, hrest⟩ := List.forall_mem_cons.1 h
    have hunits := hsum hfirst (hfirste.trans (Nat.pow_le_pow_right Nat.two_pos (by omega))) rest hrest
    have hlimit : 2 ^ (e + 54) < Double.unitsAt infinityMagnitude :=
      (Nat.pow_lt_pow_succ Nat.one_lt_two).trans_le (two_pow_le_unitsAt (by omega))
    exact decide_eq_true (Double.unitsAt_strictMono.lt_iff_lt.1 (hunits.trans_lt hlimit))

end

end ProblemSolving
