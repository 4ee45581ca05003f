import ProblemSolving.Proofs.Number.Difference

/-!
# Quotients

* `Double.placeOfRatio_mul_right` : a quotient is rounded by its value alone.
* `Double.units_div` : a quotient that is a double is not rounded.
* `Double.Represents.half` : so an even integer is halved without rounding.
-/

namespace ProblemSolving

theorem compare_mul_right (a b : Nat) {d : Nat} (hd : 0 < d) :
    compare (a * d) (b * d) = compare a b := by
  rcases Nat.lt_trichotomy a b with h | rfl | h
  · rw [compare_lt_iff_lt.2 h, compare_lt_iff_lt.2 (Nat.mul_lt_mul_of_pos_right h hd)]
  · rw [compare_eq_iff_eq.2 rfl, compare_eq_iff_eq.2 rfl]
  · rw [compare_gt_iff_gt.2 h, compare_gt_iff_gt.2 (Nat.mul_lt_mul_of_pos_right h hd)]

theorem roundDiv_mul_right (tie : Tie) (a b : Nat) {d : Nat} (hd : 0 < d) :
    roundDiv tie (a * d) (b * d) = roundDiv tie a b := by
  unfold roundDiv
  rw [Nat.mul_div_mul_right a b hd, Nat.mul_mod_mul_right, ← Nat.mul_assoc,
    compare_mul_right _ _ hd]

namespace Double

/-- A quotient is rounded by its value alone. -/
theorem placeOfRatio_mul_right (a b : Nat) {d : Nat} (hd : 0 < d) :
    placeOfRatio (a * d) (b * d) = placeOfRatio a b := by
  unfold placeOfRatio
  rw [Nat.mul_div_mul_right a b hd]
  dsimp only
  rw [Nat.mul_right_comm b d, roundDiv_mul_right _ _ _ hd]

theorem negative_ofRatio (negative : Bool) (num den : Nat) :
    (ofRatio negative num den).negative = negative := rfl

theorem magnitude_ofRatio (negative : Bool) (num den : Nat) :
    (ofRatio negative num den).magnitude = min (placeOfRatio num den) infinityMagnitude := rfl

theorem div_of_isFinite {x y : Double} (hx : x.isFinite = true) (hy : y.isFinite = true)
    (hne : y.magnitude ≠ 0) :
    x / y = ofRatio (x.negative != y.negative) (x.absUnits * unitsPerOne) y.absUnits := by
  obtain ⟨hxn, hxi⟩ := isFinite_iff.1 hx
  obtain ⟨hyn, hyi⟩ := isFinite_iff.1 hy
  show x.div y = _
  unfold div
  simp only [hxn, hxi, hyn, hyi, hne, Bool.false_eq_true, if_false]

theorem absUnits_pos {x : Double} (h : x.magnitude ≠ 0) : 0 < x.absUnits := by
  rw [← natAbs_units]
  exact Int.natAbs_pos.2 (mt units_eq_zero_iff.1 h)

theorem units_eq_of_magnitude {x z : Double} (h : x.magnitude = z.magnitude)
    (hsign : z.magnitude ≠ 0 → x.negative = z.negative) : x.units = z.units := by
  by_cases hzero : z.magnitude = 0
  · rw [units_eq_zero_iff.2 hzero, units_eq_zero_iff.2 (h.trans hzero)]
  · unfold units absUnits
    rw [h, hsign hzero]

theorem negative_eq {x : Double} (h : x.units ≠ 0) : x.negative = decide (x.units < 0) := by
  unfold units at h ⊢
  cases hneg : x.negative with
  | true =>
    rw [hneg, if_pos rfl] at h
    rw [if_pos rfl]
    exact (decide_eq_true (by omega)).symm
  | false =>
    rw [if_neg Bool.false_ne_true]
    exact (decide_eq_false (by omega)).symm

/-- A quotient that is a double is not rounded. -/
theorem units_div {x y z : Double} (hx : x.isFinite = true) (hy : y.isFinite = true)
    (hz : z.isFinite = true) (hne : y.units ≠ 0) (h : x.units * unitsPerOne = z.units * y.units) :
    (x / y).isFinite = true ∧ (x / y).units = z.units := by
  have hy0 : y.magnitude ≠ 0 := mt units_eq_zero_iff.2 hne
  have hpos := absUnits_pos hy0
  have habs : x.absUnits * unitsPerOne = z.absUnits * y.absUnits := by
    rw [← natAbs_units, ← natAbs_units, ← natAbs_units, ← Int.natAbs_mul, ← h, Int.natAbs_mul,
      Int.natAbs_natCast]
  have hplace : placeOfRatio (z.absUnits * y.absUnits) y.absUnits = z.magnitude := by
    have hcancel := placeOfRatio_mul_right z.absUnits 1 hpos
    rw [Nat.one_mul] at hcancel
    rw [hcancel, absUnits, placeOfRatio_unitsAt]
  have hmagnitude : (x / y).magnitude = z.magnitude := by
    rw [div_of_isFinite hx hy hy0, magnitude_ofRatio, habs, hplace]
    simp [isFinite] at hz
    omega
  refine ⟨?_, units_eq_of_magnitude hmagnitude fun hz0 => ?_⟩
  · show decide ((x / y).magnitude < infinityMagnitude) = true
    rw [hmagnitude]
    exact hz
  have hz' : z.units ≠ 0 := mt units_eq_zero_iff.1 hz0
  have hone : (0 : ℤ) < unitsPerOne := by exact_mod_cast unitsPerOne_pos
  have hx' : x.units ≠ 0 := by
    intro hzero
    rw [hzero, zero_mul] at h
    exact mul_ne_zero hz' hne h.symm
  have hsign : x.units.sign = z.units.sign * y.units.sign := by
    rw [← Int.sign_mul, ← h, Int.sign_mul, Int.sign_eq_one_of_pos hone, mul_one]
  rw [div_of_isFinite hx hy hy0, negative_ofRatio, negative_eq hx', negative_eq hne,
    negative_eq hz']
  rcases lt_or_gt_of_ne hz' with hz' | hz' <;> rcases lt_or_gt_of_ne hne with hne | hne <;>
    simp only [Int.sign_eq_one_of_pos, Int.sign_eq_neg_one_of_neg, hz', hne] at hsign
  · have hx : 0 < x.units := Int.sign_eq_one_iff_pos.1 hsign
    simp [hne, hz', hx.not_gt]
  · have hx : x.units < 0 := Int.sign_eq_neg_one_iff_neg.1 hsign
    simp [hne.not_gt, hz', hx]
  · have hx : x.units < 0 := Int.sign_eq_neg_one_iff_neg.1 hsign
    simp [hne, hz'.not_gt, hx]
  · have hx : 0 < x.units := Int.sign_eq_one_iff_pos.1 hsign
    simp [hne.not_gt, hz'.not_gt, hx.not_gt]

theorem Represents.half {x : Double} {n : ℤ} (hx : x.Represents (2 * n)) (h : Representable n) :
    (x / ofNat 2).Represents n := by
  obtain ⟨z, hz⟩ := h
  have htwo : (ofNat 2).Represents 2 := whole_iff.1 (whole_ofNat (by decide))
  have hunits := (represents_iff.1 htwo).2
  have hne : (ofNat 2).units ≠ 0 := by
    rw [hunits]
    exact mul_ne_zero (by decide) (by exact_mod_cast unitsPerOne_pos.ne')
  obtain ⟨hfinite, hdiv⟩ := units_div hx.1 htwo.1 hz.1 hne
    (by rw [(represents_iff.1 hx).2, hunits, (represents_iff.1 hz).2]; ring)
  exact represents_iff.2 ⟨hfinite, hdiv.trans (represents_iff.1 hz).2⟩

end Double

end ProblemSolving
