import ProblemSolving.Proofs.Number.Quotients

/-!
# Signs of doubles

* `Double.sub_of_le` : the difference of a number and one that is not above it is above zero or a
  zero.
* `Double.div_of_zero` : a quotient of a zero is one.
* `Double.isNaN_mul`, `Double.mul_nonneg` : products that are numbers, and that are not below
  zero.
* `Double.isFinite_ofNat` : the counts of a machine are finite.
-/

namespace ProblemSolving
namespace Double

/-! ## Differences -/

/-- The difference of a number and one that is not above it is above zero or a zero. -/
theorem sub_of_le {x y : Double} (hx : x.isFinite = true) (hy : y.isFinite = true)
    (h : x.le y = true) : Double.lt 0 (y - x) = true ∨ (y - x).magnitude = 0 := by
  have hneg : x.neg.isFinite = true := hx
  have hunits : 0 ≤ y.units + x.neg.units := by
    have hle := units_le_iff.2 (le_iff.1 h).2.2
    rw [units_neg]
    omega
  rw [sub_of_isNumber (isNaN_of_isFinite hx), add_of_isFinite hy hneg]
  split
  next hzero => exact .inr rfl
  next hpos =>
    exact .inl (lt_iff.2 ⟨by decide, isNaN_ofUnits _, signedMagnitude_ofUnits_pos (by omega)⟩)

/-! ## Quotients and products -/

theorem magnitude_ofRatio_zero (negative : Bool) {den : Nat} (h : 0 < den) :
    (ofRatio negative 0 den).magnitude = 0 := by
  have hplace : placeOfRatio 0 den = 0 := by
    have hlog : Nat.log2 0 - 52 = 0 := by decide
    unfold placeOfRatio
    rw [Nat.zero_div, hlog]
    dsimp only
    rw [Nat.zero_mul, Nat.zero_add]
    exact roundDiv_of_eq_mul (Nat.mul_pos h (Nat.two_pow_pos _)) (Nat.zero_mul _).symm
  rw [magnitude_ofRatio, hplace, Nat.zero_min]

theorem absUnits_eq_zero {x : Double} (h : x.magnitude = 0) : x.absUnits = 0 := by
  rw [absUnits, h, unitsAt_zero]

/-- A quotient of a zero is one. -/
theorem div_of_zero {x y : Double} (hx : x.magnitude = 0) (hy : y.isNaN = false)
    (hne : y.magnitude ≠ 0) : (x / y).magnitude = 0 := by
  have hxf : x.isFinite = true := by
    unfold isFinite
    rw [hx]
    decide
  cases hyi : y.isInfinite with
  | true =>
    obtain ⟨hxn, hxi⟩ := isFinite_iff.1 hxf
    have hdiv : x / y = ⟨x.negative != y.negative, 0, by decide⟩ := by
      show x.div y = _
      unfold div
      simp only [hxn, hxi, hy, hyi, Bool.false_eq_true, if_false, if_true]
    rw [hdiv]
  | false =>
    rw [div_of_isFinite hxf (isFinite_iff.2 ⟨hy, hyi⟩) hne, absUnits_eq_zero hx, Nat.zero_mul]
    exact magnitude_ofRatio_zero _ (absUnits_pos hne)

theorem mul_of_isFinite {x y : Double} (hx : x.isFinite = true) (hy : y.isFinite = true) :
    x * y = ofRatio (x.negative != y.negative) (x.absUnits * y.absUnits) unitsPerOne := by
  obtain ⟨hxn, hxi⟩ := isFinite_iff.1 hx
  obtain ⟨hyn, hyi⟩ := isFinite_iff.1 hy
  show x.mul y = _
  unfold mul
  simp only [hxn, hxi, hyn, hyi, Bool.or_self, Bool.false_eq_true, if_false]

/-- The product of finite numbers is a number. -/
theorem isNaN_mul {x y : Double} (hx : x.isFinite = true) (hy : y.isFinite = true) :
    (x * y).isNaN = false := by
  rw [mul_of_isFinite hx hy]
  exact isNaN_ofRatio _ _ _

/-- The product of a finite number above zero and one that is not below it is not below it. -/
theorem mul_nonneg {x y : Double} (hx : x.isFinite = true) (hpos : Double.lt 0 x = true)
    (hy : Scalar.le 0 y = true) : Scalar.le 0 (x * y) = true := by
  obtain ⟨hyn, hyzero⟩ := nonneg_iff.1 hy
  have hmagnitude : 0 < x.signedMagnitude := (lt_iff.1 hpos).2.2
  have hsign : x.negative = false ∧ x.magnitude ≠ 0 := by
    unfold signedMagnitude at hmagnitude
    split at hmagnitude
    next => omega
    next hneg => exact ⟨Bool.eq_false_iff.2 hneg, by omega⟩
  cases hyi : y.isInfinite with
  | true =>
    obtain ⟨hxn, hxi⟩ := isFinite_iff.1 hx
    obtain rfl := eq_infinity hy hyi
    have hmul : x * infinity = infinity := by
      show x.mul infinity = _
      unfold mul
      simp only [hxn, hxi, hyn, hyi, hsign.1, hsign.2, Bool.false_eq_true, Bool.or_true, if_false,
        if_true]
      rfl
    rw [hmul]
    exact hy
  | false =>
    rw [mul_of_isFinite hx (isFinite_iff.2 ⟨hyn, hyi⟩)]
    refine nonneg_iff.2 ⟨isNaN_ofRatio _ _ _, fun hneg => ?_⟩
    have hynegative : y.negative = true := by
      rw [negative_ofRatio, hsign.1] at hneg
      simpa using hneg
    rw [absUnits_eq_zero (hyzero hynegative), Nat.mul_zero]
    exact magnitude_ofRatio_zero _ (Nat.cast_pos.1 unitsPerOne_pos)

/-! ## Counts and zeros -/

theorem isFinite_ofNat {n : Nat} (h : n < 2 ^ 64) : (ofNat n).isFinite = true := by
  have hmono : placeOfRatio (n * unitsPerOne) 1 ≤ placeOfRatio (2 ^ 64 * unitsPerOne) 1 :=
    placeOfRatio_mono (Nat.mul_le_mul_right _ h.le)
  have hbound : placeOfRatio (2 ^ 64 * unitsPerOne) 1 < infinityMagnitude := by decide +kernel
  unfold isFinite ofNat
  rw [magnitude_ofRatio]
  exact decide_eq_true (Nat.lt_of_le_of_lt (Nat.min_le_left _ _) (by omega))

theorem le_zero_iff {x : Double} (h : Scalar.le 0 x = true) :
    Scalar.le x 0 = true ↔ x.magnitude = 0 := by
  have hzero : (0 : Double).signedMagnitude = 0 := by decide
  rw [show Scalar.le x 0 = x.le 0 from rfl, le_iff, hzero, signedMagnitude_of_nonneg h]
  constructor
  · rintro ⟨-, -, hle⟩
    omega
  · rintro hx
    exact ⟨(nonneg_iff.1 h).1, by decide, by omega⟩

end Double
end ProblemSolving
