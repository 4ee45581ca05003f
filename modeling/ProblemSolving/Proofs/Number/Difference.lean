import Mathlib.Algebra.Order.Ring.Abs
import ProblemSolving.Proofs.Number.RoundedSum

/-!
# Differences

* `DifferenceScalar` : a difference that is a number and not below zero tells the order.
* `Double.le_of_sub` : so it is for doubles, since rounding never hides a sign.
* `Double.Represents.sub` : the difference of integers is exact if it is a double.
* `Double.Whole.sub` : so differences of small whole numbers are not rounded.
-/

namespace ProblemSolving

/-- Scalars whose differences tell their order, also where they are rounded or infinite. -/
class DifferenceScalar (κ : Type) [Scalar κ] : Prop where
  le_of_sub {x y : κ} : Scalar.isNaN (y - x) = false → Scalar.lt (y - x) 0 = false →
    Scalar.le x y = true

namespace Double

/-! ## Opposite numbers -/

@[simp] theorem isNaN_neg (x : Double) : x.neg.isNaN = x.isNaN := rfl

@[simp] theorem isInfinite_neg (x : Double) : x.neg.isInfinite = x.isInfinite := rfl

@[simp] theorem signedMagnitude_neg (x : Double) : x.neg.signedMagnitude = -x.signedMagnitude := by
  obtain ⟨_ | _, m, _⟩ := x <;> simp [neg, signedMagnitude]

@[simp] theorem units_neg (x : Double) : x.neg.units = -x.units := by
  obtain ⟨_ | _, m, _⟩ := x <;> simp [neg, units, absUnits]

/-! ## Signs of differences -/

theorem min_placeOfRatio_pos {n : Nat} (h : 0 < n) :
    0 < min (placeOfRatio n 1) infinityMagnitude := by
  have hone : placeOfRatio 1 1 = 1 := placeOfRatio_unitsAt 1
  have hplace : placeOfRatio 1 1 ≤ placeOfRatio n 1 := placeOfRatio_mono h
  exact Nat.lt_min.2 ⟨by omega, by decide⟩

theorem signedMagnitude_ofUnits_neg {u : Int} (h : u < 0) : (ofUnits u).signedMagnitude < 0 := by
  have hpos := min_placeOfRatio_pos (Int.natAbs_pos.2 h.ne)
  simp only [signedMagnitude, ofUnits, ofRatio, decide_eq_true h, if_true]
  omega

theorem signedMagnitude_ofUnits_pos {u : Int} (h : 0 < u) : 0 < (ofUnits u).signedMagnitude := by
  obtain ⟨n, rfl⟩ := Int.eq_ofNat_of_zero_le h.le
  rw [ofUnits_natCast]
  exact Int.natCast_pos.2 (min_placeOfRatio_pos (Int.natCast_pos.1 h))

theorem signedMagnitude_nonneg {d : Double} (h : d.isNaN = false) (h' : d.lt 0 = false) :
    0 ≤ d.signedMagnitude := by
  by_contra hneg
  have hzero : (0 : Double).signedMagnitude = 0 := by decide
  have hlt : d.lt 0 = true := lt_iff.2 ⟨h, by decide, by omega⟩
  rw [hlt] at h'
  contradiction

theorem sub_of_isNumber {x y : Double} (hx : x.isNaN = false) : y - x = y + x.neg := by
  show y.sub x = y.add x.neg
  unfold sub
  rw [hx, Bool.false_and, if_neg (by simp)]

theorem isNumber_of_sub {x y : Double} (h : (y - x).isNaN = false) :
    x.isNaN = false ∧ y.isNaN = false := by
  change (y.sub x).isNaN = false at h
  unfold sub add at h
  cases hx : x.isNaN <;> cases hy : y.isNaN <;> simp [hx, hy] at h ⊢

theorem natAbs_signedMagnitude (x : Double) : x.signedMagnitude.natAbs = x.magnitude := by
  obtain ⟨_ | _, m, _⟩ := x <;> simp [signedMagnitude]

theorem signedMagnitude_le_of_isInfinite {x y : Double} (hx : x.isNaN = false)
    (hy : y.isInfinite = true) (h : 0 ≤ y.signedMagnitude) :
    x.signedMagnitude ≤ y.signedMagnitude := by
  have hmagnitude := natAbs_signedMagnitude x
  have hinfinite := natAbs_signedMagnitude y
  simp only [isNaN, isInfinite, decide_eq_false_iff_not, beq_iff_eq] at hx hy
  omega

/-- A difference that is a number and not below zero tells the order. -/
theorem le_of_sub {x y : Double} (h : (y - x).isNaN = false) (h' : (y - x).lt 0 = false) :
    x.le y = true := by
  have hd := signedMagnitude_nonneg h h'
  obtain ⟨hx, hy⟩ := isNumber_of_sub h
  refine le_iff.2 ⟨hx, hy, ?_⟩
  rw [sub_of_isNumber hx] at h hd
  cases hyi : y.isInfinite with
  | true =>
    have hsign : x.neg.isInfinite = true → x.neg.negative = y.negative := by
      intro hxi
      by_contra hne
      have hundefined : y + x.neg = undefined := by
        show y.add x.neg = undefined
        unfold add
        simp [hx, hy, hyi, hxi, Ne.symm hne]
      rw [hundefined] at h
      contradiction
    rw [add_of_isInfinite_left (y := x.neg) hyi hx hsign] at hd
    exact signedMagnitude_le_of_isInfinite hx hyi hd
  | false =>
    have hyf : y.isFinite = true := isFinite_iff.2 ⟨hy, hyi⟩
    cases hxi : x.isInfinite with
    | true =>
      rw [add_of_isInfinite_right hyf (y := x.neg) hxi] at hd
      have hle := signedMagnitude_le_of_isInfinite (x := y.neg) hy (y := x.neg) hxi hd
      simp only [signedMagnitude_neg] at hle
      omega
    | false =>
      have hxf : x.neg.isFinite = true := isFinite_iff.2 ⟨hx, hxi⟩
      by_contra hlt
      have hunits : y.units + x.neg.units < 0 := by
        have := units_le_iff.not.2 hlt
        rw [units_neg]
        omega
      rw [add_of_isFinite hyf hxf, if_neg hunits.ne] at hd
      exact absurd hd (Int.not_le.2 (signedMagnitude_ofUnits_neg hunits))

instance instDifferenceScalar : DifferenceScalar Double where
  le_of_sub := le_of_sub

/-! ## Differences of integers -/

theorem Represents.neg {x : Double} {n : ℤ} (hx : x.Represents n) : x.neg.Represents (-n) := by
  obtain ⟨hfinite, hunits⟩ := represents_iff.1 hx
  exact represents_iff.2 ⟨hfinite, by rw [units_neg, hunits, neg_mul]⟩

/-- The difference of integers is exact if it is a double. -/
theorem Represents.sub {x y : Double} {m n : ℤ} (hx : x.Represents m) (hy : y.Represents n)
    (h : Representable (m - n)) : (x - y).Represents (m - n) := by
  rw [sub_of_isNumber (isNaN_of_isFinite hy.1)]
  exact hx.add hy.neg h

theorem Represents.abs {x : Double} {n : ℤ} (hx : x.Represents n) : x.abs.Represents |n| := by
  obtain ⟨hfinite, hunits⟩ := represents_iff.1 hx
  have habs : x.abs.units = |x.units| := by
    rw [Int.abs_eq_natAbs, natAbs_units]
    rfl
  exact represents_iff.2 ⟨hfinite, by rw [habs, hunits, abs_mul, Nat.abs_cast]⟩

/-- Small whole numbers are subtracted without rounding. -/
theorem Whole.sub {x y : Double} {m n : Nat} (hx : Whole m x) (hy : Whole n y) (hle : n ≤ m)
    (h : m < 2 ^ 53) : Whole (m - n) (x - y) := by
  rw [whole_iff, Nat.cast_sub hle]
  refine (whole_iff.1 hx).sub (whole_iff.1 hy) (representable_of_lt ?_)
  rw [Int.abs_eq_natAbs]
  omega

end Double

/-! ## Rationals -/

instance : DifferenceScalar ℚ where
  le_of_sub {x y} _ h := by
    have hdiff : ¬ y - x < 0 := of_decide_eq_false h
    exact decide_eq_true (by linarith)

end ProblemSolving
