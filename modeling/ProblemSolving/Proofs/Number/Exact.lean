import Mathlib.Algebra.Order.Ring.Rat
import Mathlib.Tactic.Ring
import Mathlib.Tactic.Linarith
import ProblemSolving.Proofs.Number.Order

/-!
# Exact arithmetic

* `MeasuredScalar` : finite scalars stand for rational numbers and compare like them.
* `AddsExactly` : a sum that is not rounded.
* `Double.value` : the number that a double stands for.
* `instScalarRat` : the rationals themselves, whose sums are all exact.
-/

namespace ProblemSolving

/-- Scalars whose finite values stand for rational numbers. -/
class MeasuredScalar (κ : Type) [Scalar κ] extends OrderedScalar κ where
  /-- The number that a finite value stands for. -/
  value : κ → ℚ
  isFinite_zero : Scalar.isFinite (0 : κ) = true
  value_zero : value 0 = 0
  isNumber_of_isFinite {x : κ} : Scalar.isFinite x = true → Scalar.isNaN x = false
  le_iff {x y : κ} : Scalar.isFinite x = true → Scalar.isFinite y = true →
    (Scalar.le x y = true ↔ value x ≤ value y)
  lt_iff {x y : κ} : Scalar.isFinite x = true → Scalar.isFinite y = true →
    (Scalar.lt x y = true ↔ value x < value y)

export MeasuredScalar (value)

section
variable {κ : Type} [Scalar κ] [MeasuredScalar κ]

/-- The sum of two finite values is finite and not rounded. -/
structure AddsExactly (x y : κ) : Prop where
  left : Scalar.isFinite x = true
  right : Scalar.isFinite y = true
  sum : Scalar.isFinite (x + y) = true
  value_add : value (x + y) = value x + value y

theorem MeasuredScalar.value_nonneg {x : κ} (hx : Scalar.isFinite x = true)
    (h : Scalar.lt x 0 = false) : 0 ≤ value x := by
  by_contra hneg
  have hlt : value x < value (0 : κ) := by rw [value_zero]; linarith
  rw [(lt_iff hx isFinite_zero).2 hlt] at h
  contradiction

theorem MeasuredScalar.value_le_of_rank {x y : κ} (hx : Scalar.isFinite x = true)
    (hy : Scalar.isFinite y = true) (h : (Scalar.rank x y).isLE) : value x ≤ value y :=
  (le_iff hx hy).1 <|
    OrderedScalar.le_of_rank (isNumber_of_isFinite hx) (isNumber_of_isFinite hy) h

end

namespace Double

/-! ## Doubles -/

theorem unitsAt_eq (place : Nat) :
    unitsAt place = if place / 2 ^ 52 = 0 then place
      else (place % 2 ^ 52 + 2 ^ 52) * 2 ^ (place / 2 ^ 52 - 1) := rfl

theorem unitsAt_strictMono : StrictMono unitsAt := by
  apply strictMono_nat_of_lt_succ
  intro place
  rw [unitsAt_eq, unitsAt_eq]
  by_cases hrun : (place + 1) / 2 ^ 52 = place / 2 ^ 52
  · have hmod : (place + 1) % 2 ^ 52 = place % 2 ^ 52 + 1 := by omega
    simp only [hrun, hmod]
    split
    · omega
    · have := Nat.two_pow_pos (place / 2 ^ 52 - 1)
      apply Nat.mul_lt_mul_of_pos_right _ this
      omega
  · obtain ⟨scale, hscale⟩ : ∃ scale, place / 2 ^ 52 = scale := ⟨_, rfl⟩
    have hnext : (place + 1) / 2 ^ 52 = scale + 1 := by omega
    have hlast : place % 2 ^ 52 = 2 ^ 52 - 1 := by omega
    have hfirst : (place + 1) % 2 ^ 52 = 0 := by omega
    simp only [hscale, hnext, hlast, hfirst]
    cases scale with
    | zero => simp; omega
    | succ n =>
      have := Nat.two_pow_pos n
      simp [pow_succ]
      omega

theorem unitsAt_zero : unitsAt 0 = 0 := by decide

theorem units_le_iff {x y : Double} : x.units ≤ y.units ↔ x.signedMagnitude ≤ y.signedMagnitude := by
  obtain ⟨sx, m, hm⟩ := x
  obtain ⟨sy, n, hn⟩ := y
  have hle := unitsAt_strictMono.le_iff_le (a := m) (b := n)
  have hge := unitsAt_strictMono.le_iff_le (a := n) (b := m)
  have hm0 : unitsAt m = 0 ↔ m = 0 := by
    rw [← unitsAt_strictMono.injective.eq_iff (a := m), unitsAt_zero]
  have hn0 : unitsAt n = 0 ↔ n = 0 := by
    rw [← unitsAt_strictMono.injective.eq_iff (a := n), unitsAt_zero]
  cases sx <;> cases sy <;> simp [units, absUnits, signedMagnitude] <;> omega

/-- The number that a finite double stands for. -/
def value (x : Double) : ℚ := x.units / unitsPerOne

theorem unitsPerOne_pos : (0 : ℚ) < unitsPerOne := Nat.cast_pos.2 (by decide +kernel)

theorem value_le_iff {x y : Double} :
    x.value ≤ y.value ↔ x.signedMagnitude ≤ y.signedMagnitude := by
  unfold value
  rw [div_le_div_iff_of_pos_right unitsPerOne_pos, Int.cast_le, units_le_iff]

theorem isNaN_of_isFinite {x : Double} (h : x.isFinite = true) : x.isNaN = false := by
  simp [isFinite, isNaN] at h ⊢
  omega

instance : MeasuredScalar Double where
  value := value
  isFinite_zero := by decide
  value_zero := by
    show ((zero.units : ℤ) : ℚ) / unitsPerOne = 0
    rw [show zero.units = 0 by decide, Int.cast_zero, zero_div]
  isNumber_of_isFinite := isNaN_of_isFinite
  le_iff {x y} hx hy := by
    show x.le y = true ↔ x.value ≤ y.value
    rw [le_iff, value_le_iff]
    simp [isNaN_of_isFinite hx, isNaN_of_isFinite hy]
  lt_iff {x y} hx hy := by
    show x.lt y = true ↔ x.value < y.value
    rw [lt_iff, lt_iff_lt_of_le_iff_le value_le_iff]
    simp [isNaN_of_isFinite hx, isNaN_of_isFinite hy]

end Double

/-! ## Rationals -/

/-- The rationals as scalars. None of them is infinite; zero stands in. -/
instance instScalarRat : Scalar ℚ where
  ofNat n := n
  abs x := |x|
  infinity := 0
  isNaN _ := false
  isFinite _ := true
  lt x y := x < y
  le x y := x ≤ y
  rank x y := compare x y

instance : MeasuredScalar ℚ where
  zero_isNumber := rfl
  le_refl _ := by simp [Scalar.le]
  le_trans := by simp only [Scalar.le, decide_eq_true_eq]; exact fun h h' => h.trans h'
  le_total _ _ := by simp only [Scalar.le, decide_eq_true_eq]; exact le_total _ _
  isNumber_of_le _ := ⟨rfl, rfl⟩
  transCmp_rank := inferInstanceAs (Std.TransCmp (compare : ℚ → ℚ → Ordering))
  le_of_rank _ _ h := decide_eq_true (compare_le_iff_le.1 (Ordering.isLE_iff_ne_gt.1 h))
  value x := x
  isFinite_zero := rfl
  value_zero := rfl
  isNumber_of_isFinite _ := rfl
  le_iff _ _ := by simp [Scalar.le]
  lt_iff _ _ := by simp [Scalar.lt]

instance : StrictScalar ℚ where
  lt_iff := by simp [Scalar.lt, Scalar.le, Scalar.isNaN]

theorem addsExactly_rat (x y : ℚ) : AddsExactly x y := ⟨rfl, rfl, rfl, rfl⟩

end ProblemSolving
