import ProblemSolving.Proofs.Number.RoundedSum

/-!
# Counting by scalars

* `Scalar.count` : one, added so many times.
* `CountingScalar` : counting never goes down, though sums may be rounded; `Double` and `ℚ` count.
-/

namespace ProblemSolving

/-- One, added to zero so many times. -/
def Scalar.count {κ : Type} [Scalar κ] : Nat → κ
  | 0 => 0
  | n + 1 => count n + 1

open Scalar (count)

/-- Scalars by which counting never goes down. -/
class CountingScalar (κ : Type) [Scalar κ] : Prop extends OrderedScalar κ where
  count_le_succ (n : Nat) : Scalar.le (count n : κ) (count (n + 1)) = true
  rank_count_succ (n : Nat) : (Scalar.rank (count n : κ) (count (n + 1))).isLE

namespace CountingScalar

variable {κ : Type} [Scalar κ] [CountingScalar κ] {m n : Nat}

theorem count_le_count (h : m ≤ n) : Scalar.le (count m : κ) (count n) = true := by
  induction n, h using Nat.le_induction with
  | base => exact OrderedScalar.le_refl (OrderedScalar.isNumber_of_le (count_le_succ m)).1
  | succ n _ ih => exact OrderedScalar.le_trans ih (count_le_succ n)

theorem rank_count_count (h : m ≤ n) : (Scalar.rank (count m : κ) (count n)).isLE := by
  have hrefl : Std.ReflCmp (Scalar.rank : κ → κ → Ordering) := inferInstance
  have htrans : Std.TransCmp (Scalar.rank : κ → κ → Ordering) := inferInstance
  induction n, h using Nat.le_induction with
  | base =>
    rw [hrefl.compare_self]
    rfl
  | succ n _ ih => exact htrans.isLE_trans ih (rank_count_succ n)

end CountingScalar

/-! ## Doubles -/

namespace Double

theorem negative_add {x y : Double} (hx : Scalar.le 0 x = true) (hy : Scalar.le 0 y = true)
    (hxs : x.negative = false) (hys : y.negative = false) : (x + y).negative = false := by
  have hxn := (nonneg_iff.1 hx).1
  have hyn := (nonneg_iff.1 hy).1
  rcases Bool.eq_false_or_eq_true x.isInfinite with hxi | hxi
  · rw [add_of_isInfinite_left hxi hyn fun _ => hys.trans hxs.symm, hxs]
  have hxf := isFinite_iff.2 ⟨hxn, hxi⟩
  rcases Bool.eq_false_or_eq_true y.isInfinite with hyi | hyi
  · rw [add_of_isInfinite_right hxf hyi, hys]
  rw [add_of_isFinite hxf (isFinite_iff.2 ⟨hyn, hyi⟩), units_of_nonneg hx, units_of_nonneg hy]
  split
  · simp [hxs]
  · show decide (((x.absUnits : Int) + y.absUnits) < 0) = false
    exact decide_eq_false (by omega)

theorem le_zero_one : Scalar.le (0 : Double) 1 = true := by decide +kernel

theorem count_nonneg (n : Nat) :
    Scalar.le 0 (count n : Double) = true ∧ (count n : Double).negative = false := by
  induction n with
  | zero => exact ⟨OrderedScalar.zero_le_zero, rfl⟩
  | succ n ih =>
    obtain ⟨hle, hsign⟩ := ih
    exact ⟨OrderedScalar.le_trans hle (le_add hle le_zero_one),
      negative_add hle le_zero_one hsign (by decide +kernel)⟩

instance : CountingScalar Double where
  count_le_succ n := le_add (count_nonneg n).1 le_zero_one
  rank_count_succ n := by
    obtain ⟨-, hsign⟩ := count_nonneg n
    obtain ⟨-, hsign'⟩ := count_nonneg (n + 1)
    obtain ⟨-, -, hle⟩ := le_iff.1 (le_add (count_nonneg n).1 le_zero_one)
    show (compare (count n : Double).rankKey (count (n + 1) : Double).rankKey).isLE
    rw [Std.isLE_compare]
    change (count n : Double).signedMagnitude ≤ (count (n + 1) : Double).signedMagnitude at hle
    simpa [rankKey, signedMagnitude, hsign, hsign'] using hle

end Double

/-! ## Rationals -/

theorem count_rat (n : Nat) : (count n : ℚ) = n := by
  induction n with
  | zero => exact Nat.cast_zero.symm
  | succ n ih =>
    rw [count, ih]
    push_cast
    rfl

instance : CountingScalar ℚ where
  count_le_succ n := by
    rw [count_rat, count_rat]
    exact decide_eq_true (Nat.cast_le.2 n.le_succ)
  rank_count_succ n := by
    rw [count_rat, count_rat]
    have hle : compare (n : ℚ) ((n + 1 : Nat) : ℚ) ≠ .gt :=
      compare_le_iff_le.2 (Nat.cast_le.2 n.le_succ)
    exact Ordering.isLE_iff_ne_gt.2 hle

end ProblemSolving
