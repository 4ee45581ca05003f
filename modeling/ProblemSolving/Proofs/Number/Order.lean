import Mathlib.Order.Monotone.Basic
import ProblemSolving.Number.Double

/-!
# The order of scalars

* `OrderedScalar` : the comparison orders the numbers, and the order of the frontiers agrees with
  it.
* `StrictScalar` : its strict comparison is what the order leaves open.
* `Double.instOrderedScalar` : doubles are ordered, though they hold undefined values and two
  zeros.
* `Double.rank_eq_lt_iff` : the total order of doubles, clause by clause.
-/

namespace ProblemSolving

/-- Scalars whose comparison is a total preorder of the numbers among them, and whose total order
keeps to it. -/
class OrderedScalar (κ : Type) [Scalar κ] : Prop where
  zero_isNumber : Scalar.isNaN (0 : κ) = false
  le_refl {x : κ} : Scalar.isNaN x = false → Scalar.le x x = true
  le_trans {x y z : κ} : Scalar.le x y = true → Scalar.le y z = true → Scalar.le x z = true
  le_total {x y : κ} : Scalar.isNaN x = false → Scalar.isNaN y = false →
    Scalar.le x y = true ∨ Scalar.le y x = true
  isNumber_of_le {x y : κ} : Scalar.le x y = true →
    Scalar.isNaN x = false ∧ Scalar.isNaN y = false
  transCmp_rank : Std.TransCmp (Scalar.rank (κ := κ))
  le_of_rank {x y : κ} : Scalar.isNaN x = false → Scalar.isNaN y = false →
    (Scalar.rank x y).isLE → Scalar.le x y = true

namespace OrderedScalar

variable {κ : Type} [Scalar κ] [OrderedScalar κ]

instance : Std.TransCmp (Scalar.rank (κ := κ)) := transCmp_rank

theorem zero_le_zero : Scalar.le (0 : κ) 0 = true := le_refl zero_isNumber

theorem isNumber_right {x y : κ} (h : Scalar.le x y = true) : Scalar.isNaN y = false :=
  (isNumber_of_le h).2

theorem le_of_not_le {x y : κ} (hx : Scalar.isNaN x = false) (hy : Scalar.isNaN y = false)
    (h : Scalar.le x y = false) : Scalar.le y x = true := by
  rcases le_total hx hy with hxy | hyx
  · rw [hxy] at h; contradiction
  · exact hyx

end OrderedScalar

/-- Ordered scalars, one of which is strictly below another if the other is not at most it. -/
class StrictScalar (κ : Type) [Scalar κ] : Prop extends OrderedScalar κ where
  lt_iff {x y : κ} : Scalar.lt x y = true ↔
    Scalar.isNaN x = false ∧ Scalar.isNaN y = false ∧ Scalar.le y x = false

namespace StrictScalar

variable {κ : Type} [Scalar κ] [StrictScalar κ] {x y z : κ}

theorem lt_of_not_le (hx : Scalar.isNaN x = false) (hy : Scalar.isNaN y = false)
    (h : Scalar.le y x = false) : Scalar.lt x y = true := lt_iff.2 ⟨hx, hy, h⟩

theorem le_of_not_lt (hx : Scalar.isNaN x = false) (hy : Scalar.isNaN y = false)
    (h : Scalar.lt x y = false) : Scalar.le y x = true := by
  by_contra hle
  exact Bool.eq_false_iff.1 h (lt_of_not_le hx hy (Bool.eq_false_iff.2 hle))

theorem not_lt_of_le (h : Scalar.le y x = true) : Scalar.lt x y = false :=
  Bool.eq_false_iff.2 fun hlt => Bool.eq_false_iff.1 (lt_iff.1 hlt).2.2 h

theorem le_of_lt (h : Scalar.lt x y = true) : Scalar.le x y = true :=
  OrderedScalar.le_of_not_le (lt_iff.1 h).2.1 (lt_iff.1 h).1 (lt_iff.1 h).2.2

theorem lt_of_le_of_lt (hxy : Scalar.le x y = true) (hyz : Scalar.lt y z = true) :
    Scalar.lt x z = true := by
  obtain ⟨-, hz, hzy⟩ := lt_iff.1 hyz
  refine lt_of_not_le (OrderedScalar.isNumber_of_le hxy).1 hz (Bool.eq_false_iff.2 fun hzx => ?_)
  exact Bool.eq_false_iff.1 hzy (OrderedScalar.le_trans hzx hxy)

theorem lt_trans (hxy : Scalar.lt x y = true) (hyz : Scalar.lt y z = true) : Scalar.lt x z = true :=
  lt_of_le_of_lt (le_of_lt hxy) hyz

end StrictScalar

namespace Double

/-! ## Doubles -/

theorem le_iff {x y : Double} :
    x.le y = true ↔
      x.isNaN = false ∧ y.isNaN = false ∧ x.signedMagnitude ≤ y.signedMagnitude := by
  simp [le, and_assoc]

theorem lt_iff {x y : Double} :
    x.lt y = true ↔
      x.isNaN = false ∧ y.isNaN = false ∧ x.signedMagnitude < y.signedMagnitude := by
  simp [lt, and_assoc]

/-- The rank refines the order of numbers: it only tells the two zeros apart as well. -/
theorem signedMagnitude_le_of_rankKey_le {x y : Double} (h : x.rankKey ≤ y.rankKey) :
    x.signedMagnitude ≤ y.signedMagnitude := by
  obtain ⟨_ | _, m, _⟩ := x <;> obtain ⟨_ | _, n, _⟩ := y <;>
    simp [rankKey, signedMagnitude] at h ⊢ <;> omega

instance instOrderedScalar : OrderedScalar Double where
  zero_isNumber := by decide
  le_refl hx := le_iff.2 ⟨hx, hx, le_rfl⟩
  le_trans hxy hyz := by
    obtain ⟨hx, -, h⟩ := le_iff.1 hxy
    obtain ⟨-, hz, h'⟩ := le_iff.1 hyz
    exact le_iff.2 ⟨hx, hz, h.trans h'⟩
  le_total {x y} hx hy := by
    rcases Int.le_total x.signedMagnitude y.signedMagnitude with h | h
    · exact .inl (le_iff.2 ⟨hx, hy, h⟩)
    · exact .inr (le_iff.2 ⟨hy, hx, h⟩)
  isNumber_of_le h := ⟨(le_iff.1 h).1, (le_iff.1 h).2.1⟩
  transCmp_rank := inferInstanceAs (Std.TransCmp (compareOn rankKey))
  le_of_rank {x y} hx hy h := by
    have hkey : x.rankKey ≤ y.rankKey := Std.isLE_compare.1 h
    exact le_iff.2 ⟨hx, hy, signedMagnitude_le_of_rankKey_le hkey⟩

instance : StrictScalar Double where
  lt_iff {x y} := by
    show x.lt y = true ↔ x.isNaN = false ∧ y.isNaN = false ∧ y.le x = false
    rw [← Bool.not_eq_true (y.le x), lt_iff, le_iff]
    constructor
    · rintro ⟨hx, hy, h⟩
      exact ⟨hx, hy, fun hle => absurd hle.2.2 (not_le.2 h)⟩
    · rintro ⟨hx, hy, h⟩
      exact ⟨hx, hy, not_le.1 fun hle => h ⟨hy, hx, hle⟩⟩

/-! ## The total order of doubles -/

/-- The total order of the floating-point standard, but for the order among undefined values of one
sign, which are one value here: numbers go by their value, the negative zero comes before the positive
one, the negative undefined value before all else, and the positive one after. -/
def TotallyBelow (x y : Double) : Prop :=
  x.lt y = true ∨
  (x.magnitude = 0 ∧ y.magnitude = 0 ∧ x.negative = true ∧ y.negative = false) ∨
  ((x.isNaN = true ∧ x.negative = true) ∧ ¬ (y.isNaN = true ∧ y.negative = true)) ∨
  ((y.isNaN = true ∧ y.negative = false) ∧ ¬ (x.isNaN = true ∧ x.negative = false))

theorem rank_eq_lt_iff {x y : Double} : x.rank y = .lt ↔ x.TotallyBelow y := by
  show compare x.rankKey y.rankKey = .lt ↔ _
  rw [compare_lt_iff_lt]
  obtain ⟨sx, m, hm⟩ := x
  obtain ⟨sy, n, hn⟩ := y
  cases sx <;> cases sy <;> simp [TotallyBelow, rankKey, lt, isNaN, signedMagnitude] <;> omega

theorem rankKey_injective : Function.Injective rankKey := by
  rintro ⟨sx, m, hm⟩ ⟨sy, n, hn⟩ h
  cases sx <;> cases sy <;> simp [rankKey] at h ⊢ <;> omega

theorem rank_eq_eq_iff {x y : Double} : x.rank y = .eq ↔ x = y := by
  show compare x.rankKey y.rankKey = .eq ↔ x = y
  rw [compare_eq_iff_eq, rankKey_injective.eq_iff]

end Double

end ProblemSolving
