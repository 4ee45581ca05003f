import ProblemSolving.Proofs.Random.Draws
import ProblemSolving.Proofs.Number.Quotients

/-!
# Draws from the unit interval

* `Draw.units_unit` : a number that is drawn is a multiple of `2 ^ (-53)` and is not rounded.
* `Draw.unit_always` : it is not below zero, and below one.
-/

namespace ProblemSolving
namespace Draw

variable {ρ : Type} [RandomSource ρ]

/-- The units of the least number above zero that may be drawn. -/
def leastUnits : Nat := 2 ^ 1021

theorem leastUnits_pos : 0 < leastUnits := by decide +kernel

theorem unitsPerOne_eq : Double.unitsPerOne = 2 ^ 53 * leastUnits := by decide +kernel

/-- A count of 53 bits is divided by `2 ^ 53` without rounding. -/
theorem units_unit {w : Nat} (h : w < 2 ^ 53) :
    (Double.ofNat w / Double.ofNat (2 ^ 53)).isFinite = true ∧
      (Double.ofNat w / Double.ofNat (2 ^ 53)).units = (w * leastUnits : Nat) := by
  have hw := Double.whole_ofNat h
  obtain ⟨hz, hzunits⟩ := Double.units_ofUnits_mul (k := w) (by omega) (e := 1021) (by decide)
  have hden : (Double.ofNat (2 ^ 53)).isFinite = true ∧
      (Double.ofNat (2 ^ 53)).units = (2 ^ 53 * Double.unitsPerOne : Nat) := by decide +kernel
  rw [Nat.cast_mul]
  change (Double.ofUnits (w * leastUnits)).units = w * leastUnits at hzunits
  rw [← hzunits]
  refine Double.units_div hw.1 hden.1 hz ?_ ?_
  · rw [hden.2]
    have hpos : 0 < Double.unitsPerOne := Nat.cast_pos.1 Double.unitsPerOne_pos
    exact Int.natCast_ne_zero.2 (Nat.mul_ne_zero (by decide) hpos.ne')
  · rw [hw.units, hden.2, unitsPerOne_eq]
    show _ = (Double.ofUnits (w * leastUnits)).units * _
    rw [hzunits]
    push_cast
    ring

/-- A number that is drawn from the unit interval is not below zero, and below one. -/
theorem unit_always : Always (unit : Draw ρ Double) fun u =>
    Scalar.le 0 u = true ∧ Scalar.lt u 1 = true := by
  refine word64_always.bind fun w hw => .pure ?_
  have hbits : w / 2 ^ 11 < 2 ^ 53 := by omega
  obtain ⟨hfinite, hunits⟩ := units_unit hbits
  have hnumber := Double.isNaN_of_isFinite hfinite
  have hone : (1 : Double).units = (2 ^ 53 * leastUnits : Nat) := by decide +kernel
  have hzero : (0 : Double).units = 0 := by decide
  constructor
  · refine Double.le_iff.2 ⟨by decide, hnumber, Double.units_le_iff.1 ?_⟩
    rw [hzero]
    exact hunits ▸ Int.natCast_nonneg _
  · refine Double.lt_iff.2 ⟨hnumber, by decide +kernel, ?_⟩
    refine (lt_iff_lt_of_le_iff_le Double.units_le_iff).1 ?_
    have hlt := Nat.mul_lt_mul_of_pos_right hbits leastUnits_pos
    rw [hone]
    exact hunits.trans_lt (Int.ofNat_lt.2 hlt)

end Draw
end ProblemSolving
