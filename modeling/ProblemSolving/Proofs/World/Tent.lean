import Mathlib
import ProblemSolving.World.Tent
import ProblemSolving.Local.HillClimbing
import ProblemSolving.Proofs.Number.Quotients

/-!
# The climb of a tent

* `Tent.Integral` : a tent of integers.
* `Tent.ExactAt`, `Tent.ExactUpTo` : what is computed on a climb is not rounded.
* `Tent.represents_steepest` : the steepest move leads towards the peak.
* `Tent.Nearest` : the least number of steps to within half a step of the peak.
* `Tent.climb_stops`, `Tent.climb_goesOn` : one step of a climb.
* `Tent.climb_approaches` : a climb comes nearer with each step, until it is there.
* `tent_climbed` : hill climbing ends within half a step of the peak, after the least number of
  steps.
-/

namespace ProblemSolving
namespace Tent

open Double (Representable)

/-- The peak of the tent and the steps on it are integers, and so is where the climb starts. -/
structure Integral (t : Tent Double) (start p δ : ℤ) : Prop where
  initial : t.initial.Represents start
  maximum : t.maximum.Represents (2 * p)
  delta : t.delta.Represents δ

/-- A place, its distance from the peak and its value are doubles. -/
structure ExactAt (p n : ℤ) : Prop where
  place : Representable n
  distance : Representable (p - n)
  value : Representable (p - |p - n|)

/-- The step from a place towards the peak. -/
def toward (p δ n : ℤ) : ℤ := if n ≤ p then δ else -δ

/-- Where a number of steps towards the peak lead; one less than none leads away from it. -/
def place (start p δ i : ℤ) : ℤ := start + i * toward p δ start

/-- Nothing is rounded at the peak, nor where a climb of some steps looks. -/
structure ExactUpTo (start p δ : ℤ) (k : ℕ) : Prop where
  peak : Representable p
  exactAt : ∀ i : ℤ, -1 ≤ i → i ≤ k + 1 → ExactAt p (place start p δ i)

variable {t : Tent Double} {start p δ n : ℤ} {x : Double} {k : ℕ}

/-! ## Values -/

theorem exactAt_of_lt (h : |p| + |p - n| < 2 ^ 53) : ExactAt p n where
  place := Double.representable_of_lt (by grind)
  distance := Double.representable_of_lt (by grind)
  value := Double.representable_of_lt (by grind)

theorem represents_value (ht : t.Integral start p δ) (hp : Representable p) (hx : x.Represents n)
    (h : ExactAt p n) : (t.value x).Represents (p - |p - n|) := by
  have hpeak : t.peak.Represents p := ht.maximum.half hp
  exact hpeak.sub (hpeak.sub hx h.distance).abs h.value

theorem abs_sub_toward (hδ : 1 ≤ δ) (n : ℤ) :
    |p - n| ≤ |p - (n + toward p δ n)| ↔ 2 * |p - n| ≤ δ := by
  unfold toward
  grind

/-- The steepest move leads towards the peak, and not higher if that is within half a step. -/
theorem represents_steepest (ht : t.Integral start p δ) (hδ : 1 ≤ δ) (hp : Representable p)
    (hx : x.Represents n) (hhere : ExactAt p n) (hright : ExactAt p (n + δ))
    (hleft : ExactAt p (n - δ)) :
    ∃ next, t.landscape.steepest? x = some (next, t.value next) ∧
      next.Represents (n + toward p δ n) ∧
      (Scalar.le (t.value next) (t.value x) = true ↔ 2 * |p - n| ≤ δ) := by
  have hscan : t.landscape.steepest? x =
      if Scalar.lt (t.value (x + t.delta)) (t.value (x - t.delta)) then
        some (x - t.delta, t.value (x - t.delta))
      else some (x + t.delta, t.value (x + t.delta)) := rfl
  have hxr := hx.add ht.delta hright.place
  have hxl := hx.sub ht.delta hleft.place
  have hv := represents_value ht hp hx hhere
  have hvr := represents_value ht hp hxr hright
  have hvl := represents_value ht hp hxl hleft
  rw [hscan, ← abs_sub_toward hδ, ← sub_le_sub_iff_left p]
  unfold toward
  -- at the peak both moves lead equally low, and the first of them is the one to the right
  rcases le_or_gt n p with hle | hgt
  · rw [if_neg ((hvr.lt_iff hvl).not.2 (by grind)), if_pos hle]
    exact ⟨_, rfl, hxr, hvr.le_iff hv⟩
  · rw [if_pos ((hvr.lt_iff hvl).2 (by grind)), if_neg (not_le.2 hgt)]
    exact ⟨_, rfl, hxl, hvl.le_iff hv⟩

/-! ## The way to the peak -/

theorem abs_sub_place (i : ℤ) : |p - place start p δ i| = |(|start - p| - i * δ)| := by
  unfold place toward
  grind

/-- How many steps it takes from some distance to within half a step of the peak. -/
def Nearest (d δ : ℤ) (k : ℕ) : Prop := IsLeast {k : ℕ | 2 * |d - k * δ| ≤ δ} k

theorem exists_nearest (d : ℤ) (hd : 0 ≤ d) (hδ : 1 ≤ δ) : ∃ k, Nearest d δ k := by
  have hdiv := Int.mul_ediv_add_emod d δ
  have hlow := Int.emod_nonneg d (show δ ≠ 0 by omega)
  have hhigh := Int.emod_lt_of_pos d (show 0 < δ by omega)
  obtain ⟨q, hq⟩ := Int.eq_ofNat_of_zero_le (Int.ediv_nonneg hd (show 0 ≤ δ by omega))
  rw [hq] at hdiv
  have hnear : 2 * |d - q * δ| ≤ δ ∨ 2 * |d - (q + 1 : ℕ) * δ| ≤ δ := by
    push_cast
    grind
  refine ⟨_, isLeast_csInf (s := {k : ℕ | 2 * |d - k * δ| ≤ δ}) ?_⟩
  rcases hnear with hnear | hnear
  · exact ⟨q, hnear⟩
  · exact ⟨q + 1, hnear⟩

/-- Before that many steps the peak is more than half a step ahead. -/
theorem Nearest.ahead {d : ℤ} (hk : Nearest d δ k) (hd : 0 ≤ d) (hδ : 1 ≤ δ) {i : ℕ} (hi : i < k) :
    δ < 2 * (d - i * δ) := by
  have hfar : ∀ i < k, δ < 2 * |d - i * δ| := by
    intro i hi
    by_contra hle
    exact absurd (hk.2 (not_lt.1 hle)) (Nat.not_le.2 hi)
  induction i with
  | zero =>
    have := hfar 0 hi
    grind
  | succ i ih =>
    have hbefore := ih (by omega)
    have hhere := hfar (i + 1) hi
    push_cast at hhere ⊢
    grind

theorem place_succ (i : ℕ) (h : 0 < |start - p| - i * δ) :
    place start p δ (i + 1) = place start p δ i + toward p δ (place start p δ i) := by
  unfold place toward
  rcases le_or_gt start p with hle | hgt
  · rw [if_pos hle, if_pos (by grind)]
    ring
  · rw [if_neg (not_le.2 hgt), if_neg (by grind)]
    ring

/-- Where a climb of some steps looks from one of its places. -/
theorem ExactUpTo.around (h : ExactUpTo start p δ k) {i : ℕ} (hi : i ≤ k) :
    ExactAt p (place start p δ i) ∧ ExactAt p (place start p δ i + δ) ∧
      ExactAt p (place start p δ i - δ) := by
  have hhere := h.exactAt i (by omega) (by omega)
  have hnext := h.exactAt (i + 1) (by omega) (by omega)
  have hlast := h.exactAt (i - 1) (by omega) (by omega)
  unfold place toward at hhere hnext hlast ⊢
  rw [add_mul, one_mul, ← add_assoc] at hnext
  rw [sub_mul, one_mul, ← add_sub_assoc] at hlast
  -- which neighbour is ahead depends on the side that the climb started from
  rcases le_or_gt start p with hle | hgt
  · rw [if_pos hle] at hhere hnext hlast ⊢
    exact ⟨hhere, hnext, hlast⟩
  · rw [if_neg (not_le.2 hgt)] at hhere hnext hlast ⊢
    rw [sub_neg_eq_add] at hlast
    exact ⟨hhere, hlast, hnext⟩

theorem exactUpTo_of_lt (hδ : 1 ≤ δ) (hk : Nearest |start - p| δ k)
    (h : |p| + |start - p| + δ < 2 ^ 53) : ExactUpTo start p δ k where
  peak := Double.representable_of_lt (by have := abs_nonneg (start - p); omega)
  exactAt i hlow hhigh := by
    have hd := abs_nonneg (start - p)
    have hfirst : -δ ≤ i * δ := by nlinarith
    have hlast : i * δ ≤ k * δ + δ := by nlinarith
    have hover : k * δ ≤ 2 * |start - p| := by
      have hnear : 2 * |(|start - p| - k * δ)| ≤ δ := hk.1
      rcases Nat.eq_zero_or_pos k with rfl | hpos
      · push_cast
        omega
      · have hfar := hk.ahead hd hδ hpos
        push_cast at hfar
        have := neg_abs_le (|start - p| - k * δ)
        omega
    refine exactAt_of_lt ?_
    rw [abs_sub_place]
    have hplace : |(|start - p| - i * δ)| ≤ |start - p| + δ := abs_le.2 ⟨by omega, by omega⟩
    omega

/-! ## The climb -/

/-- At the last of its places a climb stops. -/
theorem climb_stops (ht : t.Integral start p δ) (hδ : 1 ≤ δ) (hk : Nearest |start - p| δ k)
    (hexact : ExactUpTo start p δ k) (hx : x.Represents (place start p δ k)) (left steps : ℕ) :
    t.landscape.climb (left + 1) steps x (t.value x) = ⟨x, t.value x, steps, .localMaximum⟩ := by
  obtain ⟨hhere, hright, hleft⟩ := hexact.around le_rfl
  obtain ⟨next, hscan, -, hstop⟩ := represents_steepest ht hδ hexact.peak hx hhere hright hleft
  have hnear : 2 * |p - place start p δ k| ≤ δ := by
    rw [abs_sub_place]
    exact hk.1
  unfold Landscape.climb
  rw [hscan]
  dsimp only
  rw [if_pos (hstop.2 hnear)]

/-- At the others it goes on to the next one. -/
theorem climb_goesOn (ht : t.Integral start p δ) (hδ : 1 ≤ δ) (hk : Nearest |start - p| δ k)
    (hexact : ExactUpTo start p δ k) {i : ℕ} (hi : i < k) (hx : x.Represents (place start p δ i))
    (left steps : ℕ) :
    ∃ next, next.Represents (place start p δ (i + 1 : ℕ)) ∧
      t.landscape.climb (left + 1) steps x (t.value x) =
        t.landscape.climb left (steps + 1) next (t.value next) := by
  obtain ⟨hhere, hright, hleft⟩ := hexact.around hi.le
  obtain ⟨next, hscan, hnext, hstop⟩ :=
    represents_steepest ht hδ hexact.peak hx hhere hright hleft
  have hahead := hk.ahead (abs_nonneg _) hδ hi
  have hfar : ¬ 2 * |p - place start p δ i| ≤ δ := by
    rw [abs_sub_place, abs_of_pos (by omega)]
    omega
  rw [← place_succ i (by omega)] at hnext
  refine ⟨next, by exact_mod_cast hnext, ?_⟩
  conv_lhs => unfold Landscape.climb
  rw [hscan]
  dsimp only
  rw [if_neg (hstop.not.2 hfar)]

/-- From each of its places a climb comes to the last one after the steps that are left. -/
theorem climb_approaches (ht : t.Integral start p δ) (hδ : 1 ≤ δ) (hk : Nearest |start - p| δ k)
    (hexact : ExactUpTo start p δ k) (j : ℕ) : ∀ (i : ℕ) (x : Double) (left steps : ℕ),
      i + j = k → x.Represents (place start p δ i) → j < left →
      let out := t.landscape.climb left steps x (t.value x)
      out.termination = .localMaximum ∧ out.steps = steps + j ∧
        out.state.Represents (place start p δ k) ∧ out.value = t.value out.state := by
  induction j with
  | zero =>
    rintro i x (_ | left) steps rfl hx hleft
    · contradiction
    rw [climb_stops ht hδ hk hexact hx]
    exact ⟨rfl, rfl, hx, rfl⟩
  | succ j ih =>
    rintro i x (_ | left) steps hi hx hleft
    · contradiction
    obtain ⟨next, hnext, hclimb⟩ := climb_goesOn ht hδ hk hexact (by omega) hx left steps
    obtain ⟨hterm, hsteps, hstate, hvalue⟩ :=
      ih (i + 1) next left (steps + 1) (by omega) hnext (by omega)
    rw [hclimb]
    exact ⟨hterm, hsteps.trans (by omega), hstate, hvalue⟩

end Tent

/-- Where nothing is rounded, the climb of a tent of integers ends within half a step of the peak,
after the least number of steps that lead there; with steps of one it ends at the peak. -/
theorem tent_climbed (start p δ : ℤ) (hδ : 1 ≤ δ) :
    ∃ k, IsLeast {k : ℕ | 2 * |(|start - p| - k * δ)| ≤ δ} k ∧
      ∀ t : Tent Double, t.Integral start p δ → Tent.ExactUpTo start p δ k → ∀ maxSteps > k,
        let out := hillClimbing t.landscape ⟨maxSteps⟩
        out.termination = .localMaximum ∧ out.steps = k ∧
          (∃ x : ℤ, out.state.Represents x ∧ out.value.Represents (p - |p - x|) ∧
            2 * |x - p| ≤ δ ∧ δ ∣ x - start) ∧
          (δ = 1 → out.state.Represents p ∧ out.value.Represents p) := by
  obtain ⟨k, hk⟩ := Tent.exists_nearest |start - p| (abs_nonneg _) hδ
  refine ⟨k, hk, fun t ht hexact maxSteps hmax => ?_⟩
  have hstart : t.landscape.initial.Represents (Tent.place start p δ (0 : ℕ)) := by
    unfold Tent.place
    rw [Nat.cast_zero, zero_mul, add_zero]
    exact ht.initial
  obtain ⟨hterm, hsteps, hstate, hvalue⟩ :=
    Tent.climb_approaches ht hδ hk hexact k 0 _ maxSteps 0 (Nat.zero_add k) hstart hmax
  have hworth := Tent.represents_value ht hexact.peak hstate (hexact.around le_rfl).1
  rw [← hvalue] at hworth
  have hnear : 2 * |Tent.place start p δ k - p| ≤ δ := by
    rw [abs_sub_comm, Tent.abs_sub_place]
    exact hk.1
  refine ⟨hterm, hsteps.trans (Nat.zero_add k), ⟨_, hstate, hworth, hnear, ?_⟩, ?_⟩
  · unfold Tent.place Tent.toward
    rw [add_sub_cancel_left]
    split
    · exact dvd_mul_left δ _
    · exact Dvd.dvd.mul_left ((dvd_neg).2 dvd_rfl) _
  · rintro rfl
    have hthere : Tent.place start p 1 k = p := by grind
    rw [hthere] at hstate hworth
    rw [sub_self, abs_zero, sub_zero] at hworth
    exact ⟨hstate, hworth⟩

/-- A tent with its peak at fifteen, climbed from zero in steps of four. -/
def wideSteps : Tent Double := ⟨.ofNat 0, .ofNat 30, .ofNat 4⟩

theorem integral_wideSteps : wideSteps.Integral 0 15 4 where
  initial := Double.whole_ofNat (n := 0) (by decide)
  maximum := Double.whole_ofNat (n := 30) (by decide)
  delta := Double.whole_ofNat (n := 4) (by decide)

theorem wideSteps_climbed :
    let out := hillClimbing wideSteps.landscape ⟨100⟩
    out.termination = .localMaximum ∧ out.steps = 4 ∧ out.state.Represents 16 ∧
      out.value.Represents 14 := by
  obtain ⟨k, hk, hclimb⟩ := tent_climbed 0 15 4 (by decide)
  have hfour : Tent.Nearest |0 - 15| 4 4 := by
    refine ⟨by norm_num, fun i hi => ?_⟩
    have hnear : 2 * |(|0 - 15| - (i : ℤ) * 4)| ≤ 4 := hi
    grind
  obtain rfl : k = 4 := hk.unique hfour
  obtain ⟨hterm, hsteps, ⟨x, hstate, hvalue, hnear, hstep⟩, -⟩ :=
    hclimb wideSteps integral_wideSteps (Tent.exactUpTo_of_lt (by decide) hk (by norm_num)) 100
      (by decide)
  obtain rfl : x = 16 := by grind
  exact ⟨hterm, hsteps, hstate, hvalue⟩

end ProblemSolving
