import Mathlib.Algebra.Order.Archimedean.Basic
import Mathlib.Algebra.Order.Field.Power
import Mathlib.Tactic.FieldSimp
import Mathlib.Tactic.Linarith
import Mathlib.Tactic.Positivity
import Mathlib.Tactic.Ring
import ProblemSolving.Number.Decimal
import ProblemSolving.Proofs.Number.Exact

/-!
# The shortest decimal of a double

* `Decimal.value` : the number that a decimal stands for.
* `Double.Reads` : a number lies between the midpoints to the neighbours of a place.
* `Double.Reads.unique` : no number lies so at two places.
* `Double.unitsAt_succ_le` : the neighbours of a place are not too near, compared to the place.
* `Double.exists_onGrid?` : with seventeen digits there is always a decimal that reads as the double.
* `Double.reads_shortest` : so the shortest decimal of a finite double reads as it.
* `Double.magnitude_eq_of_shortest` : two doubles of one shortest value have one magnitude.
-/

namespace ProblemSolving

/-- The number that a decimal stands for. -/
def Decimal.value (d : Decimal) : ℚ := d.coefficient * 10 ^ d.exponent

theorem Decimal.value_trim (d : Decimal) : d.trim.value = d.value := by
  fun_induction Decimal.trim d with
  | case1 d h ih =>
    obtain ⟨-, hzero⟩ := h
    have hten : d.coefficient = 10 * (d.coefficient / 10) := by omega
    have hcoefficient : (d.coefficient : ℚ) = 10 * (d.coefficient / 10 : Nat) := by
      exact_mod_cast hten
    rw [ih]
    unfold Decimal.value
    rw [hcoefficient, zpow_add_one₀ (by norm_num)]
    ring
  | case2 d h => rfl

theorem roundDiv_cases (tie : Tie) (num den : Nat) :
    roundDiv tie num den = num / den ∧ 2 * (num % den) ≤ den ∨
      roundDiv tie num den = num / den + 1 ∧ den ≤ 2 * (num % den) := by
  unfold roundDiv
  dsimp only
  split
  next h => exact .inl ⟨rfl, (Nat.compare_eq_lt.1 h).le⟩
  next h => exact .inr ⟨rfl, (Nat.compare_eq_gt.1 h).le⟩
  next h =>
    have hhalf : 2 * (num % den) = den := Nat.compare_eq_eq.1 h
    cases tie with
    | away => exact .inr ⟨rfl, hhalf.ge⟩
    | toEven =>
      rcases Nat.mod_two_eq_zero_or_one (num / den) with heven | hodd
      · exact .inl ⟨by dsimp only; rw [heven, Nat.add_zero], hhalf.le⟩
      · exact .inr ⟨by dsimp only; rw [hodd], hhalf.ge⟩

theorem abs_roundDiv_sub_le (tie : Tie) (num : Nat) {den : Nat} (hden : 0 < den) :
    |(roundDiv tie num den : ℚ) - num / den| ≤ 1 / 2 := by
  have hpos : (0 : ℚ) < den := Nat.cast_pos.2 hden
  have hsplit : (num : ℚ) / den = (num / den : Nat) + (num % den : Nat) / den := by
    rw [eq_comm, ← sub_eq_zero]
    have hnum : (den : ℚ) * (num / den : Nat) + (num % den : Nat) = num := by
      exact_mod_cast Nat.div_add_mod num den
    field_simp
    linarith
  rw [hsplit, abs_le]
  rcases roundDiv_cases tie num den with ⟨hdown, hhalf⟩ | ⟨hup, hhalf⟩
  · have hrest : ((num % den : Nat) : ℚ) / den ≤ 1 / 2 := by
      rw [div_le_div_iff₀ hpos two_pos]
      exact_mod_cast (by omega : num % den * 2 ≤ 1 * den)
    have hnonneg : (0 : ℚ) ≤ ((num % den : Nat) : ℚ) / den := by positivity
    rw [hdown]
    constructor <;> linarith
  · have hrest : 1 / 2 ≤ ((num % den : Nat) : ℚ) / den := by
      rw [div_le_div_iff₀ two_pos hpos]
      exact_mod_cast (by omega : 1 * den ≤ num % den * 2)
    have hone : ((num % den : Nat) : ℚ) / den ≤ 1 := by
      rw [div_le_one hpos]
      exact_mod_cast (Nat.mod_lt num hden).le
    rw [hup]
    push_cast
    constructor <;> linarith

namespace Double

/-! ## Between the neighbours -/

/-- The number that the double at a place stands for. -/
def placeValue (place : Nat) : ℚ := unitsAt place / unitsPerOne

theorem placeValue_strictMono : StrictMono placeValue := by
  intro m n h
  exact div_lt_div_of_pos_right (Nat.cast_lt.2 (unitsAt_strictMono h)) unitsPerOne_pos

/-- The midpoint between a place and the one before. -/
def lower (place : Nat) : ℚ := (placeValue (place - 1) + placeValue place) / 2

/-- The midpoint between a place and the one after. -/
def upper (place : Nat) : ℚ := (placeValue place + placeValue (place + 1)) / 2

/-- A number lies between the midpoints to the neighbours of a place, and may be one of them if the
place is even. -/
def Reads (place : Nat) (v : ℚ) : Prop :=
  lower place ≤ v ∧ v ≤ upper place ∧ (place % 2 = 1 → lower place < v ∧ v < upper place)

theorem upper_le_lower {m n : Nat} (h : m < n) : upper m ≤ lower n := by
  have hm : placeValue m ≤ placeValue (n - 1) := placeValue_strictMono.monotone (by omega)
  have hn : placeValue (m + 1) ≤ placeValue n := placeValue_strictMono.monotone (by omega)
  unfold upper lower
  linarith

theorem upper_lt_lower {m n : Nat} (h : m + 1 < n) : upper m < lower n := by
  have hm : placeValue m < placeValue (n - 1) := placeValue_strictMono (by omega)
  have hn : placeValue (m + 1) < placeValue n := placeValue_strictMono h
  unfold upper lower
  linarith

/-- No number reads as two places: a midpoint belongs to the even one. -/
theorem Reads.not_lt {m n : Nat} {v : ℚ} (hm : Reads m v) (hn : Reads n v) : ¬ m < n := by
  intro hlt
  obtain ⟨-, hbelow, hodd⟩ := hm
  obtain ⟨habove, -, hodd'⟩ := hn
  have hmid := upper_le_lower hlt
  rcases Nat.lt_or_ge (m + 1) n with hfar | hnext
  · have := upper_lt_lower hfar
    linarith
  · obtain rfl : n = m + 1 := by omega
    rcases Nat.mod_two_eq_zero_or_one m with heven | hm'
    · have := (hodd' (by omega)).1
      linarith
    · have := (hodd hm').2
      linarith

theorem Reads.unique {m n : Nat} {v : ℚ} (hm : Reads m v) (hn : Reads n v) : m = n :=
  Nat.le_antisymm (Nat.le_of_not_lt (hn.not_lt hm)) (Nat.le_of_not_lt (hm.not_lt hn))

theorem reads_zero : Reads 0 0 := by
  have hzero : placeValue 0 = 0 := by
    unfold placeValue
    rw [unitsAt_zero, Nat.cast_zero, zero_div]
  have hone : 0 < placeValue 1 := hzero ▸ placeValue_strictMono Nat.zero_lt_one
  refine ⟨?_, ?_, by simp⟩
  · simp [lower, hzero]
  · unfold upper
    rw [hzero, Nat.zero_add]
    linarith

/-- A number reads as a place if it is nearer to it than half of either neighbour. -/
theorem reads_of_near {place : Nat} {v d : ℚ} (hv : |v - placeValue place| ≤ d / 2)
    (hlow : d < placeValue place - placeValue (place - 1))
    (hhigh : d < placeValue (place + 1) - placeValue place) : Reads place v := by
  obtain ⟨hbelow, habove⟩ := abs_le.1 hv
  have hl : lower place < v := by
    unfold lower
    linarith
  have hu : v < upper place := by
    unfold upper
    linarith
  exact ⟨hl.le, hu.le, fun _ => ⟨hl, hu⟩⟩

/-! ## Scaled units -/

theorem scaled_snd (units units' : Nat) (exponent : Int) :
    (scaled units exponent).2 = (scaled units' exponent).2 := by
  cases exponent <;> rfl

theorem scaled_ofNat (units e : Nat) :
    scaled units (.ofNat e) = (units, unitsPerOne * 10 ^ e) := rfl

theorem scaled_negSucc (units e : Nat) :
    scaled units (.negSucc e) = (units * 10 ^ (e + 1), unitsPerOne) := rfl

theorem scaled_snd_pos (units : Nat) (exponent : Int) : 0 < (scaled units exponent).2 := by
  have hone : 0 < unitsPerOne := Nat.cast_pos.1 unitsPerOne_pos
  cases exponent with
  | ofNat e =>
    have hten : 0 < 10 ^ e := Nat.pow_pos (by decide)
    rw [scaled_ofNat]
    dsimp only
    positivity
  | negSucc e =>
    rw [scaled_negSucc]
    dsimp only
    exact hone

theorem scaled_fst (units : Nat) (exponent : Int) :
    ((scaled units exponent).1 : ℚ) =
      units / unitsPerOne / 10 ^ exponent * (scaled units exponent).2 := by
  have hone := unitsPerOne_pos.ne'
  cases exponent with
  | ofNat e =>
    rw [scaled_ofNat, Int.ofNat_eq_natCast, zpow_natCast]
    push_cast
    field_simp
  | negSucc e =>
    rw [scaled_negSucc, zpow_negSucc]
    push_cast
    field_simp

theorem scaled_fst_div (units : Nat) (exponent : Int) :
    ((scaled units exponent).1 : ℚ) / (scaled units exponent).2 =
      units / unitsPerOne / 10 ^ exponent := by
  have hpos : ((scaled units exponent).2 : ℚ) ≠ 0 := (Nat.cast_pos.2 (scaled_snd_pos ..)).ne'
  rw [scaled_fst, mul_div_cancel_right₀ _ hpos]

theorem scaled_le_iff (units k : Nat) (exponent : Int) :
    (scaled units exponent).1 ≤ k * (scaled units exponent).2 ↔
      (units : ℚ) / unitsPerOne ≤ k * 10 ^ exponent := by
  have hpos : (0 : ℚ) < (scaled units exponent).2 := Nat.cast_pos.2 (scaled_snd_pos ..)
  have hten : (0 : ℚ) < 10 ^ exponent := zpow_pos (by norm_num) _
  rw [← Nat.cast_le (α := ℚ), Nat.cast_mul, scaled_fst, mul_le_mul_iff_of_pos_right hpos,
    div_le_iff₀ hten]

theorem le_scaled_iff (units k : Nat) (exponent : Int) :
    k * (scaled units exponent).2 ≤ (scaled units exponent).1 ↔
      (k : ℚ) * 10 ^ exponent ≤ units / unitsPerOne := by
  have hpos : (0 : ℚ) < (scaled units exponent).2 := Nat.cast_pos.2 (scaled_snd_pos ..)
  have hten : (0 : ℚ) < 10 ^ exponent := zpow_pos (by norm_num) _
  rw [← Nat.cast_le (α := ℚ), Nat.cast_mul, scaled_fst, mul_le_mul_iff_of_pos_right hpos,
    le_div_iff₀ hten]

theorem midpoint_eq (m n : Nat) :
    ((unitsAt m + unitsAt n : Nat) : ℚ) / unitsPerOne = 2 * ((placeValue m + placeValue n) / 2) := by
  unfold placeValue
  push_cast
  ring

theorem reads_iff (place coefficient : Nat) (exponent : Int) :
    reads place coefficient exponent = true ↔ Reads place (Decimal.value ⟨coefficient, exponent⟩) := by
  obtain ⟨low, hlow⟩ : ∃ low, low = unitsAt (place - 1) + unitsAt place := ⟨_, rfl⟩
  obtain ⟨high, hhigh⟩ : ∃ high, high = unitsAt place + unitsAt (place + 1) := ⟨_, rfl⟩
  have hl : (low : ℚ) / unitsPerOne = 2 * lower place := hlow ▸ midpoint_eq _ _
  have hh : (high : ℚ) / unitsPerOne = 2 * upper place := hhigh ▸ midpoint_eq _ _
  have hvalue : ((2 * coefficient : Nat) : ℚ) * 10 ^ exponent =
      2 * Decimal.value ⟨coefficient, exponent⟩ := by
    unfold Decimal.value
    push_cast
    ring
  have hlowle := scaled_le_iff low (2 * coefficient) exponent
  have hlelow := le_scaled_iff low (2 * coefficient) exponent
  have hhighle := scaled_le_iff high (2 * coefficient) exponent
  have hlehigh := le_scaled_iff high (2 * coefficient) exponent
  rw [hvalue] at hlowle hlelow hhighle hlehigh
  rw [hl, mul_le_mul_iff_of_pos_left two_pos] at hlowle hlelow
  rw [hh, mul_le_mul_iff_of_pos_left two_pos] at hhighle hlehigh
  rw [scaled_snd high low] at hhighle hlehigh
  unfold reads Reads
  dsimp only
  rw [← hlow, ← hhigh]
  rcases Nat.mod_two_eq_zero_or_one place with heven | hodd
  · rw [if_pos heven, Bool.and_eq_true, decide_eq_true_eq, decide_eq_true_eq, hlowle, hlehigh]
    simp [heven]
  · rw [if_neg (by omega), Bool.and_eq_true, decide_eq_true_eq, decide_eq_true_eq, ← not_le, ← not_le,
      hlelow, hhighle, not_le, not_le]
    exact ⟨fun h => ⟨h.1.le, h.2.le, fun _ => h⟩, fun h => h.2.2 hodd⟩

/-! ## The spacing of the places -/

/-- A place has fifty-three digits, so it is no more than so many times its distance from the place
before. -/
theorem unitsAt_succ_le (place : Nat) :
    unitsAt (place + 1) ≤ 2 ^ 53 * (unitsAt (place + 1) - unitsAt place) := by
  rw [unitsAt_eq, unitsAt_eq]
  by_cases hrun : (place + 1) / 2 ^ 52 = place / 2 ^ 52
  · have hmod : (place + 1) % 2 ^ 52 = place % 2 ^ 52 + 1 := by omega
    rw [hrun, hmod]
    split
    · omega
    · have hgap : (place % 2 ^ 52 + 1 + 2 ^ 52) * 2 ^ (place / 2 ^ 52 - 1) -
          (place % 2 ^ 52 + 2 ^ 52) * 2 ^ (place / 2 ^ 52 - 1) = 2 ^ (place / 2 ^ 52 - 1) := by
        rw [← Nat.sub_mul, Nat.add_right_comm, Nat.add_sub_cancel_left, Nat.one_mul]
      rw [hgap]
      exact Nat.mul_le_mul_right _ (by omega)
  · obtain ⟨scale, hscale⟩ : ∃ scale, place / 2 ^ 52 = scale := ⟨_, rfl⟩
    have hnext : (place + 1) / 2 ^ 52 = scale + 1 := by omega
    have hlast : place % 2 ^ 52 = 2 ^ 52 - 1 := by omega
    have hfirst : (place + 1) % 2 ^ 52 = 0 := by omega
    rw [hscale, hnext, hfirst, hlast]
    cases scale with
    | zero => simp; omega
    | succ n =>
      simp only [Nat.succ_ne_zero, if_false, Nat.add_sub_cancel, pow_succ]
      omega

theorem placeValue_succ_le (place : Nat) :
    placeValue (place + 1) ≤ 2 ^ 53 * (placeValue (place + 1) - placeValue place) := by
  have hle : unitsAt place ≤ unitsAt (place + 1) := (unitsAt_strictMono place.lt_succ_self).le
  have hunits : ((unitsAt (place + 1) : Nat) : ℚ) ≤
      2 ^ 53 * (unitsAt (place + 1) - unitsAt place) := by
    have hcast := unitsAt_succ_le place
    rw [← Nat.cast_le (α := ℚ)] at hcast
    push_cast [hle] at hcast
    exact hcast
  unfold placeValue
  rw [← sub_div, ← mul_div_assoc]
  exact div_le_div_of_nonneg_right hunits unitsPerOne_pos.le

/-! ## The leading digit -/

theorem pow_leadingExponent_le {n : Nat} (hn : 0 < n) : 10 ^ leadingExponent n ≤ n := by
  fun_induction leadingExponent n with
  | case1 n h => exact hn
  | case2 n h ih =>
    have hquotient : 10 ^ leadingExponent (n / 10) ≤ n / 10 := ih (by omega)
    rw [pow_succ]
    omega

theorem le_leadingZeros {num den bound : Nat} (h : den ≤ num * 10 ^ bound) :
    den ≤ num * 10 ^ leadingZeros num den bound := by
  induction bound generalizing num with
  | zero => exact h
  | succ bound ih =>
    unfold leadingZeros
    split
    next hle => rwa [pow_zero, Nat.mul_one]
    next =>
      have hten : den ≤ num * 10 * 10 ^ bound := by rwa [Nat.mul_assoc, ← Nat.pow_succ']
      rw [Nat.pow_succ', ← Nat.mul_assoc]
      exact ih hten

theorem unitsPerOne_le : unitsPerOne ≤ 10 ^ decimalBound := by decide +kernel

theorem pow_decimalExponent_le {x : Double} (hx : x.magnitude ≠ 0) :
    (10 : ℚ) ^ x.decimalExponent ≤ placeValue x.magnitude := by
  have hone := unitsPerOne_pos
  have hpos : 0 < x.absUnits := by
    have hlt := unitsAt_strictMono (Nat.pos_of_ne_zero hx)
    rwa [unitsAt_zero] at hlt
  show _ ≤ (x.absUnits : ℚ) / unitsPerOne
  unfold decimalExponent
  rw [le_div_iff₀ hone]
  split
  next hle =>
    have hquotient : 0 < x.absUnits / unitsPerOne := Nat.div_pos hle (Nat.cast_pos.1 hone)
    have hpow := Nat.mul_le_mul_right unitsPerOne (pow_leadingExponent_le hquotient)
    rw [zpow_natCast]
    exact_mod_cast hpow.trans (Nat.div_mul_le_self ..)
  next =>
    have hbound : unitsPerOne ≤ x.absUnits * 10 ^ decimalBound :=
      unitsPerOne_le.trans (Nat.le_mul_of_pos_left _ hpos)
    have hzeros : (unitsPerOne : ℚ) ≤
        x.absUnits * 10 ^ leadingZeros x.absUnits unitsPerOne decimalBound := by
      exact_mod_cast le_leadingZeros hbound
    rw [zpow_neg, zpow_natCast, inv_mul_le_iff₀ (by positivity), mul_comm]
    exact hzeros

/-! ## Seventeen digits -/

/-- A hit on a grid reads as the place. -/
theorem reads_of_onGrid? {tie : Tie} {place : Nat} {exponent : Int} {d : Decimal}
    (h : onGrid? tie place exponent = some d) : Reads place d.value := by
  unfold onGrid? at h
  dsimp only at h
  split at h
  next hreads =>
    cases h
    exact (reads_iff ..).1 hreads
  split at h
  all_goals
    split at h
    next hreads =>
      cases h
      exact (reads_iff ..).1 hreads
    next => cases h

/-- A grid that is finer than the distances to both neighbours has a hit. -/
theorem exists_onGrid?_of_fine (tie : Tie) {place : Nat} {exponent : Int}
    (hlow : (10 : ℚ) ^ exponent < placeValue place - placeValue (place - 1))
    (hhigh : (10 : ℚ) ^ exponent < placeValue (place + 1) - placeValue place) :
    ∃ d, onGrid? tie place exponent = some d := by
  obtain ⟨nearest, hnearest⟩ : ∃ nearest, nearest =
      roundDiv tie (scaled (unitsAt place) exponent).1 (scaled (unitsAt place) exponent).2 := ⟨_, rfl⟩
  have hten : (0 : ℚ) < 10 ^ exponent := zpow_pos (by norm_num) _
  have hhalf := abs_roundDiv_sub_le tie (scaled (unitsAt place) exponent).1
    (scaled_snd_pos (unitsAt place) exponent)
  rw [scaled_fst_div, ← hnearest] at hhalf
  have hnear : |Decimal.value ⟨nearest, exponent⟩ - placeValue place| ≤ 10 ^ exponent / 2 := by
    have hscaled := mul_le_mul_of_nonneg_right hhalf hten.le
    rw [← abs_of_pos hten, ← abs_mul, abs_of_pos hten, sub_mul, div_mul_cancel₀ _ hten.ne'] at hscaled
    unfold Decimal.value placeValue
    linarith
  have hreads := (reads_iff ..).2 (reads_of_near hnear hlow hhigh)
  refine ⟨⟨nearest, exponent⟩, ?_⟩
  unfold onGrid?
  dsimp only
  rw [← hnearest, if_pos hreads]

/-- With seventeen digits there is a hit. -/
theorem exists_onGrid? (tie : Tie) {x : Double} (hx : x.magnitude ≠ 0) :
    ∃ d, onGrid? tie x.magnitude (x.decimalExponent - (16 : Nat)) = some d := by
  obtain ⟨place, hplace⟩ := Nat.exists_eq_succ_of_ne_zero hx
  have hleading := pow_decimalExponent_le hx
  have hbefore := placeValue_succ_le place
  have hafter := placeValue_succ_le (place + 1)
  have hle : placeValue (place + 1) ≤ placeValue (place + 2) :=
    placeValue_strictMono.monotone (Nat.le_succ _)
  have hpos : (0 : ℚ) < 10 ^ x.decimalExponent := zpow_pos (by norm_num) _
  have hfine : (10 : ℚ) ^ (x.decimalExponent - (16 : Nat)) = 10 ^ x.decimalExponent / 10 ^ 16 := by
    rw [zpow_sub₀ (by norm_num), zpow_natCast]
  rw [hplace] at hleading ⊢
  apply exists_onGrid?_of_fine
  · rw [hfine, Nat.succ_eq_add_one, Nat.add_sub_cancel, div_lt_iff₀ (by norm_num)]
    linarith
  · rw [hfine, Nat.succ_eq_add_one, div_lt_iff₀ (by norm_num)]
    linarith

/-- If the last grid has a hit, the first hit reads as the place. -/
theorem reads_shortestFrom {tie : Tie} {place : Nat} {leading : Int} {digits more : Nat} {last : Decimal}
    (h : onGrid? tie place (leading - (digits + more : Nat)) = some last) :
    Reads place (shortestFrom tie place leading digits (more + 1)).value := by
  induction more generalizing digits with
  | zero =>
    have hlast : onGrid? tie place (leading - digits) = some last := h
    rw [shortestFrom, hlast]
    dsimp only
    rw [Decimal.value_trim]
    exact reads_of_onGrid? h
  | succ more ih =>
    rw [shortestFrom]
    split
    next d hd =>
      rw [Decimal.value_trim]
      exact reads_of_onGrid? hd
    next =>
      apply ih
      rwa [Nat.add_right_comm]

/-- **The shortest decimal of a double reads as the double.** -/
theorem reads_shortest (tie : Tie) (x : Double) : Reads x.magnitude (x.shortest tie).value := by
  unfold shortest
  split
  next hzero =>
    rw [hzero]
    simpa [Decimal.value] using reads_zero
  next hx =>
    obtain ⟨last, hlast⟩ := exists_onGrid? tie hx
    exact reads_shortestFrom hlast

theorem exponent_shortest {tie : Tie} {x : Double} (h : (x.shortest tie).coefficient = 0) :
    (x.shortest tie).exponent = 0 := by
  have hvalue : (x.shortest tie).value = 0 := by
    unfold Decimal.value
    rw [h, Nat.cast_zero, zero_mul]
  have hreads := reads_shortest tie x
  rw [hvalue] at hreads
  have hzero : x.magnitude = 0 := hreads.unique reads_zero
  unfold shortest
  rw [if_pos hzero]

/-- Doubles whose shortest decimals are equal numbers have the same magnitude. -/
theorem magnitude_eq_of_shortest {tie : Tie} {x y : Double}
    (h : (x.shortest tie).value = (y.shortest tie).value) : x.magnitude = y.magnitude := by
  have hx := reads_shortest tie x
  rw [h] at hx
  exact hx.unique (reads_shortest tie y)

end Double

end ProblemSolving
