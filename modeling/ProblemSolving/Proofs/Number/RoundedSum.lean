import ProblemSolving.Proofs.Number.Exact

/-!
# Rounded sums

* `roundDiv_mono`, `placeOfRatio_mono` : rounding keeps the order.
* `placeOfRatio_unitsAt` : a double is rounded to itself.
* `Double.le_add`, `Double.add_le_add_right` : sums of numbers that are not negative keep the order.
* `MonotoneScalar` : scalars of which this holds, though their sums may be rounded.
* `Double.Represents`, `Double.Representable` : the integers that doubles stand for.
* `Double.Represents.addsExactly` : the sum of integers is exact if it is a double.
* `Double.Whole.addsExactly`, `Double.WholeUpTo.addsExactly` : so sums of small whole numbers are not
  rounded.
-/

namespace ProblemSolving

/-- Scalars whose sums of numbers that are not negative keep the order, rounded or not. -/
class MonotoneScalar (κ : Type) [Scalar κ] : Prop where
  le_add {x y : κ} : Scalar.le 0 x = true → Scalar.le 0 y = true → Scalar.le x (x + y) = true
  add_le_add_right {x x' y : κ} : Scalar.le 0 x = true → Scalar.le x x' = true →
    Scalar.le 0 y = true → Scalar.le (x + y) (x' + y) = true

/-! ## Rounding a quotient -/

theorem div_le_roundDiv (num den : Nat) : num / den ≤ roundDiv .toEven num den := by
  unfold roundDiv
  cases compare (2 * (num % den)) den <;> simp only <;> omega

theorem roundDiv_le (num den : Nat) : roundDiv .toEven num den ≤ num / den + 1 := by
  unfold roundDiv
  cases compare (2 * (num % den)) den <;> simp only <;> omega

theorem roundDiv_of_eq_mul {num q den : Nat} (hden : 0 < den) (h : num = q * den) :
    roundDiv .toEven num den = q := by
  have hrest : compare (2 * (num % den)) den = .lt := by
    rw [h, Nat.mul_mod_left]
    exact Nat.compare_eq_lt.2 hden
  unfold roundDiv
  simp only [hrest]
  rw [h, Nat.mul_div_cancel q hden]

theorem roundDiv_mono (den : Nat) : Monotone fun num => roundDiv .toEven num den := by
  intro num num' hle
  show roundDiv .toEven num den ≤ roundDiv .toEven num' den
  have hquotients : num / den ≤ num' / den := Nat.div_le_div_right hle
  rcases Nat.lt_or_eq_of_le hquotients with hlt | heq
  · have hbelow := roundDiv_le num den
    have habove := div_le_roundDiv num' den
    omega
  · -- with one quotient, the greater number leaves the greater rest
    have hnum := Nat.div_add_mod num den
    have hnum' := Nat.div_add_mod num' den
    rw [← heq] at hnum'
    have hrests : num % den ≤ num' % den := by omega
    unfold roundDiv
    rw [← heq]
    cases h : compare (2 * (num % den)) den <;> cases h' : compare (2 * (num' % den)) den <;>
      simp only [Nat.compare_eq_lt, Nat.compare_eq_gt, Nat.compare_eq_eq] at h h' ⊢ <;> omega

namespace Double

/-! ## The nearest place -/

/-- The bits that rounding drops from a whole number of units. -/
def droppedBits (n : Nat) : Nat := n.log2 - 52

theorem placeOfRatio_eq (n : Nat) :
    placeOfRatio n 1 =
      droppedBits n * 2 ^ 52 + roundDiv .toEven n (2 ^ droppedBits n) := by
  unfold placeOfRatio droppedBits
  simp only [Nat.div_one, Nat.one_mul, Nat.pow_eq]

theorem lt_two_pow_droppedBits (n : Nat) : n < 2 ^ (droppedBits n + 53) := by
  have hbits : n.log2 < droppedBits n + 53 := by
    unfold droppedBits
    omega
  exact Nat.lt_of_lt_of_le Nat.lt_log2_self (Nat.pow_le_pow_right Nat.two_pos hbits)

theorem two_pow_le_of_droppedBits_pos {n : Nat} (h : 0 < droppedBits n) :
    2 ^ (droppedBits n + 52) ≤ n := by
  unfold droppedBits at h ⊢
  have hn : n ≠ 0 := by
    rintro rfl
    simp at h
  rw [show n.log2 - 52 + 52 = n.log2 by omega]
  exact Nat.log2_self_le hn

theorem droppedBits_mono : Monotone droppedBits := by
  intro n n' hle
  by_contra hlt
  have hpos : 0 < droppedBits n := by omega
  have hn := two_pow_le_of_droppedBits_pos hpos
  have hn' := lt_two_pow_droppedBits n'
  have hpow : 2 ^ (droppedBits n' + 53) ≤ 2 ^ (droppedBits n + 52) :=
    Nat.pow_le_pow_right Nat.two_pos (by omega)
  omega

theorem kept_le (n : Nat) : roundDiv .toEven n (2 ^ droppedBits n) ≤ 2 ^ 53 := by
  have hquotient : n / 2 ^ droppedBits n < 2 ^ 53 := by
    rw [Nat.div_lt_iff_lt_mul (Nat.two_pow_pos _), ← Nat.pow_add, Nat.add_comm]
    exact lt_two_pow_droppedBits n
  exact (roundDiv_le n _).trans hquotient

theorem le_kept {n : Nat} (h : 0 < droppedBits n) :
    2 ^ 52 ≤ roundDiv .toEven n (2 ^ droppedBits n) := by
  have hquotient : 2 ^ 52 ≤ n / 2 ^ droppedBits n := by
    rw [Nat.le_div_iff_mul_le (Nat.two_pow_pos _), ← Nat.pow_add, Nat.add_comm]
    exact two_pow_le_of_droppedBits_pos h
  exact hquotient.trans (div_le_roundDiv n _)

theorem placeOfRatio_mono : Monotone fun n => placeOfRatio n 1 := by
  intro n n' hle
  show placeOfRatio n 1 ≤ placeOfRatio n' 1
  rw [placeOfRatio_eq, placeOfRatio_eq]
  rcases Nat.lt_or_eq_of_le (droppedBits_mono hle) with hlt | heq
  · have hend := kept_le n
    have hstart := le_kept (n := n') (by omega)
    have hruns : (droppedBits n + 1) * 2 ^ 52 ≤ droppedBits n' * 2 ^ 52 :=
      Nat.mul_le_mul_right _ hlt
    omega
  · rw [heq]
    exact Nat.add_le_add_left (roundDiv_mono _ hle) _

/-! ## Numbers that are not rounded -/

theorem unitsAt_of_lt {place : Nat} (h : place < 2 ^ 52) : unitsAt place = place := by
  rw [unitsAt_eq, if_pos (Nat.div_eq_of_lt h)]

theorem unitsAt_run (d : Nat) {q : Nat} (hlow : 2 ^ 52 ≤ q) (hhigh : q < 2 ^ 53) :
    unitsAt (d * 2 ^ 52 + q) = q * 2 ^ d := by
  have hscale : (d * 2 ^ 52 + q) / 2 ^ 52 = d + 1 := by omega
  have hrest : (d * 2 ^ 52 + q) % 2 ^ 52 + 2 ^ 52 = q := by omega
  rw [unitsAt_eq, hscale, hrest, if_neg (Nat.succ_ne_zero d), Nat.add_sub_cancel]

/-- Where only zeros are dropped, the nearest place stands for the number itself. -/
theorem unitsAt_placeOfRatio {n : Nat} (h : 2 ^ droppedBits n ∣ n) :
    unitsAt (placeOfRatio n 1) = n := by
  obtain ⟨q, hq⟩ := h
  rw [Nat.mul_comm] at hq
  have hkept : roundDiv .toEven n (2 ^ droppedBits n) = q :=
    roundDiv_of_eq_mul (Nat.two_pow_pos _) hq
  have hhigh : q < 2 ^ 53 := by
    have hn := lt_two_pow_droppedBits n
    rw [Nat.add_comm, Nat.pow_add] at hn
    refine Nat.lt_of_mul_lt_mul_right (a := 2 ^ droppedBits n) ?_
    rwa [← hq]
  rw [placeOfRatio_eq, hkept]
  rcases Nat.eq_zero_or_pos (droppedBits n) with hzero | hsome
  · rw [hzero, Nat.pow_zero, Nat.mul_one] at hq
    rw [hzero, Nat.zero_mul, Nat.zero_add, ← hq]
    rcases Nat.lt_or_ge n (2 ^ 52) with hlt | hge
    · exact unitsAt_of_lt hlt
    · have hrun := unitsAt_run 0 hge (hq ▸ hhigh)
      rwa [Nat.zero_mul, Nat.zero_add, Nat.pow_zero, Nat.mul_one] at hrun
  · have hlow := le_kept hsome
    rw [hkept] at hlow
    rw [unitsAt_run _ hlow hhigh, ← hq]

theorem droppedBits_mul_le {m : Nat} (hm : m < 2 ^ 53) (e : Nat) :
    droppedBits (m * 2 ^ e) ≤ e := by
  by_contra hlt
  have hlow := two_pow_le_of_droppedBits_pos (n := m * 2 ^ e) (by omega)
  have hhigh : m * 2 ^ e < 2 ^ 53 * 2 ^ e := Nat.mul_lt_mul_of_pos_right hm (Nat.two_pow_pos e)
  have hpow : 2 ^ (53 + e) ≤ 2 ^ (droppedBits (m * 2 ^ e) + 52) :=
    Nat.pow_le_pow_right Nat.two_pos (by omega)
  rw [← Nat.pow_add] at hhigh
  omega

theorem unitsAt_placeOfRatio_mul {m : Nat} (hm : m < 2 ^ 53) (e : Nat) :
    unitsAt (placeOfRatio (m * 2 ^ e) 1) = m * 2 ^ e :=
  unitsAt_placeOfRatio <|
    (Nat.pow_dvd_pow 2 (droppedBits_mul_le hm e)).trans (Nat.dvd_mul_left _ m)

/-- The number that a place stands for is rounded to that place. -/
theorem placeOfRatio_unitsAt (place : Nat) : placeOfRatio (unitsAt place) 1 = place := by
  apply unitsAt_strictMono.injective
  rw [unitsAt_eq place]
  split
  next hfirst =>
    have hself := unitsAt_placeOfRatio_mul (m := place) (by omega) 0
    rw [Nat.pow_zero, Nat.mul_one] at hself
    exact hself
  next hlater =>
    exact unitsAt_placeOfRatio_mul (by omega) _

/-! ## Sums -/

theorem isNaN_of_isInfinite {x : Double} (h : x.isInfinite = true) : x.isNaN = false := by
  simp [isInfinite, isNaN] at h ⊢
  omega

theorem isFinite_iff {x : Double} :
    x.isFinite = true ↔ x.isNaN = false ∧ x.isInfinite = false := by
  simp [isFinite, isNaN, isInfinite]
  omega

/-- The sum of finite doubles is the sum of their units, rounded once. -/
theorem add_of_isFinite {x y : Double} (hx : x.isFinite = true) (hy : y.isFinite = true) :
    x + y = if x.units + y.units = 0 then ⟨x.negative && y.negative, 0, by decide⟩
      else ofUnits (x.units + y.units) := by
  obtain ⟨hxn, hxi⟩ := isFinite_iff.1 hx
  obtain ⟨hyn, hyi⟩ := isFinite_iff.1 hy
  show x.add y = _
  unfold add
  simp only [hxn, hyn, hxi, hyi, Bool.false_eq_true, if_false]

theorem add_of_isInfinite_left {x y : Double} (hx : x.isInfinite = true) (hy : y.isNaN = false)
    (hsign : y.isInfinite = true → y.negative = x.negative) : x + y = x := by
  have hsame : (y.isInfinite && x.negative != y.negative) = false := by
    cases hyi : y.isInfinite with
    | false => rfl
    | true => simp [hsign hyi]
  show x.add y = x
  unfold add
  simp only [isNaN_of_isInfinite hx, hy, hx, hsame, Bool.false_eq_true, if_false, if_true]

theorem add_of_isInfinite_right {x y : Double} (hx : x.isFinite = true)
    (hy : y.isInfinite = true) : x + y = y := by
  obtain ⟨hxn, hxi⟩ := isFinite_iff.1 hx
  show x.add y = y
  unfold add
  simp only [hxn, hxi, isNaN_of_isInfinite hy, hy, Bool.false_eq_true, if_false, if_true]

/-! ## Sums of numbers that are not negative -/

theorem nonneg_iff {x : Double} :
    Scalar.le 0 x = true ↔ x.isNaN = false ∧ (x.negative = true → x.magnitude = 0) := by
  have hzero : Scalar.le 0 x = true ↔ x.isNaN = false ∧ 0 ≤ x.signedMagnitude := by
    show zero.le x = true ↔ _
    rw [le_iff]
    simp [isNaN, zero, signedMagnitude]
  rw [hzero]
  obtain ⟨_ | _, m, _⟩ := x <;> simp [signedMagnitude]

theorem signedMagnitude_of_nonneg {x : Double} (h : Scalar.le 0 x = true) :
    x.signedMagnitude = x.magnitude := by
  obtain ⟨-, hzero⟩ := nonneg_iff.1 h
  unfold signedMagnitude
  split
  next hneg => simp [hzero hneg]
  next => rfl

theorem units_of_nonneg {x : Double} (h : Scalar.le 0 x = true) : x.units = x.absUnits := by
  obtain ⟨-, hzero⟩ := nonneg_iff.1 h
  unfold units absUnits
  split
  next hneg => simp [hzero hneg, unitsAt_zero]
  next => rfl

theorem eq_infinity {x : Double} (h : Scalar.le 0 x = true) (hx : x.isInfinite = true) :
    x = infinity := by
  obtain ⟨-, hzero⟩ := nonneg_iff.1 h
  obtain ⟨_ | _, m, _⟩ := x
  · simp [isInfinite] at hx
    simp [infinity, hx]
  · simp [isInfinite] at hx hzero
    rw [hzero] at hx
    contradiction

theorem ofUnits_natCast (n : Nat) :
    (ofUnits n).signedMagnitude = (min (placeOfRatio n 1) infinityMagnitude : Nat) := by
  have hsign : decide ((n : Int) < 0) = false := decide_eq_false (by omega)
  unfold ofUnits ofRatio signedMagnitude
  simp only [hsign, Int.natAbs_natCast, Bool.false_eq_true, if_false]

theorem isNaN_ofRatio (negative : Bool) (num den : Nat) :
    (ofRatio negative num den).isNaN = false :=
  decide_eq_false (Nat.not_lt.2 (Nat.min_le_right _ _))

theorem isNaN_ofUnits (u : Int) : (ofUnits u).isNaN = false := isNaN_ofRatio _ _ _

theorem min_placeOfRatio_of_le {n : Nat} (h : unitsAt infinityMagnitude ≤ n) :
    min (placeOfRatio n 1) infinityMagnitude = infinityMagnitude := by
  have hplace : placeOfRatio (unitsAt infinityMagnitude) 1 ≤ placeOfRatio n 1 :=
    placeOfRatio_mono h
  rw [placeOfRatio_unitsAt] at hplace
  exact Nat.min_eq_right hplace

/-- The sum of numbers that are not negative is the place nearest to the sum of their units; from
infinity on, infinity. -/
theorem add_of_nonneg {x y : Double} (hx : Scalar.le 0 x = true) (hy : Scalar.le 0 y = true) :
    (x + y).isNaN = false ∧
      (x + y).signedMagnitude =
        (min (placeOfRatio (x.absUnits + y.absUnits) 1) infinityMagnitude : Nat) := by
  have hxn := (nonneg_iff.1 hx).1
  have hyn := (nonneg_iff.1 hy).1
  have hinfinity : infinity.absUnits = unitsAt infinityMagnitude := rfl
  rcases Bool.eq_false_or_eq_true x.isInfinite with hxi | hxi
  · obtain rfl := eq_infinity hx hxi
    rw [add_of_isInfinite_left hxi hyn fun hyi => by rw [eq_infinity hy hyi],
      min_placeOfRatio_of_le (by omega)]
    exact ⟨hxn, rfl⟩
  have hxf := isFinite_iff.2 ⟨hxn, hxi⟩
  rcases Bool.eq_false_or_eq_true y.isInfinite with hyi | hyi
  · obtain rfl := eq_infinity hy hyi
    rw [add_of_isInfinite_right hxf hyi, min_placeOfRatio_of_le (by omega)]
    exact ⟨hyn, rfl⟩
  have hyf := isFinite_iff.2 ⟨hyn, hyi⟩
  rw [add_of_isFinite hxf hyf, units_of_nonneg hx, units_of_nonneg hy, ← Int.natCast_add]
  split
  next hzero =>
    have hplace := placeOfRatio_unitsAt 0
    rw [unitsAt_zero] at hplace
    rw [Int.natCast_eq_zero.1 hzero, hplace]
    refine ⟨rfl, ?_⟩
    simp [signedMagnitude]
  next hsome => exact ⟨isNaN_ofUnits _, ofUnits_natCast _⟩

theorem absUnits_le {x y : Double} (hx : Scalar.le 0 x = true) (h : Scalar.le x y = true) :
    x.absUnits ≤ y.absUnits := by
  have hy : Scalar.le 0 y = true := OrderedScalar.le_trans hx h
  obtain ⟨-, -, hmag⟩ := le_iff.1 h
  rw [← units_le_iff, units_of_nonneg hx, units_of_nonneg hy] at hmag
  exact Int.ofNat_le.1 hmag

/-- Adding what is not negative lowers no cost, though the sum is rounded. -/
theorem le_add {x y : Double} (hx : Scalar.le 0 x = true) (hy : Scalar.le 0 y = true) :
    Scalar.le x (x + y) = true := by
  obtain ⟨hnumber, hsum⟩ := add_of_nonneg hx hy
  have hxn := (nonneg_iff.1 hx).1
  refine le_iff.2 ⟨hxn, hnumber, ?_⟩
  rw [hsum, signedMagnitude_of_nonneg hx, Int.ofNat_le]
  have hplace : placeOfRatio (unitsAt x.magnitude) 1 ≤ placeOfRatio (x.absUnits + y.absUnits) 1 :=
    placeOfRatio_mono (Nat.le_add_right x.absUnits y.absUnits)
  have hbound : x.magnitude ≤ infinityMagnitude := by
    simp [isNaN] at hxn
    exact hxn
  rw [placeOfRatio_unitsAt] at hplace
  exact Nat.le_min.2 ⟨hplace, hbound⟩

/-- A dearer path stays dearer when both grow by one step. -/
theorem add_le_add_right {x x' y : Double} (hx : Scalar.le 0 x = true)
    (h : Scalar.le x x' = true) (hy : Scalar.le 0 y = true) :
    Scalar.le (x + y) (x' + y) = true := by
  obtain ⟨hnumber, hsum⟩ := add_of_nonneg hx hy
  obtain ⟨hnumber', hsum'⟩ := add_of_nonneg (OrderedScalar.le_trans hx h) hy
  refine le_iff.2 ⟨hnumber, hnumber', ?_⟩
  rw [hsum, hsum', Int.ofNat_le]
  exact min_le_min_right _ (placeOfRatio_mono (Nat.add_le_add_right (absUnits_le hx h) _))

instance instMonotoneScalar : MonotoneScalar Double where
  le_add := le_add
  add_le_add_right := add_le_add_right

/-! ## Sums that are not rounded -/

theorem natAbs_units (x : Double) : x.units.natAbs = x.absUnits := by
  unfold units
  split
  · rw [Int.natAbs_neg, Int.natAbs_natCast]
  · rw [Int.natAbs_natCast]

theorem units_ofUnits {u : Int} (h : (ofUnits u).absUnits = u.natAbs) : (ofUnits u).units = u := by
  have hneg : (ofUnits u).negative = decide (u < 0) := rfl
  unfold units
  rw [h, hneg]
  by_cases hsign : u < 0
  · simp only [hsign, decide_true, if_true]
    omega
  · simp only [hsign, decide_false, Bool.false_eq_true, if_false]
    omega

theorem magnitude_ofUnits_units {x : Double} (hx : x.isFinite = true) :
    (ofUnits x.units).magnitude = x.magnitude := by
  show min (placeOfRatio x.units.natAbs 1) infinityMagnitude = x.magnitude
  rw [natAbs_units, absUnits, placeOfRatio_unitsAt]
  simp [isFinite] at hx
  omega

theorem ofUnits_units {x : Double} (hx : x.isFinite = true) :
    (ofUnits x.units).isFinite = true ∧ (ofUnits x.units).units = x.units := by
  have hmag := magnitude_ofUnits_units hx
  refine ⟨?_, units_ofUnits ?_⟩
  · unfold isFinite at hx ⊢
    rwa [hmag]
  · rw [natAbs_units, absUnits, hmag, absUnits]

theorem addsExactly_of_units {x y z : Double} (hx : x.isFinite = true) (hy : y.isFinite = true)
    (hz : z.isFinite = true) (h : z.units = x.units + y.units) : AddsExactly x y := by
  have hsum : (x + y).isFinite = true ∧ (x + y).units = x.units + y.units := by
    rw [add_of_isFinite hx hy]
    split
    next hzero =>
      rw [hzero]
      cases x.negative && y.negative <;> decide
    next =>
      rw [← h]
      exact ofUnits_units hz
  refine ⟨hx, hy, hsum.1, ?_⟩
  show (x + y).value = x.value + y.value
  unfold value
  rw [hsum.2, Int.cast_add, add_div]

theorem units_eq_zero_iff {x : Double} : x.units = 0 ↔ x.magnitude = 0 := by
  rw [← Int.natAbs_eq_zero, natAbs_units, absUnits, ← unitsAt_zero]
  exact unitsAt_strictMono.injective.eq_iff

theorem ofUnits_units_eq {x : Double} (hx : x.isFinite = true) (hne : x.units ≠ 0) :
    ofUnits x.units = x := by
  have hmagnitude := magnitude_ofUnits_units hx
  have habs := natAbs_units x
  have hsign : (ofUnits x.units).negative = x.negative := by
    show decide (x.units < 0) = x.negative
    obtain ⟨_ | _, m, hm⟩ := x
    · have hunits : units ⟨false, m, hm⟩ = (absUnits ⟨false, m, hm⟩ : Int) := rfl
      exact decide_eq_false (by omega)
    · have hunits : units ⟨true, m, hm⟩ = -(absUnits ⟨true, m, hm⟩ : Int) := rfl
      exact decide_eq_true (by omega)
  generalize ofUnits x.units = y at hsign hmagnitude
  obtain ⟨_, _, _⟩ := y
  cases hsign
  cases hmagnitude
  rfl

theorem add_eq_left {x z : Double} (hx : x ≠ -0) (hz : z.magnitude = 0) : x + z = x := by
  have hzf : z.isFinite = true := by
    unfold isFinite
    rw [hz]
    decide
  obtain ⟨hzn, hzi⟩ := isFinite_iff.1 hzf
  cases hxn : x.isNaN with
  | true =>
    show x.add z = x
    rw [add, if_pos hxn]
  | false =>
  cases hxi : x.isInfinite with
  | true =>
    refine add_of_isInfinite_left hxi hzn fun hinfinite => ?_
    rw [hzi] at hinfinite
    contradiction
  | false =>
  have hxf := isFinite_iff.2 ⟨hxn, hxi⟩
  rw [add_of_isFinite hxf hzf, units_eq_zero_iff.2 hz, Int.add_zero]
  split
  next hzero =>
    obtain ⟨sign, m, hm⟩ := x
    obtain rfl : m = 0 := units_eq_zero_iff.1 hzero
    cases sign with
    | true => exact absurd rfl hx
    | false => rfl
  next hne => exact ofUnits_units_eq hxf hne

/-- A number of units is a double if it has at most 53 bits before its zeros. -/
theorem units_ofUnits_mul {k : Int} (hk : k.natAbs < 2 ^ 53) {e : Nat} (he : e < 2045) :
    (ofUnits (k * (2 ^ e : Nat))).isFinite = true ∧
      (ofUnits (k * (2 ^ e : Nat))).units = k * (2 ^ e : Nat) := by
  have habs : (k * (2 ^ e : Nat)).natAbs = k.natAbs * 2 ^ e := by
    rw [Int.natAbs_mul, Int.natAbs_natCast]
  have hplace : placeOfRatio (k.natAbs * 2 ^ e) 1 < infinityMagnitude := by
    have hbits := droppedBits_mul_le hk e
    have hkept := kept_le (k.natAbs * 2 ^ e)
    rw [placeOfRatio_eq]
    unfold infinityMagnitude
    omega
  have hmag : (ofUnits (k * (2 ^ e : Nat))).magnitude = placeOfRatio (k.natAbs * 2 ^ e) 1 := by
    show min (placeOfRatio (k * (2 ^ e : Nat)).natAbs 1) infinityMagnitude = _
    rw [habs]
    exact Nat.min_eq_left hplace.le
  refine ⟨?_, units_ofUnits ?_⟩
  · unfold isFinite
    rw [hmag]
    exact decide_eq_true hplace
  · rw [absUnits, hmag, habs]
    exact unitsAt_placeOfRatio_mul hk e

theorem units_ofUnits_whole {k : Int} (hk : k.natAbs < 2 ^ 53) :
    (ofUnits (k * unitsPerOne)).isFinite = true ∧
      (ofUnits (k * unitsPerOne)).units = k * unitsPerOne := by
  obtain ⟨e, he, hunit⟩ : ∃ e, e < 2045 ∧ unitsPerOne = 2 ^ e :=
    ⟨1074, by decide, by decide +kernel⟩
  rw [hunit]
  exact units_ofUnits_mul hk he

/-- A finite double that stands for this integer. -/
def Represents (x : Double) (n : ℤ) : Prop := x.isFinite = true ∧ x.value = n

/-- An integer that a double stands for. -/
def Representable (n : ℤ) : Prop := ∃ x : Double, x.Represents n

section
variable {x y : Double} {m n : ℤ}

theorem represents_iff : x.Represents n ↔ x.isFinite = true ∧ x.units = n * unitsPerOne := by
  unfold Represents value
  rw [div_eq_iff unitsPerOne_pos.ne']
  exact and_congr_right fun _ => ⟨fun h => by exact_mod_cast h, fun h => by exact_mod_cast h⟩

theorem representable_of_lt (h : |n| < 2 ^ 53) : Representable n := by
  rw [Int.abs_eq_natAbs] at h
  exact ⟨ofUnits (n * unitsPerOne), represents_iff.2 (units_ofUnits_whole (by omega))⟩

/-- The sum of integers is exact if it is a double. -/
theorem Represents.addsExactly (hx : x.Represents m) (hy : y.Represents n)
    (h : Representable (m + n)) : AddsExactly x y := by
  obtain ⟨z, hz⟩ := h
  refine addsExactly_of_units hx.1 hy.1 hz.1 ?_
  rw [(represents_iff.1 hz).2, (represents_iff.1 hx).2, (represents_iff.1 hy).2, add_mul]

theorem Represents.add (hx : x.Represents m) (hy : y.Represents n) (h : Representable (m + n)) :
    (x + y).Represents (m + n) := by
  have hexact := hx.addsExactly hy h
  have hvalue : (x + y).value = x.value + y.value := hexact.value_add
  exact ⟨hexact.sum, by rw [hvalue, hx.2, hy.2, Int.cast_add]⟩

theorem Represents.le_iff (hx : x.Represents m) (hy : y.Represents n) :
    Scalar.le x y = true ↔ m ≤ n := by
  have hle := MeasuredScalar.le_iff (κ := Double) hx.1 hy.1
  change _ ↔ x.value ≤ y.value at hle
  rw [hle, hx.2, hy.2, Int.cast_le]

theorem Represents.lt_iff (hx : x.Represents m) (hy : y.Represents n) :
    Scalar.lt x y = true ↔ m < n := by
  have hlt := MeasuredScalar.lt_iff (κ := Double) hx.1 hy.1
  change _ ↔ x.value < y.value at hlt
  rw [hlt, hx.2, hy.2, Int.cast_lt]

end

/-- A finite double that stands for this natural number. -/
def Whole (n : Nat) (x : Double) : Prop := x.isFinite = true ∧ x.value = n

theorem whole_zero : Whole 0 0 :=
  ⟨MeasuredScalar.isFinite_zero (κ := Double),
    (MeasuredScalar.value_zero (κ := Double)).trans Nat.cast_zero.symm⟩

section
variable {x y : Double} {m n : Nat}

theorem whole_iff : Whole n x ↔ x.Represents n := by
  unfold Whole Represents
  rw [Int.cast_natCast]

theorem whole_ofNat (h : n < 2 ^ 53) : Whole n (ofNat n) := by
  have hunits := units_ofUnits_whole (k := n) (by omega)
  have heq : ofUnits (n * unitsPerOne) = ofNat n := by
    have hsign : decide ((n : Int) * unitsPerOne < 0) = false :=
      decide_eq_false (Int.not_lt.2 (Int.mul_nonneg (Int.natCast_nonneg n) (Int.natCast_nonneg _)))
    unfold ofUnits ofNat
    rw [hsign, Int.natAbs_mul, Int.natAbs_natCast, Int.natAbs_natCast]
  rw [heq] at hunits
  exact whole_iff.2 (represents_iff.2 hunits)

theorem Whole.units (hx : Whole n x) : x.units = n * unitsPerOne :=
  (represents_iff.1 (whole_iff.1 hx)).2

/-- The sum of whole numbers is exact as long as it has at most 53 bits. -/
theorem Whole.addsExactly (hx : Whole m x) (hy : Whole n y) (h : m + n < 2 ^ 53) :
    AddsExactly x y :=
  (whole_iff.1 hx).addsExactly (whole_iff.1 hy) <| representable_of_lt <| by
    rw [Int.abs_eq_natAbs]
    omega

theorem Whole.add (hx : Whole m x) (hy : Whole n y) (h : m + n < 2 ^ 53) : Whole (m + n) (x + y) := by
  have hexact := hx.addsExactly hy h
  have hvalue : (x + y).value = x.value + y.value := hexact.value_add
  exact ⟨hexact.sum, by rw [hvalue, hx.2, hy.2, Nat.cast_add]⟩

theorem Whole.le_iff (hx : Whole m x) (hy : Whole n y) : Scalar.le x y = true ↔ m ≤ n :=
  ((whole_iff.1 hx).le_iff (whole_iff.1 hy)).trans Int.ofNat_le

theorem Whole.lt_iff (hx : Whole m x) (hy : Whole n y) : Scalar.lt x y = true ↔ m < n :=
  ((whole_iff.1 hx).lt_iff (whole_iff.1 hy)).trans Int.ofNat_lt

/-- A finite double that stands for a whole number from zero to a bound. -/
def WholeUpTo (bound : Nat) (x : Double) : Prop :=
  x.isFinite = true ∧ ∃ n : Nat, n ≤ bound ∧ x.value = n

theorem wholeUpTo_iff {bound : Nat} : x.WholeUpTo bound ↔ ∃ n ≤ bound, Whole n x := by
  unfold WholeUpTo Whole
  constructor
  · rintro ⟨hfinite, n, hn, hvalue⟩
    exact ⟨n, hn, hfinite, hvalue⟩
  · rintro ⟨n, hn, hfinite, hvalue⟩
    exact ⟨hfinite, n, hn, hvalue⟩

theorem WholeUpTo.mono {bound bound' : Nat} (h : x.WholeUpTo bound) (hle : bound ≤ bound') :
    x.WholeUpTo bound' := by
  obtain ⟨n, hn, hx⟩ := wholeUpTo_iff.1 h
  exact wholeUpTo_iff.2 ⟨n, hn.trans hle, hx⟩

theorem wholeUpTo_zero : WholeUpTo 0 0 := wholeUpTo_iff.2 ⟨0, le_rfl, whole_zero⟩

theorem WholeUpTo.addsExactly (hx : x.WholeUpTo m) (hy : y.WholeUpTo n) (h : m + n < 2 ^ 53) :
    AddsExactly x y := by
  obtain ⟨k, hk, hx⟩ := wholeUpTo_iff.1 hx
  obtain ⟨l, hl, hy⟩ := wholeUpTo_iff.1 hy
  exact hx.addsExactly hy (by omega)

theorem WholeUpTo.add (hx : x.WholeUpTo m) (hy : y.WholeUpTo n) (h : m + n < 2 ^ 53) :
    (x + y).WholeUpTo (m + n) := by
  obtain ⟨k, hk, hx⟩ := wholeUpTo_iff.1 hx
  obtain ⟨l, hl, hy⟩ := wholeUpTo_iff.1 hy
  exact wholeUpTo_iff.2 ⟨k + l, Nat.add_le_add hk hl, hx.add hy (by omega)⟩

end

end Double

/-! ## Rationals -/

instance : MonotoneScalar ℚ where
  le_add {x y} _ hy := by
    have hnonneg : 0 ≤ y := of_decide_eq_true hy
    exact decide_eq_true (by linarith)
  add_le_add_right {x x' y} _ h _ := by
    have hle : x ≤ x' := of_decide_eq_true h
    exact decide_eq_true (by linarith)

end ProblemSolving
