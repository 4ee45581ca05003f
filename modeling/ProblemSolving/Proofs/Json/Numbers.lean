import Mathlib.Data.List.Basic
import Mathlib.Tactic.FieldSimp
import Mathlib.Tactic.IntervalCases
import Mathlib.Tactic.Ring
import ProblemSolving.Json.Reader
import ProblemSolving.Proofs.Number.RoundedSum
import ProblemSolving.Proofs.Number.Shortest

/-!
# Numbers in documents are read back

* `digits_append` : a run of digits is read as its number.
* `Literal.value` : the number that a literal stands for.
* `literal?_plain`, `literal?_pointed` : literals without and with a point.
* `literal?_text` : the text of a decimal is read as the decimal.
* `literal?_ofNat` : that of a natural number is read as the number.
* `Double.text_injective` : so finite doubles have different texts.
* `isAtomChar_of_literal?` : a literal has no characters but those of words and numbers.
-/

namespace ProblemSolving

/-! ## Texts as characters -/

theorem toList_pushn (s : String) (c : Char) (n : Nat) :
    (s.pushn c n).toList = s.toList ++ List.replicate n c := by
  rw [String.pushn_eq_repeat_push]
  induction n with
  | zero => simp [Nat.repeat]
  | succ n ih => rw [Nat.repeat, String.toList_push, ih, List.replicate_succ', List.append_assoc]

/-- The digits with as many zeros before them as the places need. -/
def padded (digits : String) (places : Nat) : List Char :=
  List.replicate (places + 1 - digits.length) '0' ++ digits.toList

theorem length_padded (digits : String) (places : Nat) :
    (padded digits places).length = max digits.length (places + 1) := by
  rw [padded, List.length_append, List.length_replicate, String.length_toList]
  omega

theorem toList_withPoint (digits : String) (places : Nat) :
    (withPoint digits places).toList =
      (padded digits places).take ((padded digits places).length - places) ++
        '.' :: (padded digits places).drop ((padded digits places).length - places) := by
  obtain ⟨text, htext⟩ : ∃ text, text = "".pushn '0' (places + 1 - digits.length) ++ digits :=
    ⟨_, rfl⟩
  have hpadded : text.toList = padded digits places := by
    rw [htext, String.toList_append, toList_pushn, padded]
    rfl
  unfold withPoint
  rw [← htext, ← hpadded]
  simp [← String.length_toList]

theorem head?_toDigits {n : Nat} (hn : 0 < n) : (Nat.toDigits 10 n).head? ≠ some '0' := by
  induction n using Nat.strongRecOn with
  | _ n ih =>
    rcases Nat.lt_or_ge n 10 with hlt | hge
    · rw [Nat.toDigits_of_lt_base hlt]
      interval_cases n <;> decide
    · rw [Nat.toDigits_of_base_le (by decide) hge,
        List.head?_append_of_ne_nil _ Nat.toDigits_ne_nil]
      exact ih (n / 10) (by omega) (by omega)

namespace Json

/-! ## Runs of digits -/

/-- A run of digits is read as its number, up to what is no digit. -/
theorem digits_append {run rest : List Char} (hrun : ∀ c ∈ run, c.isDigit = true)
    (hrest : ∀ c ∈ rest.head?, c.isDigit = false) (value count : Nat) :
    digits (run ++ rest) value count =
      (Nat.ofDigitChars 10 run value, count + run.length, rest) := by
  induction run generalizing value count with
  | nil =>
    cases rest with
    | nil => simp [digits]
    | cons c rest =>
      have hc : c.isDigit = false := hrest c rfl
      simp [digits, hc]
  | cons c run ih =>
    have hc : c.isDigit = true := hrun c (List.mem_cons_self ..)
    have hlater := ih (fun c' hc' => hrun c' (List.mem_cons_of_mem _ hc'))
      (10 * value + (c.toNat - '0'.toNat)) (count + 1)
    rw [List.cons_append, digits, if_pos hc, hlater, Nat.ofDigitChars_cons, List.length_cons]
    simp only [Prod.mk.injEq, and_true, true_and]
    omega

theorem isDigit_toDigits (n : Nat) : ∀ c ∈ Nat.toDigits 10 n, c.isDigit = true :=
  fun _ hc => Nat.isDigit_of_mem_toDigits (by decide) (by decide) hc

theorem digits_toDigits (n : Nat) :
    digits (Nat.toDigits 10 n) 0 0 = (n, (Nat.toDigits 10 n).length, []) := by
  have hread : digits (Nat.toDigits 10 n ++ []) 0 0 = _ :=
    digits_append (isDigit_toDigits n) (by simp) 0 0
  rwa [List.append_nil, Nat.ofDigitChars_ten_toDigits, Nat.zero_add] at hread

/-! ## Literals -/

/-- The number that a literal stands for. -/
def Literal.value (l : Literal) : ℚ := l.coefficient * 10 ^ l.exponent

/-- The sign as it is written. -/
def signChars (negative : Bool) : List Char := if negative then ['-'] else []

/-- The digits after a point go on with the number, and count as its places. -/
def afterPoint (value : Nat) (rest : List Char) : Nat × Nat × List Char :=
  match rest with
  | '.' :: fraction => digits fraction value 0
  | _ => (value, 0, rest)

theorem afterPoint_of_ne (value : Nat) {rest : List Char} (h : rest.head? ≠ some '.') :
    afterPoint value rest = (value, 0, rest) := by
  unfold afterPoint
  split
  · exact absurd rfl h
  · rfl

/-- The literal of a text after its sign. -/
def unsigned? (negative : Bool) (body : List Char) : Option Literal :=
  let (value, count, rest) := digits body 0 0
  if count = 0 || (count > 1 && body.head? == some '0') then none
  else
    let (value, places, rest) := afterPoint value rest
    let pointed := body.contains '.'
    if pointed && places = 0 then none
    else (exponentPart? rest).map fun power =>
      ⟨negative, value, power.getD 0 - places, !pointed && power.isNone⟩

theorem literal?_signed (negative : Bool) (body : List Char)
    (hbody : negative = false → body.head? ≠ some '-') :
    literal? (signChars negative ++ body) = unsigned? negative body := by
  cases negative with
  | true =>
    have hpoint : ('-' :: body).contains '.' = body.contains '.' := by simp
    show literal? ('-' :: body) = _
    unfold literal? unsigned?
    rw [hpoint]
    rfl
  | false =>
    show literal? body = _
    unfold literal? unsigned?
    split
    next hsign =>
      split at hsign
      · exact absurd rfl (hbody rfl)
      · cases hsign
        rfl

section
variable {negative : Bool} {whole rest : List Char} {power : Option Int}

/-- A number of these digits is written without a superfluous zero. -/
structure WellWritten (whole : List Char) : Prop where
  digits : ∀ c ∈ whole, c.isDigit = true
  nonempty : whole ≠ []
  noZero : 1 < whole.length → whole.head? ≠ some '0'

theorem WellWritten.check (h : WellWritten whole) (rest : List Char) :
    (decide (0 + whole.length = 0) ||
      (decide (0 + whole.length > 1) && (whole ++ rest).head? == some '0')) = false := by
  have hlength : 0 < whole.length := List.length_pos_iff.2 h.nonempty
  rw [List.head?_append_of_ne_nil _ h.nonempty]
  rcases Nat.lt_or_ge 1 whole.length with hlong | hshort
  · simp [h.noZero hlong, h.nonempty]
  · simp [h.nonempty]
    omega

theorem WellWritten.head? (h : WellWritten whole) (rest : List Char) :
    (whole ++ rest).head? ≠ some '-' := by
  obtain ⟨c, others, rfl⟩ := List.exists_cons_of_ne_nil h.nonempty
  intro hc
  have hdigit := h.digits c (List.mem_cons_self ..)
  rw [Option.some.inj hc] at hdigit
  exact absurd hdigit (by decide)

/-- A number without a point. -/
theorem literal?_plain (negative : Bool) (h : WellWritten whole) (hpoint : '.' ∉ rest)
    (hrest : ∀ c ∈ rest.head?, c.isDigit = false) (hpower : exponentPart? rest = some power) :
    literal? (signChars negative ++ (whole ++ rest)) =
      some ⟨negative, Nat.ofDigitChars 10 whole 0, power.getD 0, power.isNone⟩ := by
  have hread := digits_append h.digits hrest 0 0
  have hnone : (whole ++ rest).contains '.' = false := by
    rw [List.contains_eq_mem, decide_eq_false_iff_not, List.mem_append]
    rintro (hwhole | hmem)
    · exact absurd (h.digits _ hwhole) (by decide)
    · exact hpoint hmem
  have hafter : afterPoint (Nat.ofDigitChars 10 whole 0) rest =
      (Nat.ofDigitChars 10 whole 0, 0, rest) :=
    afterPoint_of_ne _ fun hhead => hpoint (List.mem_of_mem_head? hhead)
  rw [literal?_signed negative _ fun _ => h.head? rest]
  unfold unsigned?
  rw [hread]
  dsimp only
  rw [h.check, if_neg Bool.false_ne_true, hnone, hafter, hpower]
  simp

/-- A number with a point. -/
theorem literal?_pointed (negative : Bool) (h : WellWritten whole) {fraction : List Char}
    (hfraction : ∀ c ∈ fraction, c.isDigit = true) (hne : fraction ≠ [])
    (hrest : ∀ c ∈ rest.head?, c.isDigit = false) (hpower : exponentPart? rest = some power) :
    literal? (signChars negative ++ (whole ++ '.' :: (fraction ++ rest))) =
      some ⟨negative, Nat.ofDigitChars 10 (whole ++ fraction) 0,
        power.getD 0 - fraction.length, false⟩ := by
  have hread : digits (whole ++ '.' :: (fraction ++ rest)) 0 0 = _ :=
    digits_append h.digits (by simp) 0 0
  have hlater := digits_append hfraction hrest (Nat.ofDigitChars 10 whole 0) 0
  have hafter : afterPoint (Nat.ofDigitChars 10 whole 0) ('.' :: (fraction ++ rest)) = _ := hlater
  have hpoint : (whole ++ '.' :: (fraction ++ rest)).contains '.' = true := by simp
  rw [literal?_signed negative _ fun _ => h.head? _]
  unfold unsigned?
  rw [hread]
  dsimp only
  rw [h.check, if_neg Bool.false_ne_true, hpoint, hafter]
  dsimp only
  rw [hpower, ← Nat.ofDigitChars_append]
  simp [hne]

end

/-! ## The texts of decimals -/

/-- The digits of an exponent are read with its sign. -/
def power? (sign : Int) (ds : List Char) : Option (Option Int) :=
  match digits ds 0 0 with
  | (_, 0, _) => none
  | (value, _, []) => some (some (sign * value))
  | _ => none

theorem power?_toDigits (sign : Int) (n : Nat) :
    power? sign (Nat.toDigits 10 n) = some (some (sign * n)) := by
  obtain ⟨count, hcount⟩ : ∃ count, (Nat.toDigits 10 n).length = count + 1 :=
    Nat.exists_eq_succ_of_ne_zero (by simp [Nat.toDigits_ne_nil])
  unfold power?
  rw [digits_toDigits, hcount]
  rfl

/-- The exponent as it is written. -/
def exponentChars (leading : Int) : List Char :=
  'e' :: (if leading < 0 then '-' else '+') :: Nat.toDigits 10 leading.natAbs

theorem exponentPart?_exponentChars (leading : Int) :
    exponentPart? (exponentChars leading) = some (some leading) := by
  unfold exponentChars
  split
  next hneg =>
    show power? (-1) (Nat.toDigits 10 leading.natAbs) = _
    rw [power?_toDigits]
    congr 2
    omega
  next hpos =>
    show power? 1 (Nat.toDigits 10 leading.natAbs) = _
    rw [power?_toDigits]
    congr 2
    omega

theorem not_mem_exponentChars (leading : Int) : '.' ∉ exponentChars leading := by
  have hdigits : '.' ∉ Nat.toDigits 10 leading.natAbs :=
    fun hmem => absurd (isDigit_toDigits _ _ hmem) (by decide)
  unfold exponentChars
  split <;> simp [hdigits]

theorem head?_exponentChars (leading : Int) :
    ∀ c ∈ (exponentChars leading).head?, c.isDigit = false := by
  rintro c ⟨⟩
  decide

theorem wellWritten_toDigits (n : Nat) : WellWritten (Nat.toDigits 10 n) where
  digits := isDigit_toDigits n
  nonempty := Nat.toDigits_ne_nil
  noZero hlong := by
    apply head?_toDigits
    by_contra hzero
    obtain rfl : n = 0 := by omega
    simp at hlong

theorem toList_toString (n : Nat) : (toString n).toList = Nat.toDigits 10 n := by
  rw [Nat.toString_eq_ofList_toDigits, String.toList_ofList]

theorem isDigit_padded (n places : Nat) : ∀ c ∈ padded (toString n) places, c.isDigit = true := by
  intro c hc
  rw [padded, toList_toString] at hc
  rcases List.mem_append.1 hc with hzero | hdigit
  · rw [List.eq_of_mem_replicate hzero]
    decide
  · exact isDigit_toDigits n c hdigit

theorem ofDigitChars_padded (n places : Nat) :
    Nat.ofDigitChars 10 (padded (toString n) places) 0 = n := by
  rw [padded, toList_toString, Nat.ofDigitChars_append, Nat.ofDigitChars_replicate_zero, Nat.mul_zero,
    Nat.ofDigitChars_ten_toDigits]

theorem wellWritten_padded (n places : Nat) :
    WellWritten ((padded (toString n) places).take
      ((padded (toString n) places).length - places)) where
  digits c hc := isDigit_padded n places c (List.mem_of_mem_take hc)
  nonempty := by
    have hlength := length_padded (toString n) places
    apply List.ne_nil_of_length_pos
    rw [List.length_take]
    omega
  noZero hlong := by
    have hlength := length_padded (toString n) places
    rw [List.length_take] at hlong
    have hdigits : (toString n).length = (Nat.toDigits 10 n).length := by
      rw [← toList_toString, String.length_toList]
    have hnone : places + 1 - (toString n).length = 0 := by omega
    have hbare : padded (toString n) places = Nat.toDigits 10 n := by
      rw [padded, hnone, toList_toString]
      rfl
    rw [hbare] at hlong ⊢
    rw [List.head?_take, if_neg (by omega)]
    exact (wellWritten_toDigits n).noZero (by omega)

/-- Digits with a point are read with as many places. -/
theorem literal?_withPoint (negative : Bool) (n : Nat) {places : Nat} (hplaces : 0 < places)
    {rest : List Char} {power : Option Int} (hrest : ∀ c ∈ rest.head?, c.isDigit = false)
    (hpower : exponentPart? rest = some power) :
    literal? (signChars negative ++ ((withPoint (toString n) places).toList ++ rest)) =
      some ⟨negative, n, power.getD 0 - places, false⟩ := by
  have hlength := length_padded (toString n) places
  have hfraction : ((padded (toString n) places).drop
      ((padded (toString n) places).length - places)).length = places := by
    rw [List.length_drop]
    omega
  rw [toList_withPoint, List.append_assoc, List.cons_append,
    literal?_pointed negative (wellWritten_padded n places) ?_ ?_ hrest hpower,
    List.take_append_drop, ofDigitChars_padded, hfraction]
  · exact fun c hc => isDigit_padded n places c (List.mem_of_mem_drop hc)
  · exact List.ne_nil_of_length_pos (by rwa [hfraction])

theorem toList_scientific (mantissa : String) (leading : Int) :
    (mantissa ++ "e" ++ (if leading < 0 then "-" else "+") ++ toString leading.natAbs).toList =
      mantissa.toList ++ exponentChars leading := by
  rw [String.toList_append, String.toList_append, String.toList_append, toList_toString]
  unfold exponentChars
  split <;> simp

/-- A whole number with zeros behind it, and a fraction of one zero. -/
theorem literal?_whole (negative : Bool) {n : Nat} (e : Nat) (hn : n = 0 → e = 0) :
    literal? (signChars negative ++ ((toString n).pushn '0' e ++ ".0").toList) =
      some ⟨negative, 10 * (10 ^ e * n), -1, false⟩ := by
  have hwhole : WellWritten (Nat.toDigits 10 n ++ List.replicate e '0') := by
    constructor
    case digits =>
      intro c hc
      rcases List.mem_append.1 hc with hdigit | hzero
      · exact isDigit_toDigits n c hdigit
      · rw [List.eq_of_mem_replicate hzero]
        decide
    case nonempty => exact List.append_ne_nil_of_left_ne_nil Nat.toDigits_ne_nil _
    case noZero =>
      intro hlong
      rw [List.head?_append_of_ne_nil _ Nat.toDigits_ne_nil]
      apply head?_toDigits
      by_contra hzero
      obtain rfl : n = 0 := by omega
      simp [hn rfl] at hlong
  have htext : ((toString n).pushn '0' e ++ ".0").toList =
      Nat.toDigits 10 n ++ List.replicate e '0' ++ '.' :: (['0'] ++ []) := by
    rw [String.toList_append, toList_pushn, toList_toString]
    rfl
  rw [htext, literal?_pointed negative hwhole (by simp) (by simp) (by simp) rfl,
    Nat.ofDigitChars_append, Nat.ofDigitChars_append, Nat.ofDigitChars_ten_toDigits,
    Nat.ofDigitChars_replicate_zero, Nat.ofDigitChars_cons, Nat.ofDigitChars_nil]
  rfl

/-- The text of a decimal is read as the decimal. -/
theorem literal?_text (negative : Bool) {d : Decimal} (hd : d.coefficient = 0 → d.exponent = 0) :
    ∃ l, literal? (signChars negative ++ (d.text numberLayout).toList) = some l ∧
      l.negative = negative ∧ l.value = d.value := by
  obtain ⟨n, exponent⟩ := d
  have hlength : (toString n).length = (Nat.toDigits 10 n).length := by
    rw [← toList_toString, String.length_toList]
  have hpositive : 0 < (Nat.toDigits 10 n).length := List.length_pos_iff.2 Nat.toDigits_ne_nil
  unfold Decimal.text Decimal.value Literal.value
  dsimp only
  split
  next =>
    cases exponent with
    | ofNat e =>
      refine ⟨_, literal?_whole negative e fun hn => Int.ofNat.inj (hd hn), rfl, ?_⟩
      rw [Int.ofNat_eq_natCast, zpow_natCast, zpow_neg_one]
      push_cast
      field_simp
    | negSucc e =>
      have hread : literal? (_ ++ (_ ++ [])) = _ :=
        literal?_withPoint negative n (Nat.succ_pos e) (by simp) rfl
      rw [List.append_nil] at hread
      refine ⟨_, hread, rfl, ?_⟩
      dsimp only [Option.getD_none]
      congr 2
  next =>
    rw [toList_scientific]
    split
    next hone =>
      rw [toList_toString]
      refine ⟨_, literal?_plain negative (wellWritten_toDigits n) (not_mem_exponentChars _)
        (head?_exponentChars _) (exponentPart?_exponentChars _), rfl, ?_⟩
      dsimp only [Option.getD_some]
      rw [Nat.ofDigitChars_ten_toDigits, hone]
      congr 2
      omega
    next hmany =>
      refine ⟨_, literal?_withPoint negative n (by omega) (head?_exponentChars _)
        (exponentPart?_exponentChars _), rfl, ?_⟩
      dsimp only [Option.getD_some]
      congr 2
      omega

/-- A natural number is read back. -/
theorem literal?_ofNat (n : Nat) : literal? (toString n).toList = some ⟨false, n, 0, true⟩ := by
  have hread : literal? (_ ++ (_ ++ [])) = _ :=
    literal?_plain false (wellWritten_toDigits n) (by simp) (by simp) rfl
  rw [List.append_nil, Nat.ofDigitChars_ten_toDigits] at hread
  rw [toList_toString]
  exact hread

/-! ## The characters of literals -/

theorem isAtomChar_of_isDigit {c : Char} (h : c.isDigit = true) : isAtomChar c = true := by
  unfold isAtomChar Char.isAlphanum
  simp [h]

theorem digits_eq_append {cs rest : List Char} {value count value' count' : Nat}
    (h : digits cs value count = (value', count', rest)) :
    ∃ run, cs = run ++ rest ∧ ∀ c ∈ run, isAtomChar c = true := by
  induction cs generalizing value count with
  | nil =>
    cases h
    exact ⟨[], rfl, by simp⟩
  | cons c cs ih =>
    unfold digits at h
    split at h
    next hdigit =>
      obtain ⟨run, hcs, hrun⟩ := ih h
      refine ⟨c :: run, congrArg (c :: ·) hcs, ?_⟩
      intro c' hc'
      rcases List.mem_cons.1 hc' with rfl | hmem
      · exact isAtomChar_of_isDigit hdigit
      · exact hrun c' hmem
    next =>
      cases h
      exact ⟨[], rfl, by simp⟩

theorem isAtomChar_of_power? {sign : Int} {ds : List Char} {power : Option Int}
    (h : power? sign ds = some power) : ∀ c ∈ ds, isAtomChar c = true := by
  unfold power? at h
  split at h
  · cases h
  next hread =>
    obtain ⟨run, rfl, hrun⟩ := digits_eq_append hread
    rwa [List.append_nil]
  · cases h

theorem isAtomChar_of_exponentPart? {rest : List Char} {power : Option Int}
    (h : exponentPart? rest = some power) : ∀ c ∈ rest, isAtomChar c = true := by
  cases rest with
  | nil => simp
  | cons e rest =>
    have hparts : isAtomChar e = true ∧ ((∃ sign, power? sign rest = some power) ∨
        ∃ sign mark ds, isAtomChar mark = true ∧ rest = mark :: ds ∧
          power? sign ds = some power) := by
      unfold exponentPart? at h
      dsimp only at h
      split at h
      next hletter =>
        rw [Bool.or_eq_true, decide_eq_true_eq, decide_eq_true_eq] at hletter
        refine ⟨by rcases hletter with rfl | rfl <;> decide, ?_⟩
        split at h
        next ds => exact .inr ⟨1, '+', ds, by decide, rfl, h⟩
        next ds => exact .inr ⟨-1, '-', ds, by decide, rfl, h⟩
        next => exact .inl ⟨1, h⟩
      next => cases h
    obtain ⟨hletter, hpower⟩ := hparts
    refine List.forall_mem_cons.2 ⟨hletter, ?_⟩
    rcases hpower with ⟨sign, hds⟩ | ⟨sign, mark, ds, hmark, rfl, hds⟩
    · exact isAtomChar_of_power? hds
    · exact List.forall_mem_cons.2 ⟨hmark, isAtomChar_of_power? hds⟩

theorem isAtomChar_of_afterPoint {value value' places : Nat} {rest rest' : List Char}
    {power : Option Int} (h : afterPoint value rest = (value', places, rest'))
    (hpower : exponentPart? rest' = some power) : ∀ c ∈ rest, isAtomChar c = true := by
  have hrest := isAtomChar_of_exponentPart? hpower
  unfold afterPoint at h
  split at h
  next fraction =>
    obtain ⟨run, rfl, hrun⟩ := digits_eq_append h
    refine List.forall_mem_cons.2 ⟨by decide, ?_⟩
    exact List.forall_mem_append.2 ⟨hrun, hrest⟩
  next =>
    cases h
    exact hrest

theorem isAtomChar_of_unsigned? {negative : Bool} {body : List Char} {l : Literal}
    (h : unsigned? negative body = some l) : ∀ c ∈ body, isAtomChar c = true := by
  unfold unsigned? at h
  rcases hread : digits body 0 0 with ⟨value, count, rest⟩
  rw [hread] at h
  dsimp only at h
  split at h
  · cases h
  rcases hafter : afterPoint value rest with ⟨value', places, rest'⟩
  rw [hafter] at h
  dsimp only at h
  split at h
  · cases h
  obtain ⟨power, hpower, -⟩ := Option.map_eq_some_iff.1 h
  obtain ⟨run, rfl, hrun⟩ := digits_eq_append hread
  exact List.forall_mem_append.2 ⟨hrun, isAtomChar_of_afterPoint hafter hpower⟩

/-- A literal is made of the characters of words and numbers, and there is one at least. -/
theorem isAtomChar_of_literal? {text : List Char} {l : Literal} (h : literal? text = some l) :
    ∀ c ∈ text, isAtomChar c = true := by
  by_cases hsign : text.head? = some '-'
  · obtain ⟨body, rfl⟩ := List.head?_eq_some_iff.1 hsign
    have hread := literal?_signed true body (by simp)
    have hbody := isAtomChar_of_unsigned? (hread.symm.trans h)
    exact List.forall_mem_cons.2 ⟨by decide, hbody⟩
  · have hread := literal?_signed false text fun _ => hsign
    exact isAtomChar_of_unsigned? (hread.symm.trans h)

end Json

/-! ## The texts of doubles -/

namespace Double

/-- A finite double is read back as its sign and its shortest decimal. -/
theorem literal?_text {x : Double} (hx : x.isFinite = true) :
    ∃ l, Json.literal? (x.text Json.numberLayout).toList = some l ∧ l.negative = x.negative ∧
      l.value = (x.shortest .toEven).value := by
  obtain ⟨hnumber, hinfinite⟩ := isFinite_iff.1 hx
  have hsign : x.signText.toList = Json.signChars x.negative := by
    unfold signText Json.signChars
    split <;> rfl
  unfold text
  rw [hnumber, hinfinite, if_neg Bool.false_ne_true, if_neg Bool.false_ne_true,
    String.toList_append, hsign]
  exact Json.literal?_text x.negative exponent_shortest

/-- **Finite doubles have different texts.** -/
theorem text_injective {x y : Double} (hx : x.isFinite = true) (hy : y.isFinite = true)
    (h : x.text Json.numberLayout = y.text Json.numberLayout) : x = y := by
  obtain ⟨l, hl, hsign, hvalue⟩ := literal?_text hx
  obtain ⟨l', hl', hsign', hvalue'⟩ := literal?_text hy
  rw [h, hl'] at hl
  cases hl
  have hmagnitude := magnitude_eq_of_shortest (hvalue.symm.trans hvalue')
  obtain ⟨sx, m, _⟩ := x
  obtain ⟨sy, n, _⟩ := y
  obtain rfl : sx = sy := hsign.symm.trans hsign'
  obtain rfl : m = n := hmagnitude
  rfl

end Double

end ProblemSolving
