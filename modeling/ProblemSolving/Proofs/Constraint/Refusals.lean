import ProblemSolving.Proofs.Constraint.Meaning

/-!
# What a refused call leaves

* `Model.refusal?` : the error with which a call is refused, if it is.
* `Model.pairError?` : why two variables are not constrained, which the variables alone decide.
* `Model.granted` : the pairs of a list that come before the first refused one.
* `Model.SetsApart` : what a model is after the values of pairs of variables were required to differ.
* `addAllDifferent_error`, `setsApart_granted` : requiring variables to differ is refused with the
  error of the first refused pair, and sets the pairs before it apart.
* `refused_call` : a refused call leaves the model as it was, but for those pairs.
-/

namespace ProblemSolving

variable {ν : Type}

/-- The error of an answer, if it is one. -/
def ModelError.of? {α : Type} : Except ModelError α → Option ModelError
  | .ok _ => none
  | .error e => some e

theorem ModelError.of?_eq_some_iff {α : Type} {r : Except ModelError α} {e : ModelError} :
    ModelError.of? r = some e ↔ r = .error e := by
  cases r <;> simp [ModelError.of?]

namespace Model

/-! ## Refused pairs -/

/-- Why a model does not constrain a pair of variables, if it does not. -/
def pairError? (m : Model ν) (p : Nat × Nat) : Option ModelError :=
  match m.name? p.1 with
  | none => some (.unknownVariable p.1)
  | some name =>
    if m.size ≤ p.2 then some (.unknownVariable p.2)
    else if p.1 = p.2 then some (.selfConstraint name)
    else none

/-- The pairs of a list before the first one that a model refuses. -/
def granted (m : Model ν) (pairs : List (Nat × Nat)) : List (Nat × Nat) :=
  pairs.takeWhile fun p => (m.pairError? p).isNone

theorem pairError?_congr {m m' : Model ν} (hvars : m'.vars = m.vars) :
    m'.pairError? = m.pairError? := by
  funext p
  unfold pairError? name? size
  rw [hvars]

theorem addConstraint_error_iff {m : Model ν} {a b : Nat} {r : Relation ν} {e : ModelError} :
    m.addConstraint a b r = .error e ↔ m.pairError? (a, b) = some e := by
  have hname : m.name? b = none ↔ m.size ≤ b := by
    unfold name? size
    simp
  unfold addConstraint pairError?
  dsimp only
  cases ha : m.name? a with
  | none => simp
  | some name =>
    cases hb : m.name? b with
    | none => simp [hname.1 hb]
    | some other =>
      have hlt : ¬ m.size ≤ b := fun hle => by simp [hname.2 hle] at hb
      by_cases hne : a = b
      · subst hne
        simp [hlt]
      · simp [hne, hlt]

theorem pairError?_of_addConstraint {m m' : Model ν} {a b : Nat} {r : Relation ν}
    (h : m.addConstraint a b r = .ok m') :
    m.pairError? (a, b) = none ∧ m'.pairError? = m.pairError? := by
  constructor
  · cases herror : m.pairError? (a, b) with
    | none => rfl
    | some e =>
      rw [addConstraint_error_iff.2 herror] at h
      cases h
  · obtain ⟨-, -, -, rfl⟩ := addConstraint_eq_ok h
    exact pairError?_congr rfl

/-! ## Constraints in turn -/

theorem addInTurn_snd : ∀ (cs : List (Constraint ν)) (m : Model ν), (m.addInTurn cs).2 =
    cs.takeWhile fun c => (m.pairError? (c.left, c.right)).isNone
  | [], _ => rfl
  | c :: rest, m => by
    rw [addInTurn]
    split
    next m' h =>
      obtain ⟨hnone, hsame⟩ := pairError?_of_addConstraint h
      rw [List.takeWhile_cons_of_pos (by simp [hnone]), addInTurn_snd rest m', hsame]
    next e h =>
      rw [List.takeWhile_cons_of_neg (by simp [addConstraint_error_iff.1 h])]

theorem vars_addInTurn : ∀ (cs : List (Constraint ν)) (m : Model ν),
    (m.addInTurn cs).1.vars = m.vars
  | [], _ => rfl
  | c :: rest, m => by
    rw [addInTurn]
    split
    next m' h =>
      obtain ⟨-, -, -, rfl⟩ := addConstraint_eq_ok h
      exact vars_addInTurn rest _
    next => rfl

theorem addInTurn_of_nil {m : Model ν} {cs : List (Constraint ν)} (h : (m.addInTurn cs).2 = []) :
    (m.addInTurn cs).1 = m := by
  cases cs with
  | nil => rfl
  | cons c rest =>
    rw [addInTurn] at h ⊢
    split at h
    next => cases h
    next => rfl

theorem addToEach_error (r : Relation ν) (a : Nat) : ∀ (vs : List Nat) (m : Model ν),
    ModelError.of? (m.addToEach r a vs).2 = (vs.map fun b => (a, b)).findSome? m.pairError?
  | [], _ => rfl
  | b :: rest, m => by
    rw [addToEach, List.map_cons, List.findSome?_cons]
    split
    next m' h =>
      obtain ⟨hnone, hsame⟩ := pairError?_of_addConstraint h
      rw [addToEach_error r a rest m', hnone, hsame]
    next e h =>
      rw [addConstraint_error_iff.1 h]
      rfl

theorem vars_addToEach (r : Relation ν) (a : Nat) : ∀ (vs : List Nat) (m : Model ν),
    (m.addToEach r a vs).1.vars = m.vars
  | [], _ => rfl
  | b :: rest, m => by
    rw [addToEach]
    split
    next m' h =>
      obtain ⟨-, -, -, rfl⟩ := addConstraint_eq_ok h
      exact vars_addToEach r a rest _
    next => rfl

section
variable [BEq ν]

theorem addAllDifferent_error : ∀ (vs : List Nat) (m : Model ν),
    ModelError.of? (m.addAllDifferent vs).2 = (pairsOf vs).findSome? m.pairError?
  | [], _ => rfl
  | a :: rest, m => by
    have herror := addToEach_error { holds := (· != ·) } a rest m
    have hvars := vars_addToEach { holds := (· != ·) } a rest m
    rw [addAllDifferent, pairsOf, List.findSome?_append, ← herror]
    generalize m.addToEach { holds := (· != ·) } a rest = r at hvars ⊢
    obtain ⟨m', verdict⟩ := r
    cases verdict with
    | ok _ =>
      dsimp only
      rw [addAllDifferent_error rest m', pairError?_congr hvars]
      rfl
    | error e => rfl

/-! ## Pairs that are set apart -/

/-- Whether two values differ where a pair of their variables requires it. -/
def differ (pairs : List (Nat × Nat)) (a : Nat) (x : ν) (b : Nat) (y : ν) : Bool :=
  pairs.all fun p => if p = (a, b) then x != y else if p = (b, a) then y != x else true

/-- What a model is after the values of pairs of variables were required to differ. -/
structure SetsApart (m : Model ν) (pairs : List (Nat × Nat)) (m' : Model ν) : Prop where
  vars_eq : m'.vars = m.vars
  constraints_eq : m'.constraints.toList =
    m.constraints.toList ++ pairs.map fun p => ⟨p.1, p.2, .unequal⟩
  mem_neighbors_iff : ∀ v w,
    w ∈ m'.neighbors v ↔ w ∈ m.neighbors v ∨ (v, w) ∈ pairs ∨ (w, v) ∈ pairs
  consistent_eq : ∀ a x b y, m'.consistent a x b y = (m.consistent a x b y && differ pairs a x b y)
  consistent?_eq : ∀ a x b y,
    m'.consistent? a x b y = (m.consistent? a x b y).map (· && differ pairs a x b y)

/-- What pairs that are set apart require of the values of two variables, in this order. -/
def requirements (pairs : List (Nat × Nat)) (a b : Nat) : List (Relation ν) :=
  pairs.filterMap fun p => (⟨p.1, p.2, .unequal⟩ : Constraint ν).between? a b

theorem between?_unequal (p : Nat × Nat) (a b : Nat) :
    (⟨p.1, p.2, .unequal⟩ : Constraint ν).between? a b =
      if p = (a, b) then some .unequal else if p = (b, a) then some Relation.unequal.flip
      else none := by
  unfold Constraint.between?
  simp [Prod.ext_iff]

theorem requirements_cons (p : Nat × Nat) (rest : List (Nat × Nat)) (a b : Nat) :
    (requirements (p :: rest) a b : List (Relation ν)) =
      if p = (a, b) then .unequal :: requirements rest a b
      else if p = (b, a) then Relation.unequal.flip :: requirements rest a b
      else requirements rest a b := by
  unfold requirements
  rw [List.filterMap_cons, between?_unequal]
  by_cases hab : p = (a, b)
  · simp [hab]
  · by_cases hba : p = (b, a)
    · rw [if_neg hab, if_pos hba, if_neg hab, if_pos hba]
    · simp [hab, hba]

theorem requirements_ne_nil_iff {pairs : List (Nat × Nat)} {a b : Nat} :
    (requirements pairs a b : List (Relation ν)) ≠ [] ↔ (a, b) ∈ pairs ∨ (b, a) ∈ pairs := by
  induction pairs with
  | nil => simp [requirements]
  | cons p rest ih =>
    rw [requirements_cons, List.mem_cons, List.mem_cons]
    by_cases hab : p = (a, b)
    · simp [hab]
    · by_cases hba : p = (b, a)
      · rw [if_neg hab, if_pos hba]
        simp [hba]
      · rw [if_neg hab, if_neg hba, ih]
        simp [Ne.symm hab, Ne.symm hba]

theorem isTotal_of_mem_requirements {pairs : List (Nat × Nat)} {a b : Nat} {r : Relation ν}
    (h : r ∈ requirements pairs a b) : r.isTotal = true := by
  obtain ⟨p, -, hr⟩ := List.mem_filterMap.1 h
  rw [between?_unequal] at hr
  split at hr
  · rw [← Option.some.inj hr]
    rfl
  · split at hr
    · rw [← Option.some.inj hr]
      rfl
    · cases hr

theorem all_requirements (pairs : List (Nat × Nat)) (a : Nat) (x : ν) (b : Nat) (y : ν) :
    (requirements pairs a b).all (fun r => r.holds x y) = differ pairs a x b y := by
  unfold differ
  induction pairs with
  | nil => rfl
  | cons p rest ih =>
    rw [requirements_cons, List.all_cons, ← ih]
    by_cases hab : p = (a, b)
    · rw [if_pos hab, if_pos hab]
      rfl
    · rw [if_neg hab, if_neg hab]
      by_cases hba : p = (b, a)
      · rw [if_pos hba, if_pos hba]
        rfl
      · rw [if_neg hba, if_neg hba, Bool.true_and]

end

theorem allM_append_of_total {α : Type} {p : α → Option Bool} {q : α → Bool} {later : List α}
    (h : ∀ x ∈ later, p x = some (q x)) : ∀ l : List α,
    (l ++ later).allM p = (l.allM p).map (· && later.all q)
  | [] => by simp [allM_eq_some_all h]
  | x :: rest => by
    rw [List.cons_append, List.allM_cons, List.allM_cons, allM_append_of_total h rest]
    cases p x with
    | none => rfl
    | some t => cases t <;> simp

section
variable [BEq ν]

theorem Linked.setsApart {m m' : Model ν} (hm : m.Linked) (hm' : m'.Linked)
    {pairs : List (Nat × Nat)} (hvars : m'.vars = m.vars)
    (hconstraints : m'.constraints.toList =
      m.constraints.toList ++ pairs.map fun p => ⟨p.1, p.2, .unequal⟩) :
    m.SetsApart pairs m' := by
  have hbetween : ∀ a b,
      m'.relationsBetween a b = m.relationsBetween a b ++ requirements pairs a b := by
    intro a b
    unfold relationsBetween
    rw [hconstraints, List.filterMap_append, List.filterMap_map]
    rfl
  refine ⟨hvars, hconstraints, fun v w => ?_, fun a x b y => ?_, fun a x b y => ?_⟩
  · rw [hm'.mem_neighbors_iff, hm.mem_neighbors_iff, hbetween, ← requirements_ne_nil_iff (ν := ν)]
    simp only [ne_eq, List.append_eq_nil_iff, not_and_or]
  · rw [hm'.consistent_eq, hm.consistent_eq, hbetween, List.all_append, all_requirements]
  · rw [hm'.consistent?_eq, hm.consistent?_eq, hbetween, allM_append_of_total, all_requirements]
    exact fun r hr => Relation.holds?_of_isTotal (isTotal_of_mem_requirements hr) x y

theorem addInTurn_differences (m : Model ν) (vs : List Nat) : (m.addInTurn (differences vs)).2 =
    (m.granted (pairsOf vs)).map fun p => ⟨p.1, p.2, .unequal⟩ := by
  rw [addInTurn_snd, differences, List.takeWhile_map]
  rfl

/-- Requiring variables to differ sets the granted pairs apart. -/
theorem setsApart_granted {m : Model ν} (hm : m.Linked) (vs : List Nat) :
    m.SetsApart (m.granted (pairsOf vs)) (m.addAllDifferent vs).1 := by
  refine hm.setsApart (hm.addAllDifferent vs) ?_ ?_
  · rw [addAllDifferent_eq, vars_addInTurn]
  · rw [addAllDifferent_eq, constraints_addInTurn, addInTurn_differences]

/-! ## Refused calls -/

/-- The error with which a model refuses a call, if it does. -/
def refusal? (m : Model ν) : BuildCall ν → Option ModelError
  | .addVariable name domain => ModelError.of? (m.addVariable name domain)
  | .addConstraint a b r => ModelError.of? (m.addConstraint a b r)
  | .addAllDifferent vs => ModelError.of? (m.addAllDifferent vs).2

theorem after_of_addVariable {m : Model ν} {name : String} {domain : Array ν} {e : ModelError}
    (h : m.refusal? (.addVariable name domain) = some e) :
    ((m.find? name).isSome = true ∧ e = .duplicateVariable name) ∧
      m.after (.addVariable name domain) = m := by
  have herror : m.addVariable name domain = .error e := ModelError.of?_eq_some_iff.1 h
  refine ⟨?_, by simp [after, herror, Except.toOption]⟩
  unfold addVariable at herror
  split at herror
  next htaken => exact ⟨htaken, (Except.error.inj herror).symm⟩
  next => cases herror

theorem after_of_addConstraint {m : Model ν} {a b : Nat} {r : Relation ν} {e : ModelError}
    (h : m.refusal? (.addConstraint a b r) = some e) :
    m.pairError? (a, b) = some e ∧ m.after (.addConstraint a b r) = m := by
  have herror : m.addConstraint a b r = .error e := ModelError.of?_eq_some_iff.1 h
  exact ⟨addConstraint_error_iff.1 herror, by simp [after, herror, Except.toOption]⟩

/-- Requiring variables to differ changes nothing exactly when no pair was granted. -/
theorem addAllDifferent_eq_self_iff (m : Model ν) (vs : List Nat) :
    (m.addAllDifferent vs).1 = m ↔ m.granted (pairsOf vs) = [] := by
  rw [addAllDifferent_eq]
  constructor
  · intro hsame
    have hmade := constraints_addInTurn (differences vs) m
    rw [hsame, addInTurn_differences] at hmade
    simpa using hmade
  · intro hnone
    apply addInTurn_of_nil
    rw [addInTurn_differences, hnone, List.map_nil]

end
end Model

/-- **What a refused call leaves.** A refused variable or constraint leaves the model as it was. If
variables are refused to differ, it is with the error of the first pair that is refused on its own,
and the pairs before it stay set apart; so the model is as it was exactly when there are none. -/
theorem refused_call [BEq ν] {m : Model ν} (hm : m.Built) :
    (∀ name domain e, m.refusal? (.addVariable name domain) = some e →
      e = .duplicateVariable name ∧ m.after (.addVariable name domain) = m) ∧
    (∀ a b r e, m.refusal? (.addConstraint a b r) = some e →
      m.pairError? (a, b) = some e ∧ m.after (.addConstraint a b r) = m) ∧
    ∀ vs e, m.refusal? (.addAllDifferent vs) = some e →
      (pairsOf vs).findSome? m.pairError? = some e ∧
      m.SetsApart (m.granted (pairsOf vs)) (m.after (.addAllDifferent vs)) ∧
      (m.after (.addAllDifferent vs) = m ↔ m.granted (pairsOf vs) = []) := by
  refine ⟨fun name domain e h => ?_, fun a b r e h => Model.after_of_addConstraint h, ?_⟩
  · obtain ⟨⟨-, he⟩, hsame⟩ := Model.after_of_addVariable h
    exact ⟨he, hsame⟩
  · intro vs e h
    refine ⟨?_, Model.setsApart_granted hm.linked vs, m.addAllDifferent_eq_self_iff vs⟩
    rw [← Model.addAllDifferent_error]
    exact h

/-- Two numbers that are yet to be related. -/
def twoNumbers : Model Nat := .build [.addVariable "x" #[1, 2], .addVariable "y" #[1, 2]]

/-- A taken name, a variable with itself, and a foreign variable in the first pair: each of these
calls is refused and changes nothing. -/
theorem twoNumbers_refused :
    twoNumbers.Built ∧
    twoNumbers.after (.addVariable "x" #[3]) = twoNumbers ∧
    twoNumbers.after (.addConstraint 1 1 .unequal) = twoNumbers ∧
    twoNumbers.after (.addAllDifferent [9, 0, 1]) = twoNumbers := by
  have hm : twoNumbers.Built := Model.built_build _
  obtain ⟨hvariable, hconstraint, hdifferent⟩ := refused_call hm
  refine ⟨hm, (hvariable "x" #[3] (.duplicateVariable "x") (by cbv)).2,
    (hconstraint 1 1 .unequal (.selfConstraint "y") (by cbv)).2, ?_⟩
  exact (hdifferent [9, 0, 1] (.unknownVariable 9) (by decide +kernel)).2.2.2
    (by decide +kernel)

/-- A foreign variable that comes last is refused when the two numbers are set apart already. -/
theorem twoNumbers_setApart :
    twoNumbers.Built ∧
    twoNumbers.refusal? (.addAllDifferent [0, 1, 9]) = some (.unknownVariable 9) ∧
    twoNumbers.neighbors 0 = [] ∧ twoNumbers.consistent 0 1 1 1 = true ∧
    (twoNumbers.after (.addAllDifferent [0, 1, 9])).neighbors 0 = [1] ∧
    (twoNumbers.after (.addAllDifferent [0, 1, 9])).consistent 0 1 1 1 = false ∧
    twoNumbers.after (.addAllDifferent [0, 1, 9]) ≠ twoNumbers := by
  have hbefore : twoNumbers.neighbors 0 = [] := by cbv
  have hafter : (twoNumbers.after (.addAllDifferent [0, 1, 9])).neighbors 0 = [1] := by cbv
  refine ⟨Model.built_build _, by decide +kernel, hbefore, by cbv, hafter, by cbv, fun hsame => ?_⟩
  rw [hsame, hbefore] at hafter
  cases hafter

end ProblemSolving
