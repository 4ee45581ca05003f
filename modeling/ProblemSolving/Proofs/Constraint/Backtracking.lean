import Mathlib
import ProblemSolving.Proofs.Constraint.Pruning

/-!
# Backtracking decides a model

* `Assignment.Satisfies` : every variable has a value of its domain, and every constraint holds.
* `Model.Consistent` : a partial assignment of places whose values agree pair by pair.
* `Model.Branch` : what the search below a partial assignment has to say. A failure says that no
  compatible choice extends the assignment, and leaves the domains as they were.
* `tryValues_branch`, `backtrack_branch`, `backtrack_full` : the search says it, for one variable,
  below an assignment, and from the start.
* `backtrackingSearch_decides` : the search of a built model is sound, and complete where it is
  neither stopped by its budget nor by an undefined relation.
-/

namespace ProblemSolving

variable {ν : Type} {m : Model ν}

/-- Every variable has a value of its domain, and every constraint is defined for the values and
holds. -/
structure Assignment.Satisfies (a : Assignment ν) (m : Model ν) : Prop where
  value : ∀ v < m.size, ∃ x ∈ m.domain v, a.get? v = some x
  holds : ∀ c ∈ m.constraints.toList, ∃ x y,
    a.get? c.left = some x ∧ a.get? c.right = some y ∧ c.relation.holds? x y = some true

/-- If a solver found an assignment, it satisfies the model. -/
def SolverOutcome.Sound (m : Model ν) (o : SolverOutcome ν) : Prop :=
  ∀ a, o.solution = .solved a → a.Satisfies m

/-! ## Partial assignments -/

namespace Model

/-- The assigned places exist, and their values agree pair by pair. -/
structure Consistent (m : Model ν) (assigned : Array (Option Nat)) : Prop where
  size_eq : assigned.size = m.size
  lt_size : ∀ v ix, assigned[v]? = some (some ix) → ix < (m.domain v).size
  agree : ∀ a x b y, m.valueAt? assigned a = some x → m.valueAt? assigned b = some y →
    m.Agree a x b y

theorem valueAt?_of_getElem? {assigned : Array (Option Nat)} {v ix : Nat}
    (h : assigned[v]? = some (some ix)) : m.valueAt? assigned v = (m.domain v)[ix]? := by
  unfold valueAt?
  rw [h]
  rfl

theorem valueAt?_assign_self {assigned : Array (Option Nat)} {v : Nat} (hv : v < assigned.size)
    (ix : Nat) : m.valueAt? (assigned.setIfInBounds v (some ix)) v = (m.domain v)[ix]? :=
  valueAt?_of_getElem? (Array.getElem?_setIfInBounds_self_of_lt hv)

theorem valueAt?_assign_of_ne {assigned : Array (Option Nat)} {v w : Nat} (h : w ≠ v)
    (place : Option Nat) :
    m.valueAt? (assigned.setIfInBounds v place) w = m.valueAt? assigned w := by
  unfold valueAt?
  rw [Array.getElem?_setIfInBounds_ne (Ne.symm h)]

theorem assign_of_getElem? {assigned : Array (Option Nat)} {v : Nat} {place : Option Nat}
    (h : assigned[v]? = some place) : assigned.setIfInBounds v place = assigned := by
  obtain ⟨hv, rfl⟩ := Array.getElem?_eq_some_iff.1 h
  rw [Array.setIfInBounds, dif_pos hv, Array.set_getElem_self]

theorem exists_of_valueAt? {assigned : Array (Option Nat)} {v : Nat} {x : ν}
    (h : m.valueAt? assigned v = some x) :
    ∃ ix, assigned[v]? = some (some ix) ∧ (m.domain v)[ix]? = some x := by
  unfold valueAt? at h
  cases hv : assigned[v]? with
  | none => rw [hv] at h; cases h
  | some place =>
    cases place with
    | none => rw [hv] at h; cases h
    | some ix => rw [hv] at h; exact ⟨ix, rfl, h⟩

theorem get?_materialize (m : Model ν) (assigned : Array (Option Nat)) (v : Nat) :
    (m.materialize assigned).get? v = m.valueAt? assigned v := by
  unfold Assignment.get? materialize valueAt?
  rw [Array.getElem?_mapIdx]
  cases assigned[v]? <;> rfl

theorem consistent_replicate (m : Model ν) : m.Consistent (Array.replicate m.size none) where
  size_eq := Array.size_replicate
  lt_size v ix h := by
    rw [Array.getElem?_replicate] at h
    split at h <;> cases h
  agree a x b y h := by
    obtain ⟨ix, hix, -⟩ := exists_of_valueAt? h
    rw [Array.getElem?_replicate] at hix
    split at hix <;> cases hix

theorem agree_of_conflictsAt (hm : m.Linked) {assigned : Array (Option Nat)} {v ix : Nat} {x : ν}
    (hx : (m.domain v)[ix]? = some x) (hcan : m.canCount assigned v ix = true)
    (hnone : m.conflictsAt assigned v ix = 0) {b : Nat} {y : ν}
    (hy : m.valueAt? assigned b = some y) : m.Agree v x b y := by
  unfold canCount at hcan
  unfold conflictsAt at hnone
  rw [hx] at hcan hnone
  by_cases hb : b ∈ m.neighbors v
  · obtain ⟨link, hlink, rfl⟩ := List.mem_map.1 hb
    have hdecides := List.all_eq_true.1 hcan link hlink
    have hallows := List.countP_eq_zero.1 hnone link hlink
    rw [hy] at hdecides hallows
    have hholds := Link.holds?_of_allows hdecides (by simpa using hallows)
    rwa [hm.relations_eq hlink] at hholds
  · intro r hr
    rw [hm.mem_neighbors_iff, not_not] at hb
    rw [hb] at hr
    cases hr

theorem Consistent.assign (hm : m.Linked) {assigned : Array (Option Nat)}
    (hc : m.Consistent assigned) {v ix : Nat} (hix : ix < (m.domain v).size)
    (hcan : m.canCount assigned v ix = true) (hnone : m.conflictsAt assigned v ix = 0)
    (hv : assigned[v]? = some none) : m.Consistent (assigned.setIfInBounds v (some ix)) := by
  have hx : (m.domain v)[ix]? = some (m.domain v)[ix] := Array.getElem?_eq_getElem hix
  have hlt : v < assigned.size := (Array.getElem?_eq_some_iff.1 hv).1
  have hself : m.valueAt? (assigned.setIfInBounds v (some ix)) v = some (m.domain v)[ix] :=
    (valueAt?_assign_self hlt ix).trans hx
  refine ⟨(Array.size_setIfInBounds).trans hc.size_eq, fun w jx h => ?_, fun a x b y ha hb => ?_⟩
  · by_cases hw : w = v
    · subst hw
      rw [Array.getElem?_setIfInBounds_self_of_lt hlt] at h
      cases h
      exact hix
    · rw [Array.getElem?_setIfInBounds_ne (Ne.symm hw)] at h
      exact hc.lt_size w jx h
  · by_cases hav : a = v
    · subst hav
      rw [hself] at ha
      by_cases hba : b = a
      · subst hba
        intro r hr
        rw [hm.relationsBetween_self] at hr
        cases hr
      · rw [valueAt?_assign_of_ne hba] at hb
        exact agree_of_conflictsAt hm (hx.trans ha) hcan hnone hb
    · rw [valueAt?_assign_of_ne hav] at ha
      by_cases hbv : b = v
      · subst hbv
        rw [hself] at hb
        exact hm.agree_comm.1 (agree_of_conflictsAt hm (hx.trans hb) hcan hnone ha)
      · rw [valueAt?_assign_of_ne hbv] at hb
        exact hc.agree a x b y ha hb

/-! ## Choices that extend an assignment -/

/-- The choice takes the assigned places. -/
def Extends (choice : Nat → Nat) (assigned : Array (Option Nat)) : Prop :=
  ∀ v ix, assigned[v]? = some (some ix) → choice v = ix

theorem Extends.assign {choice : Nat → Nat} {assigned : Array (Option Nat)}
    (h : Extends choice assigned) (v : Nat) :
    Extends choice (assigned.setIfInBounds v (some (choice v))) := by
  intro w jx hw
  by_cases hwv : w = v
  · subst hwv
    rw [Array.getElem?_setIfInBounds_self] at hw
    split at hw
    · exact Option.some.inj (Option.some.inj hw)
    · cases hw
  · rw [Array.getElem?_setIfInBounds_ne (Ne.symm hwv)] at hw
    exact h w jx hw

/-- What is assigned stays assigned. -/
def Retains (assigned assigned' : Array (Option Nat)) : Prop :=
  ∀ v ix : Nat, assigned[v]? = some (some ix) → assigned'[v]? = some (some ix)

theorem Retains.trans {a₁ a₂ a₃ : Array (Option Nat)} (h : Retains a₁ a₂) (h' : Retains a₂ a₃) :
    Retains a₁ a₃ :=
  fun v ix hv => h' v ix (h v ix hv)

theorem retains_assign {assigned : Array (Option Nat)} {v : Nat} (hv : assigned[v]? = some none)
    (ix : Nat) : Retains assigned (assigned.setIfInBounds v (some ix)) := by
  intro w jx hw
  have hne : v ≠ w := by
    rintro rfl
    rw [hv] at hw
    cases hw
  rwa [Array.getElem?_setIfInBounds_ne hne]

theorem Extends.of_retains {choice : Nat → Nat} {assigned assigned' : Array (Option Nat)}
    (h : Extends choice assigned') (hr : Retains assigned assigned') : Extends choice assigned :=
  fun v ix hv => h v ix (hr v ix hv)

/-- To extend an assignment of an open variable is to take its place and to extend the rest. -/
theorem Extends.of_assign {choice : Nat → Nat} {assigned : Array (Option Nat)} {v ix : Nat}
    (h : Extends choice (assigned.setIfInBounds v (some ix))) (hv : assigned[v]? = some none) :
    Extends choice assigned ∧ choice v = ix :=
  ⟨h.of_retains (retains_assign hv ix),
    h v ix (Array.getElem?_setIfInBounds_self_of_lt (Array.getElem?_eq_some_iff.1 hv).1)⟩

/-- The place that a compatible choice takes is in no conflict with the places it was assigned. -/
theorem Fits.conflictsAt_eq_zero (hm : m.Linked) {choice : Nat → Nat} (hf : m.Fits choice)
    {assigned : Array (Option Nat)} (he : Extends choice assigned) {v : Nat} (hv : v < m.size) :
    m.conflictsAt assigned v (choice v) = 0 := by
  obtain ⟨x, hx⟩ : ∃ x, (m.domain v)[choice v]? = some x :=
    ⟨_, Array.getElem?_eq_getElem (hf.lt_size v hv)⟩
  unfold conflictsAt
  rw [hx]
  refine List.countP_eq_zero.2 fun link hlink => ?_
  cases hy : m.valueAt? assigned link.neighbor with
  | none => simp
  | some y =>
    obtain ⟨jx, hjx, hplace⟩ := exists_of_valueAt? hy
    obtain rfl := he _ _ hjx
    have hb : link.neighbor ∈ m.neighbors v := List.mem_map_of_mem hlink
    have hcompatible := hf.compatible v hv _ (hm.lt_size_of_mem_neighbors hb).2.1
    unfold Model.compatible at hcompatible
    rw [hx, hplace] at hcompatible
    dsimp only at hcompatible ⊢
    rw [hm.consistent_eq, ← hm.relations_eq hlink] at hcompatible
    simpa [Link.allows] using hcompatible

theorem fits_of_satisfies (hm : m.Linked) {a : Assignment ν} (ha : a.Satisfies m)
    {choice : Nat → Nat} (hchoice : ∀ v < m.size,
      choice v < (m.domain v).size ∧ a.get? v = (m.domain v)[choice v]?) : m.Fits choice := by
  refine ⟨fun v hv => (hchoice v hv).1, fun v hv w hw => ?_⟩
  unfold compatible
  split
  · rename_i x y hx hy
    rw [← (hchoice v hv).2] at hx
    rw [← (hchoice w hw).2] at hy
    exact hm.consistent_of_agree (agree_of_holds ha.holds hx hy)
  · rfl

theorem exists_fits_of_satisfies (hm : m.Linked) {a : Assignment ν} (ha : a.Satisfies m) :
    ∃ choice, m.Fits choice := by
  have hplace : ∀ v, ∃ ix, v < m.size → ix < (m.domain v).size ∧ a.get? v = (m.domain v)[ix]? := by
    intro v
    by_cases hv : v < m.size
    · obtain ⟨x, hx, hget⟩ := ha.value v hv
      obtain ⟨ix, hix⟩ := Array.getElem?_of_mem hx
      exact ⟨ix, fun _ => ⟨(Array.getElem?_eq_some_iff.1 hix).1, hget.trans hix.symm⟩⟩
    · exact ⟨0, fun h => absurd h hv⟩
  choose choice hchoice using hplace
  exact ⟨choice, fits_of_satisfies hm ha hchoice⟩

/-- A complete consistent assignment of places satisfies the model. -/
theorem Consistent.satisfies (hm : m.Linked) {assigned : Array (Option Nat)}
    (hc : m.Consistent assigned) (hcomplete : ∀ v : Nat, assigned[v]? ≠ some none) :
    (m.materialize assigned).Satisfies m := by
  have hvalue : ∀ v < m.size, ∃ x ∈ m.domain v, m.valueAt? assigned v = some x := by
    intro v hv
    have hlt : v < assigned.size := by rwa [hc.size_eq]
    cases hplace : assigned[v] with
    | none => exact absurd (Array.getElem?_eq_some_iff.2 ⟨hlt, hplace⟩) (hcomplete v)
    | some ix =>
      have hget := Array.getElem?_eq_some_iff.2 ⟨hlt, hplace⟩
      have hix := hc.lt_size v ix hget
      refine ⟨(m.domain v)[ix], Array.getElem_mem hix, ?_⟩
      rw [valueAt?_of_getElem? hget, Array.getElem?_eq_getElem hix]
  refine ⟨fun v hv => ?_, fun c hconstraint => ?_⟩
  · rw [get?_materialize]
    exact hvalue v hv
  · obtain ⟨hleft, hright, -⟩ := hm.ends c hconstraint
    obtain ⟨x, -, hx⟩ := hvalue c.left hleft
    obtain ⟨y, -, hy⟩ := hvalue c.right hright
    rw [get?_materialize, get?_materialize]
    exact ⟨x, y, hx, hy, (hc.agree _ x _ y hx hy).holds? hconstraint⟩

end Model

/-! ## Which variable and which values come next -/

theorem mem_unassignedVariables_iff {assigned : Array (Option Nat)} {v : Nat} :
    v ∈ unassignedVariables assigned ↔ assigned[v]? = some none := by
  unfold unassignedVariables
  rw [List.mem_filter, List.mem_range, beq_iff_eq]
  exact and_iff_right_of_imp fun h => (Array.getElem?_eq_some_iff.1 h).1

theorem length_unassignedVariables_lt {assigned : Array (Option Nat)} {v : Nat}
    (hv : assigned[v]? = some none) (ix : Nat) :
    (unassignedVariables (assigned.setIfInBounds v (some ix))).length <
      (unassignedVariables assigned).length := by
  have hlt : v < assigned.size := (Array.getElem?_eq_some_iff.1 hv).1
  have heq : unassignedVariables (assigned.setIfInBounds v (some ix)) =
      (unassignedVariables assigned).filter (· != v) := by
    unfold unassignedVariables
    rw [Array.size_setIfInBounds, List.filter_filter]
    refine List.filter_congr fun w _ => ?_
    by_cases hw : w = v
    · subst hw
      rw [Array.getElem?_setIfInBounds_self_of_lt hlt]
      simp
    · rw [Array.getElem?_setIfInBounds_ne (Ne.symm hw)]
      simp [hw]
  rw [heq]
  exact List.length_filter_lt_length_iff_exists.2 ⟨v, mem_unassignedVariables_iff.2 hv, by simp⟩

theorem argMin?_eq_none_iff {β : Type} {lt : β → β → Bool} {key : Nat → β} {l : List Nat} :
    argMin? lt key l = none ↔ l = [] := by
  cases l <;> simp [argMin?]

theorem mem_of_argMin? {β : Type} {lt : β → β → Bool} {key : Nat → β} {l : List Nat} {v : Nat}
    (h : argMin? lt key l = some v) : v ∈ l := by
  have hfold : ∀ (rest : List Nat) (first : Nat),
      rest.foldl (fun best v => if lt (key v) (key best) then v else best) first ∈ first :: rest := by
    intro rest
    induction rest with
    | nil => intro first; simp
    | cons w rest ih =>
      intro first
      rw [List.foldl_cons]
      rcases List.mem_cons.1 (ih (if lt (key w) (key first) then w else first)) with heq | hmem
      · rw [heq]
        split
        · exact List.mem_cons_of_mem _ List.mem_cons_self
        · exact List.mem_cons_self
      · exact List.mem_cons_of_mem _ (List.mem_cons_of_mem _ hmem)
  cases l with
  | nil => cases h
  | cons first rest => exact Option.some.inj h ▸ hfold rest first

theorem selectVariable?_eq_none {order : VariableOrder} {d : Domains}
    {assigned : Array (Option Nat)} (h : selectVariable? m order d assigned = none) :
    unassignedVariables assigned = [] := by
  unfold selectVariable? at h
  cases order with
  | firstUnassigned => exact List.head?_eq_none_iff.1 h
  | fewestValues => exact argMin?_eq_none_iff.1 h
  | fewestValuesThenDegree => exact argMin?_eq_none_iff.1 h

theorem mem_of_selectVariable? {order : VariableOrder} {d : Domains}
    {assigned : Array (Option Nat)} {v : Nat}
    (h : selectVariable? m order d assigned = some v) : v ∈ unassignedVariables assigned := by
  unfold selectVariable? at h
  cases order with
  | firstUnassigned => exact List.mem_of_mem_head? h
  | fewestValues => exact mem_of_argMin? h
  | fewestValuesThenDegree => exact mem_of_argMin? h

theorem mem_orderValues_iff {order : ValueOrder} {d : Domains} {assigned : Array (Option Nat)}
    {v ix : Nat} : ix ∈ orderValues m order d assigned v ↔ d.isAlive v ix = true := by
  rw [← Domains.mem_indices_iff]
  cases order with
  | domainOrder => rfl
  | leastConstraining => simp [orderValues]

namespace Model.Linked

variable (hm : m.Linked) (ht : m.Total)
include hm ht

theorem canCountAll (assigned : Array (Option Nat)) (v : Nat) (places : List Nat) :
    m.canCountAll assigned v places = true := by
  unfold Model.canCountAll
  rw [hm.isTotalAt ht, Bool.true_or]

theorem canSelect (order : VariableOrder) (d : Domains) (assigned : Array (Option Nat)) :
    canSelect m order d assigned = true := by
  cases order with
  | firstUnassigned => rfl
  | fewestValues => exact List.all_eq_true.2 fun v _ => hm.canCountAll ht assigned v _
  | fewestValuesThenDegree => exact List.all_eq_true.2 fun v _ => hm.canCountAll ht assigned v _

theorem canOrder (order : ValueOrder) (d : Domains) (assigned : Array (Option Nat)) (v : Nat) :
    canOrder m order d assigned v = true := by
  cases order with
  | domainOrder => rfl
  | leastConstraining =>
    refine List.all_eq_true.2 fun other _ => List.all_eq_true.2 fun ix _ => ?_
    unfold canRuleOut
    rw [hm.isTotalBetween ht, Bool.true_or]

end Model.Linked

/-! ## The search below an assignment -/

namespace Model

/-- What a search has to say: of the choices in question, that none is compatible, when it failed
and the domains are back where they belong; that its budget ended it only if it has one; that a
relation was undefined only if some relation is. -/
def Branch (m : Model ν) (config : BacktrackConfig) (back : Domains → Prop)
    (possible : (Nat → Nat) → Prop) : Backtracker × BranchVerdict → Prop
  | (_, .solved assigned) => m.Consistent assigned ∧ ∀ v : Nat, assigned[v]? ≠ some none
  | (s, .failed) => back s.domains ∧ ∀ choice, m.Fits choice → ¬ possible choice
  | (_, .outOfBudget) => config.maxAssignments ≠ none
  | (_, .undefined) => ¬ m.Total

theorem Branch.imp {config : BacktrackConfig} {back back' : Domains → Prop}
    {possible possible' : (Nat → Nat) → Prop} {r : Backtracker × BranchVerdict}
    (h : m.Branch config back possible r) (hback : ∀ d, back d → back' d)
    (hpossible : ∀ choice, m.Fits choice → possible' choice → possible choice) :
    m.Branch config back' possible' r := by
  obtain ⟨s, verdict⟩ := r
  cases verdict with
  | solved assigned => exact h
  | failed => exact ⟨hback _ h.1, fun choice hf hp => h.2 choice hf (hpossible choice hf hp)⟩
  | outOfBudget => exact h
  | undefined => exact h

end Model

/-- The choices that extend an assignment by live values. -/
def Domains.Completes (d : Domains) (m : Model ν) (assigned : Array (Option Nat))
    (choice : Nat → Nat) : Prop :=
  Model.Extends choice assigned ∧ d.Admits m choice

/-- A choice in question that takes a new place survives the inference, which then does not fail. -/
theorem Domains.Completes.infer (hm : m.Linked) (inference : Inference) {choice : Nat → Nat}
    (hf : m.Fits choice) {d : Domains} (hd : d.BelongsTo m) {assigned : Array (Option Nat)}
    (hassigned : assigned.size = m.size) {v ix : Nat} (hv : v < m.size)
    (h : d.Completes m assigned choice) (hix : choice v = ix) :
    (infer m inference (d.restrictTo v ix) (assigned.setIfInBounds v (some ix)) v ix).1.Completes m
        (assigned.setIfInBounds v (some ix)) choice ∧
      ((infer m inference (d.restrictTo v ix) (assigned.setIfInBounds v (some ix)) v ix).2
          = .consistent ∨
        (infer m inference (d.restrictTo v ix) (assigned.setIfInBounds v (some ix)) v ix).2
          = .undefined) := by
  subst hix
  obtain ⟨hadmits, hverdict⟩ := infer_keeps hm inference hf (hd.restrictTo v _) (h.2.restrictTo v)
    (Array.size_setIfInBounds.trans hassigned) hv
  exact ⟨⟨h.1.assign v, hadmits⟩, hverdict⟩

section Try
variable (m) (config : BacktrackConfig)
  (next : Backtracker → Array (Option Nat) → Backtracker × BranchVerdict)

/-- Assigns a value, infers, and searches on. -/
def attempt (assigned : Array (Option Nat)) (v : Nat) (s : Backtracker) (ix : Nat) :
    Backtracker × BranchVerdict :=
  let chosen := assigned.setIfInBounds v (some ix)
  let inferred := infer m config.inference (s.domains.restrictTo v ix) chosen v ix
  let tried : Backtracker := { s with domains := inferred.1, assignments := s.assignments + 1 }
  match inferred.2 with
  | .consistent => next tried chosen
  | .undefined => (tried, .undefined)
  | .wipedOut | .foreign => (tried, .failed)

theorem tryValues_cons (assigned : Array (Option Nat)) (v : Nat) (s : Backtracker) (ix : Nat)
    (rest : List Nat) :
    tryValues m config next assigned v s (ix :: rest) =
      if !m.canCount assigned v ix then (s, .undefined)
      else if m.conflictsAt assigned v ix ≠ 0 then tryValues m config next assigned v s rest
      else if config.maxAssignments.any (· ≤ s.assignments) then (s, .outOfBudget)
      else match attempt m config next assigned v s ix with
        | (after, .failed) =>
          tryValues m config next assigned v
            { after with domains := after.domains.undoTo s.domains.checkpoint } rest
        | decided => decided := by
  rw [tryValues]
  unfold attempt
  dsimp only
  split
  · rfl
  · split
    · rfl
    · split
      · rfl
      · generalize infer m config.inference _ _ v ix = inferred
        obtain ⟨d, verdict⟩ := inferred
        cases verdict with
        | consistent =>
          dsimp only
          generalize next _ _ = r
          obtain ⟨after, decided⟩ := r
          cases decided <;> rfl
        | wipedOut => rfl
        | foreign => rfl
        | undefined => rfl

end Try

section Spec
variable {config : BacktrackConfig}
  {next : Backtracker → Array (Option Nat) → Backtracker × BranchVerdict}
  {assigned : Array (Option Nat)} {v : Nat}

/-- A value without conflicts is tried: if that fails, no choice takes it, and what was removed can
be undone. -/
theorem attempt_branch (hm : m.Linked) (hc : m.Consistent assigned)
    (hnext : ∀ (s : Backtracker) ix, s.domains.BelongsTo m →
      m.Consistent (assigned.setIfInBounds v (some ix)) →
      m.Branch config (·.Agrees s.domains)
        (s.domains.Completes m (assigned.setIfInBounds v (some ix)))
        (next s (assigned.setIfInBounds v (some ix))))
    (hv : assigned[v]? = some none) {s : Backtracker} (hs : s.domains.BelongsTo m) {ix : Nat}
    (hix : ix < (m.domain v).size) (hcan : m.canCount assigned v ix = true)
    (hnone : m.conflictsAt assigned v ix = 0) :
    m.Branch config (·.UndoesTo s.domains)
      (fun choice => s.domains.Completes m assigned choice ∧ choice v = ix)
      (attempt m config next assigned v s ix) := by
  have hvm : v < m.size := hc.size_eq ▸ (Array.getElem?_eq_some_iff.1 hv).1
  have hrestricted : (s.domains.restrictTo v ix).BelongsTo m := hs.restrictTo v ix
  obtain ⟨inferred, hinferred⟩ : ∃ r, r = infer m config.inference (s.domains.restrictTo v ix)
    (assigned.setIfInBounds v (some ix)) v ix := ⟨_, rfl⟩
  have hbelongs : inferred.1.BelongsTo m := by
    rw [hinferred]
    exact infer_belongsTo config.inference _ v ix hrestricted
  have hundoes : inferred.1.UndoesTo s.domains := by
    rw [hinferred]
    exact infer_undoesTo config.inference _ v ix hrestricted.counted
      ((Domains.UndoesTo.refl s.domains).restrictTo hs.counted v ix)
  have hkeeps : ∀ choice, m.Fits choice → s.domains.Completes m assigned choice → choice v = ix →
      inferred.1.Completes m (assigned.setIfInBounds v (some ix)) choice ∧
        (inferred.2 = .consistent ∨ inferred.2 = .undefined) := by
    intro choice hf hcompletes heq
    rw [hinferred]
    exact hcompletes.infer hm config.inference hf hs hc.size_eq hvm heq
  have hdefined : m.Total → inferred.2 ≠ .undefined := by
    rw [hinferred]
    exact fun ht => infer_ne_undefined hm ht _ _ _ _ _
  unfold attempt
  dsimp only
  rw [← hinferred]
  obtain ⟨d, verdict⟩ := inferred
  cases verdict with
  | consistent =>
    refine (hnext ⟨d, s.assignments + 1, s.backtracks⟩ ix hbelongs
      (hc.assign hm hix hcan hnone hv)).imp (fun _ h => hundoes.of_agrees h) ?_
    rintro choice hf ⟨hcompletes, heq⟩
    exact (hkeeps choice hf hcompletes heq).1
  | undefined => exact fun ht => hdefined ht rfl
  | wipedOut =>
    refine ⟨hundoes, ?_⟩
    rintro choice hf ⟨hcompletes, heq⟩
    rcases (hkeeps choice hf hcompletes heq).2 with h | h <;> cases h
  | foreign =>
    refine ⟨hundoes, ?_⟩
    rintro choice hf ⟨hcompletes, heq⟩
    rcases (hkeeps choice hf hcompletes heq).2 with h | h <;> cases h

theorem tryValues_branch (hm : m.Linked) (hc : m.Consistent assigned)
    (hnext : ∀ (s : Backtracker) ix, s.domains.BelongsTo m →
      m.Consistent (assigned.setIfInBounds v (some ix)) →
      m.Branch config (·.Agrees s.domains)
        (s.domains.Completes m (assigned.setIfInBounds v (some ix)))
        (next s (assigned.setIfInBounds v (some ix))))
    (hv : assigned[v]? = some none) : ∀ (places : List Nat) {s : Backtracker},
      s.domains.BelongsTo m → (∀ ix ∈ places, ix < (m.domain v).size) →
      m.Branch config (·.Agrees s.domains)
        (fun choice => s.domains.Completes m assigned choice ∧ choice v ∈ places)
        (tryValues m config next assigned v s places)
  | [], s, _, _ => by
    rw [tryValues]
    exact ⟨Domains.Agrees.refl _, fun choice _ h => List.not_mem_nil h.2⟩
  | ix :: rest, s, hs, hplaces => by
    have hvm : v < m.size := hc.size_eq ▸ (Array.getElem?_eq_some_iff.1 hv).1
    have hix := hplaces ix List.mem_cons_self
    have hrest : ∀ jx ∈ rest, jx < (m.domain v).size :=
      fun jx h => hplaces jx (List.mem_cons_of_mem _ h)
    rw [tryValues_cons]
    split
    · rename_i hcan
      intro ht
      rw [hm.canCount ht] at hcan
      cases hcan
    · rename_i hcan
      have hcan : m.canCount assigned v ix = true := by simpa using hcan
      split
      · -- A choice that takes the value would be free of conflicts.
        rename_i hconflicts
        refine (tryValues_branch hm hc hnext hv rest hs hrest).imp (fun _ h => h) ?_
        rintro choice hf ⟨hcompletes, hmem⟩
        rcases List.mem_cons.1 hmem with heq | hmem
        · rw [← heq] at hconflicts
          exact absurd (hf.conflictsAt_eq_zero hm hcompletes.1 hvm) hconflicts
        · exact ⟨hcompletes, hmem⟩
      · rename_i hnone
        have hnone : m.conflictsAt assigned v ix = 0 := by simpa using hnone
        split
        · rename_i hspent
          intro hunlimited
          rw [hunlimited] at hspent
          cases hspent
        · have hattempt := attempt_branch hm hc hnext hv hs hix hcan hnone
          split
          · rename_i after hfailed
            rw [hfailed] at hattempt
            have hback := hattempt.1.agrees_undoTo
            refine (tryValues_branch hm hc hnext hv rest (hs.of_agrees hback) hrest).imp
              (fun _ h => h.trans hback) ?_
            rintro choice hf ⟨⟨hextends, hadmits⟩, hmem⟩
            rcases List.mem_cons.1 hmem with heq | hmem
            · exact absurd ⟨⟨hextends, hadmits⟩, heq⟩ (hattempt.2 choice hf)
            · exact ⟨⟨hextends, hadmits.of_agrees hback⟩, hmem⟩
          · rename_i hdecided
            generalize attempt m config next assigned v s ix = r at *
            obtain ⟨after, verdict⟩ := r
            cases verdict with
            | solved assigned' => exact hattempt
            | failed => exact absurd rfl (hdecided after)
            | outOfBudget => exact hattempt
            | undefined => exact hattempt

end Spec

/-- The search below a partial assignment says what it has to say, if it may go as deep as
variables are left. -/
theorem backtrack_branch (hm : m.Linked) (config : BacktrackConfig) :
    ∀ (left : Nat) (s : Backtracker) (assigned : Array (Option Nat)), s.domains.BelongsTo m →
      m.Consistent assigned → (unassignedVariables assigned).length ≤ left →
      m.Branch config (·.Agrees s.domains) (s.domains.Completes m assigned)
        (backtrack m config left s assigned)
  | 0, s, assigned, _, hc, hleft => by
    refine ⟨hc, fun v hv => ?_⟩
    have hnil := List.length_eq_zero_iff.1 (Nat.le_zero.1 hleft)
    exact List.not_mem_nil (hnil ▸ mem_unassignedVariables_iff.2 hv)
  | left + 1, s, assigned, hs, hc, hleft => by
    rw [backtrack]
    split
    · rename_i hcan
      intro ht
      rw [hm.canSelect ht] at hcan
      cases hcan
    · split
      · rename_i hselect
        refine ⟨hc, fun v hv => ?_⟩
        have hnil := selectVariable?_eq_none hselect
        exact List.not_mem_nil (hnil ▸ mem_unassignedVariables_iff.2 hv)
      · rename_i v hselect
        have hv := mem_unassignedVariables_iff.1 (mem_of_selectVariable? hselect)
        have hvm : v < m.size := hc.size_eq ▸ (Array.getElem?_eq_some_iff.1 hv).1
        split
        · rename_i hcan
          intro ht
          rw [hm.canOrder ht] at hcan
          cases hcan
        · refine (tryValues_branch hm hc (fun s' ix hs' hc' => ?_) hv _ hs fun ix hix => ?_).imp
            (fun _ h => h) ?_
          · refine backtrack_branch hm config left s' _ hs' hc' ?_
            have := length_unassignedVariables_lt hv ix
            omega
          · exact hs.lt_size v ix (mem_orderValues_iff.1 hix)
          · intro choice _ hcompletes
            exact ⟨hcompletes, mem_orderValues_iff.2 (hcompletes.2 v hvm)⟩

theorem Model.Fits.completes_full {choice : Nat → Nat} (hf : m.Fits choice) :
    (Domains.full m).Completes m (Array.replicate m.size none) choice := by
  refine ⟨fun v ix hv => ?_, fun v hv => ?_⟩
  · rw [Array.getElem?_replicate] at hv
    split at hv <;> cases hv
  · exact (Domains.isAlive_full_iff m v (choice v)).2 (hf.lt_size v hv)

theorem length_unassignedVariables_le (assigned : Array (Option Nat)) :
    (unassignedVariables assigned).length ≤ assigned.size :=
  Nat.le_trans (List.length_filter_le _ _) (Nat.le_of_eq List.length_range)

/-- The search from the full domains speaks of every compatible choice. -/
theorem backtrack_full (hm : m.Linked) (config : BacktrackConfig) :
    m.Branch config (·.Agrees (.full m)) m.Fits
      (backtrack m config m.size ⟨.full m, 0, 0⟩ (Array.replicate m.size none)) := by
  refine (backtrack_branch hm config m.size ⟨.full m, 0, 0⟩ _ (Domains.belongsTo_full m)
    m.consistent_replicate ?_).imp (fun _ h => h) fun choice hf _ => hf.completes_full
  simpa using length_unassignedVariables_le (Array.replicate m.size none)

theorem backtrackingSearch_sound (hm : m.Linked) (config : BacktrackConfig) :
    (backtrackingSearch m config).Sound m := by
  have hbranch := backtrack_full hm config
  unfold backtrackingSearch
  generalize backtrack m config m.size ⟨.full m, 0, 0⟩ (Array.replicate m.size none) = r at *
  obtain ⟨s, verdict⟩ := r
  cases verdict with
  | solved assigned =>
    rintro _ ⟨⟩
    exact hbranch.1.satisfies hm hbranch.2
  | failed => exact nofun
  | outOfBudget => exact nofun
  | undefined => exact nofun

/-- **Backtracking decides a built model.** A solution satisfies the model; a model that is said to
be unsatisfiable is, whatever the budget; the budget ends the search only if there is one, and an
undefined relation only if some relation is not defined for all values. Without either, a solution
is found exactly when there is one. -/
theorem backtrackingSearch_decides [BEq ν] (hm : m.Built) (config : BacktrackConfig) :
    (∀ a, (backtrackingSearch m config).solution = .solved a → a.Satisfies m) ∧
    ((backtrackingSearch m config).solution = .unsatisfiable → ∀ a : Assignment ν, ¬ a.Satisfies m) ∧
    ((backtrackingSearch m config).solution = .budgetExceeded → config.maxAssignments ≠ none) ∧
    ((backtrackingSearch m config).solution = .undefined → ¬ m.Total) ∧
    (config.maxAssignments = none → m.Total →
      ((∃ a, (backtrackingSearch m config).solution = .solved a) ↔ ∃ a : Assignment ν, a.Satisfies m) ∧
      ((backtrackingSearch m config).solution = .unsatisfiable ↔
        ¬ ∃ a : Assignment ν, a.Satisfies m)) := by
  have hlinked := hm.linked
  have hbranch := backtrack_full hlinked config
  refine ⟨backtrackingSearch_sound hlinked config, ?_⟩
  unfold backtrackingSearch
  generalize backtrack m config m.size ⟨.full m, 0, 0⟩ (Array.replicate m.size none) = r at *
  obtain ⟨s, verdict⟩ := r
  cases verdict with
  | solved assigned =>
    have hsat := hbranch.1.satisfies hlinked hbranch.2
    exact ⟨nofun, nofun, nofun, fun _ _ => ⟨⟨fun _ => ⟨_, hsat⟩, fun _ => ⟨_, rfl⟩⟩,
      nofun, fun h => absurd ⟨_, hsat⟩ h⟩⟩
  | failed =>
    have hnone : ∀ a, ¬ Assignment.Satisfies a m := by
      intro a ha
      obtain ⟨choice, hf⟩ := Model.exists_fits_of_satisfies hlinked ha
      exact hbranch.2 choice hf hf
    refine ⟨fun _ => hnone, nofun, nofun, fun _ _ => ⟨⟨?_, ?_⟩, fun _ => ?_, fun _ => rfl⟩⟩
    · rintro ⟨a, h⟩
      cases h
    · rintro ⟨a, ha⟩
      exact absurd ha (hnone a)
    · rintro ⟨a, ha⟩
      exact hnone a ha
  | outOfBudget =>
    exact ⟨nofun, fun _ => hbranch, nofun, fun h => absurd h hbranch⟩
  | undefined =>
    exact ⟨nofun, nofun, fun _ => hbranch, fun _ h => absurd h hbranch⟩

/-- Three variables of two values, to be kept different from each other. -/
def twoColouredTriangle : Model Nat :=
  ((⟨#[⟨"a", #[0, 1]⟩, ⟨"b", #[0, 1]⟩, ⟨"c", #[0, 1]⟩], #[], #[[], [], []]⟩ :
    Model Nat).addAllDifferent [0, 1, 2]).1

theorem built_twoColouredTriangle : twoColouredTriangle.Built := by
  have ha : Model.empty.addVariable "a" #[0, 1]
      = .ok (⟨#[⟨"a", #[0, 1]⟩], #[], #[[]]⟩ : Model Nat) := by cbv
  have hb : Model.addVariable ⟨#[⟨"a", #[0, 1]⟩], #[], #[[]]⟩ "b" #[0, 1]
      = .ok (⟨#[⟨"a", #[0, 1]⟩, ⟨"b", #[0, 1]⟩], #[], #[[], []]⟩ : Model Nat) := by cbv
  have hc : Model.addVariable ⟨#[⟨"a", #[0, 1]⟩, ⟨"b", #[0, 1]⟩], #[], #[[], []]⟩ "c" #[0, 1]
      = .ok (⟨#[⟨"a", #[0, 1]⟩, ⟨"b", #[0, 1]⟩, ⟨"c", #[0, 1]⟩], #[], #[[], [], []]⟩ :
        Model Nat) := by cbv
  exact .addAllDifferent [0, 1, 2] (.addVariable (.addVariable (.addVariable .empty ha) hb) hc)

/-- The search that maintains arc consistency tells that no two colours suffice. -/
theorem not_satisfies_twoColouredTriangle :
    twoColouredTriangle.Built ∧ ∀ a : Assignment Nat, ¬ a.Satisfies twoColouredTriangle :=
  ⟨built_twoColouredTriangle, (backtrackingSearch_decides built_twoColouredTriangle
    ⟨.fewestValuesThenDegree, .leastConstraining, .arcConsistency, some 2⟩).2.1 (by cbv)⟩

end ProblemSolving
