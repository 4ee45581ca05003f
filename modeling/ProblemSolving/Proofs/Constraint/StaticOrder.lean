import ProblemSolving.Proofs.Constraint.Backtracking
import ProblemSolving.Proofs.Constraint.Meaning

/-!
# Backtracking in a fixed order finds the first solution

* `BacktrackConfig.inOrder` : variables by number, values by place, and no budget.
* `Model.Foremost` : no choice comes before an assignment.
* `Model.Leads` : a completed assignment extends the partial one and comes before every choice in
  question; the search below an assignment leads (`backtrack_leads`).
* `Model.Solves`, `Model.FirstSolution` : the places of a solution, and the least ones.
* `inOrder_firstSolution` : whatever is inferred, and in whatever order the constraints were added,
  the search finds the first solution.
-/

namespace ProblemSolving

variable {ν : Type} {m : Model ν}

/-- Variables by number, values by place, and no budget. -/
def BacktrackConfig.inOrder (inference : Inference) : BacktrackConfig :=
  ⟨.firstUnassigned, .domainOrder, inference, none⟩

/-! ## The order of variables and values -/

theorem head?_unassignedVariables {assigned : Array (Option Nat)} {v : Nat}
    (h : (unassignedVariables assigned).head? = some v) :
    assigned[v]? = some none ∧ ∀ w < v, assigned[w]? ≠ some none := by
  obtain ⟨rest, hcons⟩ := List.head?_eq_some_iff.1 h
  refine ⟨mem_unassignedVariables_iff.1 (List.mem_of_mem_head? h), fun w hwv hw => ?_⟩
  have hmem := mem_unassignedVariables_iff.2 hw
  have hsorted : (unassignedVariables assigned).Pairwise (· < ·) :=
    List.pairwise_lt_range.filter _
  rw [hcons] at hmem hsorted
  rcases List.mem_cons.1 hmem with rfl | hmem
  · exact Nat.lt_irrefl _ hwv
  · exact Nat.lt_asymm hwv (List.rel_of_pairwise_cons hsorted hmem)

theorem pairwise_lt_indices (d : Domains) (v : Nat) : (d.indices v).Pairwise (· < ·) :=
  List.pairwise_lt_range.filter _

namespace Model

/-- A choice takes the assigned places, or the first variable where it does not has a later one. -/
def Foremost (assigned : Array (Option Nat)) (choice : Nat → Nat) : Prop :=
  Extends choice assigned ∨ ∃ v ix, assigned[v]? = some (some ix) ∧ ix < choice v ∧
    ∀ w < v, ∀ jx, assigned[w]? = some (some jx) → choice w = jx

/-- A completed assignment keeps the partial one, and none of the choices in question comes before
it. -/
def Leads (m : Model ν) (assigned : Array (Option Nat)) (possible : (Nat → Nat) → Prop) :
    BranchVerdict → Prop
  | .solved assigned' => Retains assigned assigned' ∧
      ∀ choice, m.Fits choice → possible choice → Foremost assigned' choice
  | _ => True

theorem exists_place {assigned : Array (Option Nat)} {v : Nat} (hv : v < assigned.size)
    (h : assigned[v]? ≠ some none) : ∃ ix, assigned[v]? = some (some ix) := by
  rw [Array.getElem?_eq_getElem hv] at h ⊢
  cases hplace : assigned[v] with
  | none => exact absurd (congrArg some hplace) h
  | some ix => exact ⟨ix, rfl⟩

theorem Retains.of_assign {assigned assigned' : Array (Option Nat)} {v ix : Nat}
    (h : Retains (assigned.setIfInBounds v (some ix)) assigned') (hv : assigned[v]? = some none) :
    Retains assigned assigned' ∧ assigned'[v]? = some (some ix) :=
  ⟨(retains_assign hv ix).trans h,
    h v ix (Array.getElem?_setIfInBounds_self_of_lt (Array.getElem?_eq_some_iff.1 hv).1)⟩

theorem Leads.imp {assigned : Array (Option Nat)} {possible possible' : (Nat → Nat) → Prop}
    {verdict : BranchVerdict} (h : m.Leads assigned possible verdict)
    (hpossible : ∀ choice, m.Fits choice → possible' choice → possible choice) :
    m.Leads assigned possible' verdict := by
  cases verdict with
  | solved assigned' => exact ⟨h.1, fun choice hf hp => h.2 choice hf (hpossible choice hf hp)⟩
  | failed => trivial
  | outOfBudget => trivial
  | undefined => trivial

end Model

/-! ## The search below an assignment -/

section Spec
variable {config : BacktrackConfig}
  {next : Backtracker → Array (Option Nat) → Backtracker × BranchVerdict}
  {assigned : Array (Option Nat)} {v : Nat}

/-- Below a value, the choices that take it do not come before what is found. -/
theorem attempt_leads (hm : m.Linked) (hc : m.Consistent assigned)
    (hnext : ∀ (s : Backtracker) ix, s.domains.BelongsTo m →
      m.Consistent (assigned.setIfInBounds v (some ix)) →
      m.Leads (assigned.setIfInBounds v (some ix))
        (s.domains.Completes m (assigned.setIfInBounds v (some ix)))
        (next s (assigned.setIfInBounds v (some ix))).2)
    (hv : assigned[v]? = some none) {s : Backtracker} (hs : s.domains.BelongsTo m) {ix : Nat}
    (hix : ix < (m.domain v).size) (hcan : m.canCount assigned v ix = true)
    (hnone : m.conflictsAt assigned v ix = 0) :
    m.Leads (assigned.setIfInBounds v (some ix))
      (fun choice => s.domains.Completes m assigned choice ∧ choice v = ix)
      (attempt m config next assigned v s ix).2 := by
  have hvm : v < m.size := hc.size_eq ▸ (Array.getElem?_eq_some_iff.1 hv).1
  unfold attempt
  dsimp only
  split
  · have hleads := hnext ⟨_, s.assignments + 1, s.backtracks⟩ ix
      (infer_belongsTo config.inference (assigned.setIfInBounds v (some ix)) v ix
        (hs.restrictTo v ix)) (hc.assign hm hix hcan hnone hv)
    generalize (next _ _).2 = verdict at hleads ⊢
    cases verdict with
    | solved assigned' =>
      refine ⟨hleads.1, fun choice hf hcompletes => hleads.2 choice hf ?_⟩
      exact (hcompletes.1.infer hm config.inference hf hs hc.size_eq hvm hcompletes.2).1
    | failed => trivial
    | outOfBudget => trivial
    | undefined => trivial
  · trivial
  · trivial
  · trivial

/-- Values that are tried in ascending order: those before the one that is found lead to no choice
in question, and those after it to later ones. -/
theorem tryValues_leads (hm : m.Linked) (hc : m.Consistent assigned)
    (hbranch : ∀ (s : Backtracker) ix, s.domains.BelongsTo m →
      m.Consistent (assigned.setIfInBounds v (some ix)) →
      m.Branch config (·.Agrees s.domains)
        (s.domains.Completes m (assigned.setIfInBounds v (some ix)))
        (next s (assigned.setIfInBounds v (some ix))))
    (hnext : ∀ (s : Backtracker) ix, s.domains.BelongsTo m →
      m.Consistent (assigned.setIfInBounds v (some ix)) →
      m.Leads (assigned.setIfInBounds v (some ix))
        (s.domains.Completes m (assigned.setIfInBounds v (some ix)))
        (next s (assigned.setIfInBounds v (some ix))).2)
    (hv : assigned[v]? = some none) (hbefore : ∀ w < v, assigned[w]? ≠ some none) :
    ∀ (places : List Nat) {s : Backtracker}, s.domains.BelongsTo m →
      (∀ ix ∈ places, ix < (m.domain v).size) → places.Pairwise (· < ·) →
      m.Leads assigned (fun choice => s.domains.Completes m assigned choice ∧ choice v ∈ places)
        (tryValues m config next assigned v s places).2
  | [], s, _, _, _ => by
    rw [tryValues]
    trivial
  | ix :: rest, s, hs, hplaces, hsorted => by
    have hvm : v < m.size := hc.size_eq ▸ (Array.getElem?_eq_some_iff.1 hv).1
    have hix := hplaces ix List.mem_cons_self
    have hlater : ∀ jx ∈ rest, ix < jx := fun jx => List.rel_of_pairwise_cons hsorted
    have htail := fun {s : Backtracker} (hs : s.domains.BelongsTo m) =>
      tryValues_leads hm hc hbranch hnext hv hbefore rest hs
        (fun jx h => hplaces jx (List.mem_cons_of_mem _ h)) hsorted.of_cons
    rw [tryValues_cons]
    split
    · trivial
    · rename_i hcan
      have hcan : m.canCount assigned v ix = true := by simpa using hcan
      split
      · rename_i hconflicts
        refine (htail hs).imp ?_
        rintro choice hf ⟨hcompletes, hmem⟩
        refine ⟨hcompletes, (List.mem_cons.1 hmem).resolve_left fun heq => hconflicts ?_⟩
        rw [← heq]
        exact hf.conflictsAt_eq_zero hm hcompletes.1 hvm
      · rename_i hnone
        have hnone : m.conflictsAt assigned v ix = 0 := by simpa using hnone
        split
        · trivial
        · have hfailed := attempt_branch hm hc hbranch hv hs hix hcan hnone
          have hleads : m.Leads (assigned.setIfInBounds v (some ix))
              (fun choice => s.domains.Completes m assigned choice ∧ choice v = ix)
              (attempt m config next assigned v s ix).2 :=
            attempt_leads hm hc hnext hv hs hix hcan hnone
          split
          · rename_i after hattempt
            rw [hattempt] at hfailed
            have hback := hfailed.1.agrees_undoTo
            refine (htail (hs.of_agrees hback)).imp ?_
            rintro choice hf ⟨⟨hextends, hadmits⟩, hmem⟩
            refine ⟨⟨hextends, hadmits.of_agrees hback⟩, (List.mem_cons.1 hmem).resolve_left ?_⟩
            exact fun heq => hfailed.2 choice hf ⟨⟨hextends, hadmits⟩, heq⟩
          · rename_i hdecided
            generalize attempt m config next assigned v s ix = r at *
            obtain ⟨after, verdict⟩ := r
            cases verdict with
            | solved assigned' =>
              obtain ⟨hretains, hplace⟩ := hleads.1.of_assign hv
              refine ⟨hretains, ?_⟩
              rintro choice hf ⟨hcompletes, hmem⟩
              rcases List.mem_cons.1 hmem with heq | hmem
              · exact hleads.2 choice hf ⟨hcompletes, heq⟩
              · -- the choice takes a later place of `v`, and the same places before it
                refine .inr ⟨v, ix, hplace, hlater _ hmem, fun w hw jx hjx => ?_⟩
                have hlt := hw.trans (Array.getElem?_eq_some_iff.1 hv).1
                obtain ⟨kx, hkx⟩ := Model.exists_place hlt (hbefore w hw)
                obtain rfl : kx = jx := by
                  simpa using (hretains w kx hkx).symm.trans hjx
                exact hcompletes.1 w kx hkx
            | failed => exact absurd rfl (hdecided after)
            | outOfBudget => trivial
            | undefined => trivial

end Spec

/-- The search in order leads, if it may go as deep as variables are left. -/
theorem backtrack_leads (hm : m.Linked) (inference : Inference) :
    ∀ (left : Nat) (s : Backtracker) (assigned : Array (Option Nat)), s.domains.BelongsTo m →
      m.Consistent assigned → (unassignedVariables assigned).length ≤ left →
      m.Leads assigned (s.domains.Completes m assigned)
        (backtrack m (.inOrder inference) left s assigned).2
  | 0, s, assigned, _, _, _ => ⟨fun _ _ h => h, fun _ _ h => .inl h.1⟩
  | left + 1, s, assigned, hs, hc, hleft => by
    rw [backtrack]
    split
    · trivial
    · split
      · exact ⟨fun _ _ h => h, fun _ _ h => .inl h.1⟩
      · rename_i v hselect
        obtain ⟨hv, hbefore⟩ := head?_unassignedVariables hselect
        have hvm : v < m.size := hc.size_eq ▸ (Array.getElem?_eq_some_iff.1 hv).1
        have hless := length_unassignedVariables_lt hv
        split
        · trivial
        · refine (tryValues_leads hm hc (fun s' ix hs' hc' => ?_) (fun s' ix hs' hc' => ?_) hv
            hbefore _ hs (fun ix hix => ?_) (pairwise_lt_indices s.domains v)).imp ?_
          · exact backtrack_branch hm _ left s' _ hs' hc' (by have := hless ix; omega)
          · exact backtrack_leads hm inference left s' _ hs' hc' (by have := hless ix; omega)
          · exact hs.lt_size v ix (Domains.mem_indices_iff.1 hix)
          · intro choice _ hcompletes
            exact ⟨hcompletes, Domains.mem_indices_iff.2 (hcompletes.2 v hvm)⟩

/-! ## Solutions by their places -/

namespace Model

/-- The assignment of the values at some places, one for each variable. -/
def atPlaces (m : Model ν) (places : List Nat) : Assignment ν :=
  m.materialize (places.map some).toArray

/-- The values at the places are a solution. -/
structure Solves (m : Model ν) (places : List Nat) : Prop where
  length_eq : places.length = m.size
  satisfies : (m.atPlaces places).Satisfies m

/-- Every other solution has lexicographically greater places. -/
structure FirstSolution (m : Model ν) (places : List Nat) : Prop where
  solves : m.Solves places
  least : ∀ other, m.Solves other → places = other ∨ List.Lex (· < ·) places other

theorem FirstSolution.unique {places places' : List Nat} (h : m.FirstSolution places)
    (h' : m.FirstSolution places') : places = places' :=
  (h.least places' h'.solves).elim id fun hlt =>
    (h'.least places h.solves).elim Eq.symm fun hgt => absurd hgt (asymm hlt)

theorem Solves.fits (hm : m.Linked) {places : List Nat} (h : m.Solves places) :
    m.Fits fun v => places.getD v 0 := by
  refine fits_of_satisfies hm h.satisfies fun v hv => ?_
  have hplace : (places.map some).toArray[v]? = some (some (places.getD v 0)) := by
    simp [List.getD, h.length_eq, hv]
  have hget : (m.atPlaces places).get? v = (m.domain v)[places.getD v 0]? := by
    unfold atPlaces
    rw [get?_materialize, valueAt?_of_getElem? hplace]
  obtain ⟨x, -, hx⟩ := h.satisfies.value v hv
  exact ⟨(Array.getElem?_eq_some_iff.1 (hget.symm.trans hx)).1, hget⟩

theorem exists_places {assigned : Array (Option Nat)}
    (hcomplete : ∀ v : Nat, assigned[v]? ≠ some none) :
    ∃ places : List Nat, assigned = (places.map some).toArray := by
  refine ⟨assigned.toList.map (·.getD 0), ?_⟩
  refine Array.ext_getElem? fun v => ?_
  have h := hcomplete v
  simp only [List.map_map, List.getElem?_toArray, List.getElem?_map, Array.getElem?_toList]
  cases hv : assigned[v]? with
  | none => rfl
  | some place =>
    cases place with
    | none => exact absurd hv h
    | some ix => rfl

theorem Consistent.exists_fits (hm : m.Linked) {assigned : Array (Option Nat)}
    (hc : m.Consistent assigned) (hcomplete : ∀ v : Nat, assigned[v]? ≠ some none) :
    ∃ choice, m.Fits choice ∧ Extends choice assigned := by
  obtain ⟨places, rfl⟩ := exists_places hcomplete
  have hsolves : m.Solves places := ⟨by simpa using hc.size_eq, hc.satisfies hm hcomplete⟩
  refine ⟨fun v => places.getD v 0, hsolves.fits hm, fun v ix hv => ?_⟩
  have hplace : places[v]? = some ix := by simpa using hv
  dsimp only
  rw [List.getD_eq_getElem?_getD, hplace, Option.getD_some]

/-- Places that no choice comes before are lexicographically at most those of a choice. -/
theorem Foremost.eq_or_lex {places other : List Nat} (hlength : places.length = other.length)
    (h : Foremost (places.map some).toArray fun v => other.getD v 0) :
    places = other ∨ List.Lex (· < ·) places other := by
  have hplace : ∀ v (hv : v < places.length),
      (places.map some).toArray[v]? = some (some places[v]) := by
    intro v hv
    simp [hv]
  have hother : ∀ v (hv : v < other.length), other.getD v 0 = other[v] := by
    intro v hv
    simp [List.getD, hv]
  rcases h with hextends | ⟨v, ix, hv, hlt, hbefore⟩
  · refine .inl (List.ext_getElem hlength fun v hv hv' => ?_)
    rw [← hother v hv']
    exact (hextends v _ (hplace v hv)).symm
  · refine .inr (List.lt_iff_exists.2 (.inr ?_))
    have hvlt : v < places.length := by
      have := (Array.getElem?_eq_some_iff.1 hv).1
      simpa using this
    obtain rfl : places[v] = ix := by
      simpa using (hplace v hvlt).symm.trans hv
    refine ⟨v, hvlt, by omega, fun w hw => ?_, ?_⟩
    · rw [← hother w (by omega)]
      exact (hbefore w hw _ (hplace w (by omega))).symm
    · rwa [← hother v (by omega)]

end Model

/-! ## The first solution -/

/-- The search in order finds the first solution, or there is none, or some relation is
undefined. -/
theorem inOrder_outcome (hm : m.Linked) (inference : Inference) :
    (∃ places, m.FirstSolution places ∧
      (backtrackingSearch m (.inOrder inference)).solution = .solved (m.atPlaces places)) ∨
    ((backtrackingSearch m (.inOrder inference)).solution = .unsatisfiable ∧
      ∀ a : Assignment ν, ¬ a.Satisfies m) ∨
    ((backtrackingSearch m (.inOrder inference)).solution = .undefined ∧ ¬ m.Total) := by
  have hbranch := backtrack_full hm (.inOrder inference)
  have hleads := backtrack_leads hm inference m.size ⟨.full m, 0, 0⟩ _ (Domains.belongsTo_full m)
    m.consistent_replicate
      (by simpa using length_unassignedVariables_le (Array.replicate m.size none))
  unfold backtrackingSearch
  generalize backtrack m (.inOrder inference) m.size ⟨.full m, 0, 0⟩
    (Array.replicate m.size none) = r at hbranch hleads ⊢
  obtain ⟨s, verdict⟩ := r
  cases verdict with
  | solved assigned =>
    obtain ⟨places, rfl⟩ := Model.exists_places hbranch.2
    have hlength : places.length = m.size := by simpa using hbranch.1.size_eq
    refine .inl ⟨places, ⟨⟨hlength, hbranch.1.satisfies hm hbranch.2⟩, fun other hother => ?_⟩, rfl⟩
    have hf := hother.fits hm
    exact (hleads.2 _ hf hf.completes_full).eq_or_lex (hlength.trans hother.length_eq.symm)
  | failed =>
    refine .inr (.inl ⟨rfl, fun a ha => ?_⟩)
    obtain ⟨choice, hf⟩ := Model.exists_fits_of_satisfies hm ha
    exact hbranch.2 choice hf hf
  | outOfBudget => exact absurd rfl hbranch
  | undefined => exact .inr (.inr ⟨rfl, hbranch⟩)

theorem inOrder_ne_undefined (hm : m.Linked) (ht : m.Total) (inference : Inference) :
    (backtrackingSearch m (.inOrder inference)).solution ≠ .undefined := by
  rcases inOrder_outcome hm inference with ⟨_, _, h⟩ | ⟨h, _⟩ | ⟨_, h⟩
  · rw [h]; exact nofun
  · rw [h]; exact nofun
  · exact absurd ht h

/-! ## The order of the constraints -/

theorem Model.atPlaces_congr {m' : Model ν} (hvars : m'.vars = m.vars) (places : List Nat) :
    m'.atPlaces places = m.atPlaces places := by
  unfold Model.atPlaces Model.materialize Model.domain Model.domain?
  rw [hvars]

section Order
variable {m' : Model ν} (hvars : m'.vars = m.vars)
  (hperm : m'.constraints.toList.Perm m.constraints.toList)
include hvars hperm

theorem Assignment.Satisfies.of_perm {a : Assignment ν} (h : a.Satisfies m) : a.Satisfies m' := by
  have hsize : m'.size = m.size := congrArg Array.size hvars
  have hdomain : ∀ v, m'.domain v = m.domain v := by
    intro v
    unfold Model.domain Model.domain?
    rw [hvars]
  refine ⟨fun v hv => ?_, fun c hc => h.holds c (hperm.mem_iff.1 hc)⟩
  rw [hdomain]
  exact h.value v (hsize ▸ hv)

theorem Model.Solves.of_perm {places : List Nat} (h : m.Solves places) : m'.Solves places := by
  refine ⟨h.length_eq.trans (congrArg Array.size hvars).symm, ?_⟩
  rw [Model.atPlaces_congr hvars]
  exact h.satisfies.of_perm hvars hperm

theorem Model.FirstSolution.of_perm {places : List Nat} (h : m.FirstSolution places) :
    m'.FirstSolution places :=
  ⟨h.solves.of_perm hvars hperm,
    fun other hother => h.least other (hother.of_perm hvars.symm hperm.symm)⟩

end Order

/-- **Searching in order finds the first solution.** Whatever is inferred, the search finds the
solution with the lexicographically least places if there is one; so what is found depends neither
on the inference nor on the order in which the constraints were added. All this unless the search
comes to values for which a relation is undefined, which it does not where all are defined. -/
theorem inOrder_firstSolution [BEq ν] (hm : m.Built) :
    (m.Total → ∀ inference,
      (backtrackingSearch m (.inOrder inference)).solution ≠ .undefined) ∧
    ((∃ a : Assignment ν, a.Satisfies m) → ∀ inference,
      (backtrackingSearch m (.inOrder inference)).solution ≠ .undefined →
      ∃ places, m.FirstSolution places ∧
        (backtrackingSearch m (.inOrder inference)).solution = .solved (m.atPlaces places)) ∧
    ∀ m' : Model ν, m'.Built → m'.vars = m.vars →
      m'.constraints.toList.Perm m.constraints.toList → ∀ inference inference',
      (backtrackingSearch m (.inOrder inference)).solution ≠ .undefined →
      (backtrackingSearch m' (.inOrder inference')).solution ≠ .undefined →
      (backtrackingSearch m' (.inOrder inference')).solution =
        (backtrackingSearch m (.inOrder inference)).solution := by
  refine ⟨inOrder_ne_undefined hm.linked, ?_, ?_⟩
  · rintro ⟨a, ha⟩ inference hdefined
    rcases inOrder_outcome hm.linked inference with h | ⟨_, h⟩ | ⟨h, _⟩
    · exact h
    · exact absurd ha (h a)
    · exact absurd h hdefined
  · intro m' hm' hvars hperm inference inference' hdefined hdefined'
    rcases inOrder_outcome hm.linked inference with ⟨places, hfirst, h⟩ | ⟨h, hnone⟩ | ⟨h, _⟩
    · rcases inOrder_outcome hm'.linked inference' with
        ⟨places', hfirst', h'⟩ | ⟨h', hnone'⟩ | ⟨h', _⟩
      · rw [h, h', (hfirst.of_perm hvars hperm).unique hfirst', Model.atPlaces_congr hvars]
      · exact absurd (hfirst.solves.satisfies.of_perm hvars hperm) (hnone' _)
      · exact absurd h' hdefined'
    · rcases inOrder_outcome hm'.linked inference' with
        ⟨places', hfirst', h'⟩ | ⟨h', hnone'⟩ | ⟨h', _⟩
      · exact absurd (hfirst'.solves.satisfies.of_perm hvars.symm hperm.symm) (hnone _)
      · rw [h, h']
      · exact absurd h' hdefined'
    · exact absurd h hdefined

/-- Three numbers, of which the second is below the first and the third is another than the first;
`constraints` is the order in which this is said. -/
def threeNumbers (constraints : List (BuildCall Nat)) : Model Nat :=
  .build ([.addVariable "x" #[1, 2, 3], .addVariable "y" #[1, 2, 3], .addVariable "z" #[1, 2, 3]] ++
    constraints)
where
  below : Relation Nat := { holds := fun y x => y < x }
  less : BuildCall Nat := .addConstraint 1 0 below
  other : BuildCall Nat := .addAllDifferent [0, 2]

/-- Nothing is below 1, so the first solution begins with 2, in whatever order it is asked for and
whatever is inferred. -/
theorem threeNumbers_firstSolution :
    (threeNumbers [threeNumbers.less, threeNumbers.other]).Built ∧
    (threeNumbers [threeNumbers.less, threeNumbers.other]).Total ∧
    (threeNumbers [threeNumbers.other, threeNumbers.less]).constraints.toList.Perm
      (threeNumbers [threeNumbers.less, threeNumbers.other]).constraints.toList ∧
    ∀ inference, (backtrackingSearch (threeNumbers [threeNumbers.other, threeNumbers.less])
      (.inOrder inference)).solution = .solved ⟨#[some 2, some 1, some 1]⟩ := by
  have hm : (threeNumbers [threeNumbers.less, threeNumbers.other]).Built := Model.built_build _
  have hm' : (threeNumbers [threeNumbers.other, threeNumbers.less]).Built := Model.built_build _
  have hconstraints : (threeNumbers [threeNumbers.less, threeNumbers.other]).constraints.toList =
      [⟨1, 0, threeNumbers.below⟩, ⟨0, 2, .unequal⟩] := by cbv
  have hconstraints' : (threeNumbers [threeNumbers.other, threeNumbers.less]).constraints.toList =
      [⟨0, 2, .unequal⟩, ⟨1, 0, threeNumbers.below⟩] := by cbv
  have hvars : (threeNumbers [threeNumbers.other, threeNumbers.less]).vars =
      (threeNumbers [threeNumbers.less, threeNumbers.other]).vars := by cbv
  have hperm : (threeNumbers [threeNumbers.other, threeNumbers.less]).constraints.toList.Perm
      (threeNumbers [threeNumbers.less, threeNumbers.other]).constraints.toList := by
    rw [hconstraints, hconstraints']
    exact .swap _ _ _
  have ht : (threeNumbers [threeNumbers.less, threeNumbers.other]).Total := by
    intro c hc
    rw [hconstraints] at hc
    rcases List.mem_pair.1 hc with rfl | rfl <;> rfl
  have ht' : (threeNumbers [threeNumbers.other, threeNumbers.less]).Total :=
    fun c hc => ht c (hperm.mem_iff.1 hc)
  have hplain : (backtrackingSearch (threeNumbers [threeNumbers.less, threeNumbers.other])
      (.inOrder .nothing)).solution = .solved ⟨#[some 2, some 1, some 1]⟩ := by cbv
  obtain ⟨hdefined, -, hsame⟩ := inOrder_firstSolution hm
  have hdefined' := (inOrder_firstSolution hm').1 ht'
  refine ⟨hm, ht, hperm, fun inference => ?_⟩
  rw [hsame _ hm' hvars hperm .nothing inference (hdefined ht .nothing) (hdefined' inference),
    hplain]

end ProblemSolving
