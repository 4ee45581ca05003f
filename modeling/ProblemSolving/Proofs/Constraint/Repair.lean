import ProblemSolving.Constraint.MinConflicts
import ProblemSolving.Proofs.Constraint.Backtracking
import ProblemSolving.Proofs.Random.Draws

/-!
# Starts and steps of a repair

* `Model.Placed` : places that exist, one for each variable but some.
* `mem_leastConflictPlaces_iff` : the places with the fewest conflicts.
* `Model.Yields` : of what may be undefined, it is only if some relation is.
* `greedyStart_always`, `reassign_always`, `restart_always` : what starts and steps come to, whatever
  is drawn.
* `Placed.satisfies`, `chooseConflicted_always` : where no variable is in conflict, every constraint
  holds.
-/

namespace ProblemSolving

variable {ν ρ : Type} [RandomSource ρ] {m : Model ν}

/-- Assigned places exist, and every variable has one but for some. -/
structure Model.Placed (m : Model ν) (current : Array (Option Nat)) (others : List Nat) : Prop where
  size_eq : current.size = m.size
  lt_size : ∀ v ix, current[v]? = some (some ix) → ix < (m.domain v).size
  complete : ∀ v, v ∉ others → current[v]? ≠ some none

theorem Model.placed_replicate (m : Model ν) :
    m.Placed (Array.replicate m.size none) (List.range m.size) where
  size_eq := Array.size_replicate
  lt_size := m.consistent_replicate.lt_size
  complete v hv := by
    rw [List.mem_range] at hv
    rw [Array.getElem?_replicate, if_neg hv]
    exact nofun

theorem Model.Placed.assign {current : Array (Option Nat)} {others rest : List Nat} {v ix : Nat}
    (h : m.Placed current others) (hrest : others ⊆ v :: rest) (hv : v < m.size)
    (hix : ix < (m.domain v).size) : m.Placed (current.setIfInBounds v (some ix)) rest where
  size_eq := Array.size_setIfInBounds.trans h.size_eq
  lt_size w jx hw := by
    by_cases hwv : v = w
    · subst hwv
      rw [Array.getElem?_setIfInBounds_self_of_lt (by rwa [h.size_eq])] at hw
      cases hw
      exact hix
    · rw [Array.getElem?_setIfInBounds_ne hwv] at hw
      exact h.lt_size w jx hw
  complete w hw := by
    by_cases hwv : v = w
    · subst hwv
      rw [Array.getElem?_setIfInBounds_self_of_lt (by rwa [h.size_eq])]
      exact nofun
    · rw [Array.getElem?_setIfInBounds_ne hwv]
      exact h.complete w fun hmem => hw ((List.mem_cons.1 (hrest hmem)).resolve_left (Ne.symm hwv))

theorem Model.Placed.exists_place {current : Array (Option Nat)} (h : m.Placed current []) {v : Nat}
    (hv : v < m.size) : ∃ ix, current[v]? = some (some ix) := by
  obtain ⟨place, hplace⟩ : ∃ place, current[v]? = some place :=
    ⟨_, Array.getElem?_eq_getElem (by rwa [h.size_eq])⟩
  cases place with
  | none => exact absurd hplace (h.complete v List.not_mem_nil)
  | some ix => exact ⟨ix, hplace⟩

/-! ## The places with the fewest conflicts -/

theorem mem_leastPlaces_iff {counts : List Nat} {ix : Nat} :
    ix ∈ (counts.zipIdx.filter fun (count, _) => count == counts.min?.getD 0).map (·.2) ↔
      ∃ least, counts[ix]? = some least ∧ ∀ count ∈ counts, least ≤ count := by
  rw [List.mem_map]
  constructor
  · rintro ⟨⟨least, jx⟩, hfiltered, rfl⟩
    obtain ⟨hplace, hleast⟩ := List.mem_filter.1 hfiltered
    have hplace := List.mk_mem_zipIdx_iff_getElem?.1 hplace
    obtain ⟨attained, hattained⟩ : ∃ attained, counts.min? = some attained :=
      Option.ne_none_iff_exists'.1 fun hnone =>
        List.ne_nil_of_mem (List.mem_of_getElem? hplace) (List.min?_eq_none_iff.1 hnone)
    rw [hattained] at hleast
    obtain rfl : least = attained := beq_iff_eq.1 hleast
    exact ⟨least, hplace, (List.min?_eq_some_iff.1 hattained).2⟩
  · rintro ⟨least, hplace, hle⟩
    have hmin : counts.min? = some least :=
      List.min?_eq_some_iff.2 ⟨List.mem_of_getElem? hplace, hle⟩
    exact ⟨(least, ix), List.mem_filter.2
      ⟨List.mk_mem_zipIdx_iff_getElem?.2 hplace, by rw [hmin]; exact beq_self_eq_true least⟩, rfl⟩

theorem mem_leastConflictPlaces_iff {current : Array (Option Nat)} {v ix : Nat} :
    ix ∈ leastConflictPlaces m current v ↔ ix < (m.domain v).size ∧
      ∀ jx < (m.domain v).size, m.conflictsAt current v ix ≤ m.conflictsAt current v jx := by
  unfold leastConflictPlaces
  rw [mem_leastPlaces_iff]
  simp only [List.forall_mem_map, List.mem_range]
  constructor
  · rintro ⟨least, hplace, hle⟩
    rw [List.getElem?_map, Option.map_eq_some_iff] at hplace
    obtain ⟨jx, hjx, rfl⟩ := hplace
    obtain ⟨hlt, rfl⟩ := List.getElem?_eq_some_iff.1 hjx
    rw [List.getElem_range] at hle
    exact ⟨by simpa using hlt, hle⟩
  · rintro ⟨hix, hle⟩
    exact ⟨_, by rw [List.getElem?_map, List.getElem?_range hix]; rfl, hle⟩

theorem leastConflictPlaces_ne_nil {current : Array (Option Nat)} {v : Nat}
    (hv : 0 < (m.domain v).size) : leastConflictPlaces m current v ≠ [] := by
  obtain ⟨ix, hix, hle⟩ := Finset.exists_min_image (Finset.range (m.domain v).size)
    (m.conflictsAt current v) ⟨0, Finset.mem_range.2 hv⟩
  exact List.ne_nil_of_mem (mem_leastConflictPlaces_iff.2
    ⟨Finset.mem_range.1 hix, fun jx hjx => hle jx (Finset.mem_range.2 hjx)⟩)

/-! ## Starts and steps -/

/-- What is drawn has a property; it is undefined only if some relation is. -/
def Model.Yields {α : Type} (m : Model ν) (p : α → Prop) : Option α → Prop
  | none => ¬ m.Total
  | some x => p x

omit [RandomSource ρ] in
theorem Model.Yields.bind {α β : Type} {act : Draw ρ (Option α)} {next : Option α → Draw ρ β}
    {p : α → Prop} {q : β → Prop} (hact : act.Always (m.Yields p))
    (hnone : ¬ m.Total → (next none).Always q) (hsome : ∀ x, p x → (next (some x)).Always q) :
    (act >>= next).Always q := by
  refine hact.bind fun x hx => ?_
  cases x with
  | none => exact hnone hx
  | some x => exact hsome x hx

section Steps
variable (hm : m.Linked) (hvalues : ∀ v < m.size, 0 < (m.domain v).size)

theorem not_total_of_canPlace (hm : m.Linked) {current : Array (Option Nat)} {v : Nat}
    (h : canPlace m current v = false) : ¬ m.Total := by
  intro ht
  unfold canPlace at h
  rw [hm.canCountAll ht] at h
  cases h

include hvalues

theorem leastConflictPlace_always (current : Array (Option Nat)) {v : Nat} (hv : v < m.size) :
    Draw.Always (leastConflictPlace m current v : Draw ρ Nat)
      (· ∈ leastConflictPlaces m current v) := by
  refine (Draw.choose_always _).bind fun place hplace => .pure ?_
  cases place with
  | none => exact absurd hplace (leastConflictPlaces_ne_nil (hvalues v hv))
  | some ix => exact hplace

include hm

theorem assignGreedily_always : ∀ (vs : List Nat) (current : Array (Option Nat)),
    (∀ v ∈ vs, v < m.size) → m.Placed current vs →
    Draw.Always (assignGreedily m vs current : Draw ρ (Option (Array (Option Nat))))
      (m.Yields fun current' => m.Placed current' [])
  | [], _, _, h => .pure h
  | v :: rest, current, hvs, h => by
    rw [assignGreedily]
    split
    · rename_i hcan
      exact .pure (not_total_of_canPlace hm (by simpa using hcan))
    · have hv := hvs v List.mem_cons_self
      refine (leastConflictPlace_always hvalues current hv).bind fun ix hix => ?_
      exact assignGreedily_always rest _ (fun w hw => hvs w (List.mem_cons_of_mem _ hw))
        (h.assign (List.Subset.refl _) hv (mem_leastConflictPlaces_iff.1 hix).1)

theorem greedyStart_always :
    Draw.Always (greedyStart m : Draw ρ (Option (Array (Option Nat))))
      (m.Yields fun current => m.Placed current []) :=
  assignGreedily_always hm hvalues _ _ (fun _ => List.mem_range.1) m.placed_replicate

theorem reassign_always (s : Repair) {v : Nat} (hv : v < m.size) :
    Draw.Always (s.reassign m v : Draw ρ (Option Repair))
      (m.Yields fun s' => ∃ ix ∈ leastConflictPlaces m s.current v,
        s' = { s with
          current := s.current.setIfInBounds v (some ix), stalled := s.stalled + 1 }) := by
  unfold Repair.reassign
  split
  · rename_i hcan
    exact .pure (not_total_of_canPlace hm (by simpa using hcan))
  · exact (leastConflictPlace_always hvalues s.current hv).bind fun ix hix =>
      .pure ⟨ix, hix, rfl⟩

theorem restart_always (s : Repair) :
    Draw.Always (s.restart m : Draw ρ (Option Repair))
      (m.Yields fun s' => ∃ current, m.Placed current [] ∧
        s' = ⟨current, none, 0, s.restarts + 1⟩) := by
  refine (greedyStart_always hm hvalues).bind fun current hcurrent => .pure ?_
  cases current with
  | none => exact hcurrent
  | some current => exact ⟨current, hcurrent, rfl⟩

end Steps

/-! ## Where nothing is in conflict -/

/-- Where no variable is in conflict, and that is decided, every constraint holds. -/
theorem Model.Placed.satisfies (hm : m.Linked) {current : Array (Option Nat)}
    (h : m.Placed current []) (hjudge : canJudge m current = true)
    (hnone : conflicted m current = []) : (m.materialize current).Satisfies m := by
  have hc : m.Consistent current := by
    refine ⟨h.size_eq, h.lt_size, fun a x b y hx hy => ?_⟩
    obtain ⟨ix, hplace, hvalue⟩ := exists_of_valueAt? hx
    have ha : a ∈ List.range m.size := by
      rw [List.mem_range, ← h.size_eq]
      exact (Array.getElem?_eq_some_iff.1 hplace).1
    have hcan := List.all_eq_true.1 hjudge a ha
    have hconflicts := List.filter_eq_nil_iff.1 hnone a ha
    rw [hplace] at hcan hconflicts
    exact agree_of_conflictsAt hm hvalue hcan (by simpa using hconflicts) hy
  exact hc.satisfies hm fun v => h.complete v List.not_mem_nil

/-- A variable is chosen from those in conflict; none is only where the model is satisfied. -/
theorem chooseConflicted_always (hm : m.Linked) {current : Array (Option Nat)}
    (h : m.Placed current []) :
    Draw.Always (chooseConflicted m current : Draw ρ (Option (Option Nat))) (m.Yields fun
      | none => (m.materialize current).Satisfies m
      | some v => v ∈ conflicted m current) := by
  unfold chooseConflicted
  split
  · rename_i hjudge
    refine (Draw.choose_always _).bind fun choice hchoice => .pure ?_
    cases choice with
    | none => exact h.satisfies hm hjudge hchoice
    | some v => exact hchoice
  · rename_i hjudge
    refine .pure fun ht => hjudge (List.all_eq_true.2 fun v _ => ?_)
    split
    · exact hm.canCount ht _ _ _
    · rfl

theorem lt_size_of_mem_conflicted {current : Array (Option Nat)} {v : Nat}
    (h : v ∈ conflicted m current) : v < m.size :=
  List.mem_range.1 (List.mem_filter.1 h).1

theorem Model.size_domain_pos (m : Model ν) (h : m.vars.any (·.domain.isEmpty) = false) {v : Nat}
    (hv : v < m.size) : 0 < (m.domain v).size := by
  have hdomain : m.domain v = m.vars[v].domain := by
    rw [domain, domain?, Array.getElem?_eq_getElem hv]
    rfl
  have hvalue := Array.any_eq_false.1 h v hv
  rw [hdomain, Array.size_pos_iff]
  simpa using hvalue

end ProblemSolving
