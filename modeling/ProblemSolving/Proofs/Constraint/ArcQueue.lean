import ProblemSolving.Proofs.Constraint.Backtracking

/-!
# Propagation from a queue of arcs

* `propagateWithin`, `propagateWithin_eq` : propagation ends, within a number of rounds that is
  bounded by the queue, the live values and the variables.
* `Model.Rests`, `Model.Rests.revise` : an arc that does not wait has support, and every round keeps
  this, though it does not queue the arc back; `Model.Settled` : all arcs rest.
* `propagate_induct_arcs` : what each round of a run over arcs of the model hands on.
* `propagate_rests`, `propagate_settled`, `propagate_leaves`, `propagate_wipes` : what such a run ends
  with.
-/

namespace ProblemSolving

variable {ν : Type} {m : Model ν}

/-! ## Rounds -/

/-- Propagation for at most a number of rounds, each of which takes one arc from the queue. Nothing
comes of it if arcs still wait after that. -/
def propagateWithin (m : Model ν) :
    (rounds : Nat) → Domains → List Arc → Option (Domains × PropagationVerdict)
  | _, d, [] => some (d, .consistent)
  | 0, _, _ :: _ => none
  | rounds + 1, d, (xi, xj) :: queue =>
    if d.isForeignArc (xi, xj) then some (d, .foreign)
    else if !canRevise m d xi xj then some (d, .undefined)
    else match revise m d xi xj with
    | (d, false) => propagateWithin m rounds d queue
    | (d, true) =>
      if d.isWipedOut xi then some (d, .wipedOut)
      else propagateWithin m rounds d (queue ++ m.arcsTo xi xj)

theorem liveCount_revise_lt {d : Domains} {xi xj : Nat} (h : unsupported m d xi xj ≠ []) :
    (revise m d xi xj).1.liveCount < d.liveCount := by
  obtain ⟨x, rest, hdoomed⟩ := List.exists_cons_of_ne_nil h
  have halive : d.isAlive xi x = true :=
    Domains.isAlive_of_mem_indices (mem_indices_of_mem_unsupported (hdoomed ▸ List.mem_cons_self))
  show (d.pruneAll xi (unsupported m d xi xj)).liveCount < d.liveCount
  rw [hdoomed]
  exact Domains.liveCount_pruneAll_lt halive

theorem revise_of_ne_nil {d : Domains} {xi xj : Nat} (h : unsupported m d xi xj ≠ []) :
    revise m d xi xj = ((revise m d xi xj).1, true) := by
  refine Prod.ext rfl ?_
  simpa [revise] using h

theorem propagateWithin_cons {d : Domains} {xi xj : Nat} (harc : Revisable m d xi xj)
    (rounds : Nat) (queue : List Arc) :
    propagateWithin m (rounds + 1) d ((xi, xj) :: queue) =
      match revise m d xi xj with
      | (d, false) => propagateWithin m rounds d queue
      | (d, true) =>
        if d.isWipedOut xi then some (d, .wipedOut)
        else propagateWithin m rounds d (queue ++ m.arcsTo xi xj) := by
  rw [propagateWithin, if_neg (by rw [harc.present]; decide), if_neg (by rw [harc.defined]; decide)]

theorem Model.Linked.length_arcsTo_le (hm : m.Linked) (xi xj : Nat) :
    (m.arcsTo xi xj).length ≤ m.size := by
  have hsub : m.neighbors xi ⊆ List.range m.size :=
    fun xk hk => List.mem_range.2 (hm.lt_size_of_mem_neighbors hk).2.1
  calc (m.arcsTo xi xj).length = ((m.neighbors xi).filter (· != xj)).length := List.length_map _
    _ ≤ (m.neighbors xi).length := List.length_filter_le _ _
    _ ≤ (List.range m.size).length := (List.subperm_of_subset (hm.nodup xi) hsub).length_le
    _ = m.size := List.length_range

/-- Propagation ends, since a round shortens the queue or trades live values for arcs of one
variable. -/
theorem propagateWithin_eq (hm : m.Linked) (d : Domains) (queue : List Arc) {rounds : Nat}
    (h : queue.length + d.liveCount * m.size ≤ rounds) :
    propagateWithin m rounds d queue = some (propagate m d queue) := by
  have hpos : ∀ {d : Domains} {arc : Arc} {queue : List Arc} {rounds : Nat},
      (arc :: queue).length + d.liveCount * m.size ≤ rounds →
      ∃ left, rounds = left + 1 ∧ queue.length + d.liveCount * m.size ≤ left := by
    intro d arc queue rounds h
    rw [List.length_cons] at h
    exact ⟨rounds - 1, by omega, by omega⟩
  refine propagate_induct (m := m)
    (q := fun d queue r => ∀ rounds, queue.length + d.liveCount * m.size ≤ rounds →
      propagateWithin m rounds d queue = some r)
    ?done ?foreign ?undecided ?settled ?wiped ?revised d queue rounds h
  case done =>
    intro d rounds _
    unfold propagateWithin
    rfl
  case foreign =>
    intro d xi xj queue hforeign rounds h
    obtain ⟨left, rfl, -⟩ := hpos h
    rw [propagateWithin, if_pos hforeign]
  case undecided =>
    intro d xi xj queue hpresent hcan rounds h
    obtain ⟨left, rfl, -⟩ := hpos h
    simp only [propagateWithin, hpresent, hcan, Bool.not_false, Bool.false_eq_true, if_false, if_true]
  case settled =>
    intro d xi xj queue r harc hnone ih rounds h
    obtain ⟨left, rfl, hleft⟩ := hpos h
    have hrevise : revise m d xi xj = (d, false) := by
      unfold revise
      rw [hnone]
      rfl
    rw [propagateWithin_cons harc, hrevise]
    exact ih left hleft
  case wiped =>
    intro d xi xj queue harc hsome hwiped rounds h
    obtain ⟨left, rfl, -⟩ := hpos h
    rw [propagateWithin_cons harc, revise_of_ne_nil hsome]
    exact if_pos hwiped
  case revised =>
    intro d xi xj queue r harc hsome hwiped ih rounds h
    obtain ⟨left, rfl, hleft⟩ := hpos h
    rw [propagateWithin_cons harc, revise_of_ne_nil hsome]
    dsimp only
    rw [if_neg (by rw [hwiped]; decide)]
    apply ih left
    -- the arcs that join the queue are paid for by a live value
    have hlive : ((revise m d xi xj).1.liveCount + 1) * m.size ≤ d.liveCount * m.size :=
      Nat.mul_le_mul_right _ (liveCount_revise_lt hsome)
    have harcs := hm.length_arcsTo_le xi xj
    rw [Nat.add_mul, Nat.one_mul] at hlive
    rw [List.length_append]
    omega

/-! ## Support -/

theorem unsupported_eq_nil_iff {d : Domains} {a b : Nat} :
    unsupported m d a b = [] ↔ ∀ x, d.isAlive a x = true →
      ∃ y, d.isAlive b y = true ∧ m.compatible a x b y = true := by
  unfold unsupported supported
  rw [List.filter_eq_nil_iff]
  simp only [Domains.mem_indices_iff, Bool.not_eq_true', Bool.not_eq_false, List.any_eq_true]

theorem isAlive_revise {d : Domains} {xi xj v ix : Nat} :
    (revise m d xi xj).1.isAlive v ix = true ↔ d.isAlive v ix = true ∧
      (v = xi → ∃ y, d.isAlive xj y = true ∧ m.compatible xi ix xj y = true) := by
  unfold revise
  rw [Domains.isAlive_pruneAll, Bool.and_eq_true]
  refine and_congr_right fun halive => ?_
  by_cases hv : v = xi
  · subst hv
    simp [unsupported, supported, Domains.mem_indices_iff, halive]
  · simp [hv]

namespace Model

theorem Linked.compatible_comm (hm : m.Linked) (a x b y : Nat) :
    m.compatible a x b y = m.compatible b y a x := by
  unfold compatible
  cases (m.domain a)[x]? <;> cases (m.domain b)[y]? <;> simp [hm.consistent_comm a]

theorem Linked.mem_allArcs_iff (hm : m.Linked) {arc : Arc} :
    arc ∈ m.allArcs ↔ arc.2 ∈ m.neighbors arc.1 := by
  obtain ⟨a, b⟩ := arc
  unfold allArcs
  simp only [List.mem_flatMap, List.mem_range, List.mem_map, Prod.mk.injEq]
  constructor
  · rintro ⟨_, -, _, hb, rfl, rfl⟩
    exact hb
  · intro hb
    exact ⟨a, (hm.lt_size_of_mem_neighbors hb).1, b, hb, rfl, rfl⟩

/-- Every arc that does not wait in the queue has support for all live values. -/
def Settled (m : Model ν) (d : Domains) (queue : List Arc) : Prop :=
  ∀ a b, b ∈ m.neighbors a → (a, b) ∉ queue → unsupported m d a b = []

theorem Linked.isArcConsistent_iff (hm : m.Linked) {d : Domains} :
    isArcConsistent m d = true ↔ m.Settled d [] := by
  have hall : isArcConsistent m d = true ↔
      ∀ arc ∈ m.allArcs, ∀ x ∈ d.indices arc.1, supported m d arc.1 x arc.2 = true := by
    unfold isArcConsistent
    simp only [List.all_eq_true]
  have hnil : ∀ a b, unsupported m d a b = [] ↔
      ∀ x ∈ d.indices a, supported m d a x b = true := by
    intro a b
    simp [unsupported]
  rw [hall]
  constructor
  · intro h a b hb _
    exact (hnil a b).2 (h (a, b) (hm.mem_allArcs_iff.2 hb))
  · intro h arc harc
    exact (hnil arc.1 arc.2).1 (h arc.1 arc.2 (hm.mem_allArcs_iff.1 harc) List.not_mem_nil)

/-- An arc waits in the queue, or has support for all live values. -/
def Rests (m : Model ν) (d : Domains) (queue : List Arc) (a b : Nat) : Prop :=
  (a, b) ∉ queue → unsupported m d a b = []

theorem Rests.skip {d : Domains} {xi xj a b : Nat} {queue : List Arc}
    (h : m.Rests d ((xi, xj) :: queue) a b) (hnone : unsupported m d xi xj = []) :
    m.Rests d queue a b := by
  intro hqueue
  by_cases harc : (a, b) = (xi, xj)
  · obtain ⟨rfl, rfl⟩ := Prod.mk.inj harc
    exact hnone
  · exact h (by simp [harc, hqueue])

/-- Of the arcs to a revised variable only the arc back need not wait again. -/
theorem Linked.eq_of_not_mem_arcsTo (hm : m.Linked) {a xi xj : Nat} (ha : xi ∈ m.neighbors a)
    (harcs : (a, xi) ∉ m.arcsTo xi xj) : a = xj := by
  by_contra hother
  refine harcs (List.mem_map.2 ⟨a, ?_, rfl⟩)
  exact List.mem_filter.2 ⟨hm.mem_neighbors_comm.1 ha, by simpa using hother⟩

/-- After a revision only the arcs to the revised variable have to wait again, but for the arc
back: a value of `xj` has lost no support, for what supported it had support itself. -/
theorem Rests.revise (hm : m.Linked) {d : Domains} {xi xj a b : Nat} {queue : List Arc}
    (h : m.Rests d ((xi, xj) :: queue) a b) (hb : b ∈ m.neighbors a) (hj : xj ∈ m.neighbors xi) :
    m.Rests (revise m d xi xj).1 (queue ++ m.arcsTo xi xj) a b := by
  have hne : xi ≠ xj := (hm.lt_size_of_mem_neighbors hj).2.2
  intro hqueue
  rw [unsupported_eq_nil_iff]
  intro x hx
  rw [isAlive_revise] at hx
  obtain ⟨hx, hsupport⟩ := hx
  rw [List.mem_append, not_or] at hqueue
  obtain ⟨hqueue, harcs⟩ := hqueue
  by_cases harc : (a, b) = (xi, xj)
  · obtain ⟨rfl, rfl⟩ := Prod.mk.inj harc
    obtain ⟨y, hy, hcompatible⟩ := hsupport rfl
    exact ⟨y, isAlive_revise.2 ⟨hy, fun heq => absurd heq hne.symm⟩, hcompatible⟩
  obtain ⟨y, hy, hcompatible⟩ := unsupported_eq_nil_iff.1 (h (by simp [harc, hqueue])) x hx
  refine ⟨y, isAlive_revise.2 ⟨hy, ?_⟩, hcompatible⟩
  rintro rfl
  obtain rfl := hm.eq_of_not_mem_arcsTo hb harcs
  exact ⟨x, hx, by rwa [hm.compatible_comm]⟩

end Model

/-! ## Runs from a queue of arcs -/

theorem Domains.BelongsTo.not_isForeignArc {d : Domains} (hd : d.BelongsTo m) (hm : m.Linked)
    {xi xj : Nat} (hj : xj ∈ m.neighbors xi) : d.isForeignArc (xi, xj) = false := by
  obtain ⟨hi, hj, -⟩ := hm.lt_size_of_mem_neighbors hj
  unfold Domains.isForeignArc
  rw [hd.covers hi, hd.covers hj]
  simp

section Runs
variable (hm : m.Linked)
include hm

/-- What each round of a run over arcs of the model hands on. -/
theorem propagate_induct_arcs
    {q : Domains → List Arc → Domains × PropagationVerdict → Prop}
    (done : ∀ d, q d [] (d, .consistent))
    (undecided : ∀ d xi xj queue, canRevise m d xi xj = false →
      q d ((xi, xj) :: queue) (d, .undefined))
    (settled : ∀ d xi xj queue r, unsupported m d xi xj = [] → q d queue r →
      q d ((xi, xj) :: queue) r)
    (wiped : ∀ d xi xj queue, unsupported m d xi xj ≠ [] →
      (∀ ix, (revise m d xi xj).1.isAlive xi ix = false) →
      q d ((xi, xj) :: queue) ((revise m d xi xj).1, .wipedOut))
    (revised : ∀ d xi xj queue r, xj ∈ m.neighbors xi →
      (∃ ix, (revise m d xi xj).1.isAlive xi ix = true) →
      q (revise m d xi xj).1 (queue ++ m.arcsTo xi xj) r → q d ((xi, xj) :: queue) r)
    {d : Domains} {queue : List Arc} (hd : d.BelongsTo m)
    (hq : ∀ arc ∈ queue, arc.2 ∈ m.neighbors arc.1) : q d queue (propagate m d queue) := by
  have hwipedOut : ∀ {d : Domains} {xi xj : Nat}, d.BelongsTo m → xj ∈ m.neighbors xi →
      ((revise m d xi xj).1.isWipedOut xi = true ↔
        ∀ ix, (revise m d xi xj).1.isAlive xi ix = false) := by
    intro d xi xj hd hj
    have hd' : (revise m d xi xj).1.BelongsTo m := hd.pruneAll xi (unsupported m d xi xj)
    exact hd'.counted.isWipedOut_iff (hd'.covers (hm.lt_size_of_mem_neighbors hj).1)
  refine propagate_induct (m := m)
    (q := fun d queue r => d.BelongsTo m → (∀ arc ∈ queue, arc.2 ∈ m.neighbors arc.1) →
      q d queue r) ?done ?foreign ?undecided ?settled ?wiped ?revised d queue hd hq
  case done => exact fun d _ _ => done d
  case foreign =>
    intro d xi xj queue hforeign hd hq
    rw [hd.not_isForeignArc hm (hq _ List.mem_cons_self)] at hforeign
    contradiction
  case undecided => exact fun d xi xj queue _ hcan _ _ => undecided d xi xj queue hcan
  case settled =>
    intro d xi xj queue r _ hnone ih hd hq
    exact settled d xi xj queue r hnone (ih hd fun arc h => hq arc (List.mem_cons_of_mem _ h))
  case wiped =>
    intro d xi xj queue _ hsome hwiped hd hq
    exact wiped d xi xj queue hsome ((hwipedOut hd (hq _ List.mem_cons_self)).1 hwiped)
  case revised =>
    intro d xi xj queue r _ _ hwiped ih hd hq
    have hj := hq _ List.mem_cons_self
    have hlive : ∃ ix, (revise m d xi xj).1.isAlive xi ix = true := by
      by_contra hnone
      have hdead := (hwipedOut hd hj).2 fun ix => by
        simpa using fun h => hnone ⟨ix, h⟩
      rw [hwiped] at hdead
      contradiction
    refine revised d xi xj queue r hj hlive (ih (hd.pruneAll xi _) ?_)
    intro arc h
    rcases List.mem_append.1 h with h | h
    · exact hq arc (List.mem_cons_of_mem _ h)
    · exact mem_arcsTo hm h

theorem propagate_ne_foreign {d : Domains} (hd : d.BelongsTo m) {queue : List Arc}
    (hq : ∀ arc ∈ queue, arc.2 ∈ m.neighbors arc.1) : (propagate m d queue).2 ≠ .foreign :=
  propagate_induct_arcs hm (q := fun _ _ r => r.2 ≠ .foreign) (fun _ => nofun)
    (fun _ _ _ _ _ => nofun) (fun _ _ _ _ _ _ ih => ih) (fun _ _ _ _ _ _ => nofun)
    (fun _ _ _ _ _ _ _ ih => ih) hd hq

/-- A run that ends in consistent domains leaves support for all live values of an arc that waited
or had it. -/
theorem propagate_rests {d : Domains} (hd : d.BelongsTo m) {queue : List Arc}
    (hq : ∀ arc ∈ queue, arc.2 ∈ m.neighbors arc.1) {a b : Nat} (hb : b ∈ m.neighbors a)
    (hrests : m.Rests d queue a b) (h : (propagate m d queue).2 = .consistent) :
    unsupported m (propagate m d queue).1 a b = [] := by
  refine propagate_induct_arcs hm
    (q := fun d queue r => m.Rests d queue a b → r.2 = .consistent → unsupported m r.1 a b = [])
    ?_ ?_ ?_ ?_ ?_ hd hq hrests h
  · exact fun d hrests _ => hrests List.not_mem_nil
  · exact fun d xi xj queue _ _ => nofun
  · intro d xi xj queue r hnone ih hrests
    exact ih (hrests.skip hnone)
  · exact fun d xi xj queue _ _ _ => nofun
  · intro d xi xj queue r hj _ ih hrests
    exact ih (hrests.revise hm hb hj)

/-- A run that ends in consistent domains has settled every arc. -/
theorem propagate_settled {d : Domains} (hd : d.BelongsTo m) {queue : List Arc}
    (hq : ∀ arc ∈ queue, arc.2 ∈ m.neighbors arc.1) (hsettled : m.Settled d queue)
    (h : (propagate m d queue).2 = .consistent) : m.Settled (propagate m d queue).1 [] :=
  fun a b hb _ => propagate_rests hm hd hq hb (hsettled a b hb) h

/-- A run that ends in consistent domains has left every variable a value that had one. -/
theorem propagate_leaves {d : Domains} (hd : d.BelongsTo m) {queue : List Arc}
    (hq : ∀ arc ∈ queue, arc.2 ∈ m.neighbors arc.1)
    (h : (propagate m d queue).2 = .consistent) {v ix : Nat} (hlive : d.isAlive v ix = true) :
    ∃ jx, (propagate m d queue).1.isAlive v jx = true := by
  refine propagate_induct_arcs hm
    (q := fun d _ r => r.2 = .consistent → ∀ ix, d.isAlive v ix = true →
      ∃ jx, r.1.isAlive v jx = true) ?_ ?_ ?_ ?_ ?_ hd hq h ix hlive
  · exact fun d _ ix hlive => ⟨ix, hlive⟩
  · exact fun d xi xj queue _ => nofun
  · exact fun d xi xj queue r _ ih => ih
  · exact fun d xi xj queue _ _ => nofun
  · rintro d xi xj queue r - ⟨jx, hjx⟩ ih h ix hlive
    by_cases hv : v = xi
    · subst hv
      exact ih h jx hjx
    · exact ih h ix (isAlive_revise.2 ⟨hlive, fun heq => absurd heq hv⟩)

/-- A run that is wiped out has taken the last value of some variable. -/
theorem propagate_wipes {d : Domains} (hd : d.BelongsTo m) {queue : List Arc}
    (hq : ∀ arc ∈ queue, arc.2 ∈ m.neighbors arc.1) (h : (propagate m d queue).2 = .wipedOut) :
    ∃ v, (∃ ix, d.isAlive v ix = true) ∧ ∀ ix, (propagate m d queue).1.isAlive v ix = false := by
  refine propagate_induct_arcs hm
    (q := fun d _ r => r.2 = .wipedOut → ∃ v, (∃ ix, d.isAlive v ix = true) ∧
      ∀ ix, r.1.isAlive v ix = false) ?_ ?_ ?_ ?_ ?_ hd hq h
  · exact fun d => nofun
  · exact fun d xi xj queue _ => nofun
  · exact fun d xi xj queue r _ ih => ih
  · intro d xi xj queue hsome hdead _
    obtain ⟨x, rest, hdoomed⟩ := List.exists_cons_of_ne_nil hsome
    have hx : x ∈ d.indices xi := mem_indices_of_mem_unsupported (hdoomed ▸ List.mem_cons_self)
    exact ⟨xi, ⟨x, Domains.isAlive_of_mem_indices hx⟩, hdead⟩
  · intro d xi xj queue r _ _ ih h
    obtain ⟨v, ⟨ix, hlive⟩, hdead⟩ := ih h
    exact ⟨v, ⟨ix, (isAlive_revise.1 hlive).1⟩, hdead⟩

end Runs

end ProblemSolving
