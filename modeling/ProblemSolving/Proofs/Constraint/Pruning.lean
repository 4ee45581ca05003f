import ProblemSolving.Constraint.Backtracking
import ProblemSolving.Proofs.Constraint.Links
import ProblemSolving.Proofs.Constraint.LiveValues

/-!
# What inference may remove

* `Domains.BelongsTo` : the domains are those of a model, with some values removed.
* `propagate_induct` : induction over the rounds of a propagation.
* `propagate_preserves`, `checkNeighbors_preserves`, `infer_preserves` : what removals preserve,
  inference preserves.
* `Model.Sustains` : places of variables that support each other; propagation removes none of them
  (`propagate_keeps`).
* `Model.Fits` : a choice of compatible places; no inference removes a place of a choice that agrees
  with the assignment, nor does it wipe a variable out (`infer_keeps`).
* `infer_ne_undefined` : where every relation is defined for all values, inference is defined.
-/

namespace ProblemSolving

variable {ν : Type} {m : Model ν}

/-! ## The domains of a model -/

/-- The values that are alive are values of the variables of a model, and are counted. -/
structure Domains.BelongsTo (d : Domains) (m : Model ν) : Prop where
  counted : d.Counted
  size_alive : d.alive.size = m.size
  lt_size : ∀ v ix, d.isAlive v ix = true → ix < (m.domain v).size

theorem Domains.isAlive_full_iff (m : Model ν) (v ix : Nat) :
    (Domains.full m).isAlive v ix = true ↔ ix < (m.domain v).size := by
  rw [Domains.isAlive_eq_true_iff]
  unfold Domains.full Model.domain Model.domain?
  rw [Array.getElem?_map]
  cases m.vars[v]? with
  | none => simp
  | some x => simp [Array.getElem?_replicate]

theorem Domains.belongsTo_full (m : Model ν) : (Domains.full m).BelongsTo m where
  counted := Domains.counted_full m
  size_alive := Array.size_map
  lt_size v ix := (Domains.isAlive_full_iff m v ix).1

namespace Domains.BelongsTo

variable {d : Domains}

theorem covers (hd : d.BelongsTo m) {v : Nat} (hv : v < m.size) : d.covers v = true := by
  simpa [Domains.covers, hd.size_alive] using hv

theorem pruneAll (hd : d.BelongsTo m) (v : Nat) (places : List Nat) :
    (d.pruneAll v places).BelongsTo m where
  counted := hd.counted.pruneAll v places
  size_alive := (Domains.size_alive_pruneAll v places d).trans hd.size_alive
  lt_size w jx halive := by
    rw [Domains.isAlive_pruneAll, Bool.and_eq_true] at halive
    exact hd.lt_size w jx halive.1

theorem restrictTo (hd : d.BelongsTo m) (v ix : Nat) : (d.restrictTo v ix).BelongsTo m :=
  hd.pruneAll v _

theorem of_agrees {d' : Domains} (hd : d.BelongsTo m) (h : d'.Agrees d) : d'.BelongsTo m where
  counted := h.counted hd.counted
  size_alive := by rw [h.alive, hd.size_alive]
  lt_size v ix halive := hd.lt_size v ix (by rwa [← h.isAlive])

theorem isWipedOut_eq_false (hd : d.BelongsTo m) {v ix : Nat} (hv : v < m.size)
    (halive : d.isAlive v ix = true) : d.isWipedOut v = false := by
  cases h : d.isWipedOut v with
  | false => rfl
  | true =>
    have hdead := (hd.counted.isWipedOut_iff (hd.covers hv)).1 h ix
    rw [halive] at hdead
    cases hdead

end Domains.BelongsTo

/-! ## One round of propagation -/

/-- The variables of an arc are there, and it is defined which values have support. -/
structure Revisable (m : Model ν) (d : Domains) (xi xj : Nat) : Prop where
  present : d.isForeignArc (xi, xj) = false
  defined : canRevise m d xi xj = true

/-- A property of propagation that each round hands on. -/
theorem propagate_induct {q : Domains → List Arc → Domains × PropagationVerdict → Prop}
    (done : ∀ d, q d [] (d, .consistent))
    (foreign : ∀ d xi xj queue, d.isForeignArc (xi, xj) = true → q d ((xi, xj) :: queue) (d, .foreign))
    (undecided : ∀ d xi xj queue, d.isForeignArc (xi, xj) = false → canRevise m d xi xj = false →
      q d ((xi, xj) :: queue) (d, .undefined))
    (settled : ∀ d xi xj queue r, Revisable m d xi xj → unsupported m d xi xj = [] → q d queue r →
      q d ((xi, xj) :: queue) r)
    (wiped : ∀ d xi xj queue, Revisable m d xi xj → unsupported m d xi xj ≠ [] →
      (revise m d xi xj).1.isWipedOut xi = true →
      q d ((xi, xj) :: queue) ((revise m d xi xj).1, .wipedOut))
    (revised : ∀ d xi xj queue r, Revisable m d xi xj → unsupported m d xi xj ≠ [] →
      (revise m d xi xj).1.isWipedOut xi = false →
      q (revise m d xi xj).1 (queue ++ m.arcsTo xi xj) r → q d ((xi, xj) :: queue) r)
    (d : Domains) (queue : List Arc) : q d queue (propagate m d queue) := by
  induction d, queue using propagate.induct (m := m) with
  | case1 d => rw [propagate]; exact done d
  | case2 d xi xj queue hforeign =>
    rw [propagate, if_pos hforeign]
    exact foreign d xi xj queue hforeign
  | case3 d xi xj queue hforeign hcan =>
    rw [propagate, if_neg hforeign, if_pos hcan]
    exact undecided d xi xj queue (by simpa using hforeign) (by simpa using hcan)
  | case4 d xi xj queue hforeign hcan hnone ih =>
    have harc : Revisable m d xi xj := ⟨by simpa using hforeign, by simpa using hcan⟩
    rw [propagate, if_neg hforeign, if_neg hcan]
    split
    · exact settled d xi xj queue _ harc hnone ih
    · rename_i hsome
      rw [hnone] at hsome
      cases hsome
  | case5 d xi xj queue hforeign hcan x rest hsome d' hwiped =>
    have harc : Revisable m d xi xj := ⟨by simpa using hforeign, by simpa using hcan⟩
    have hrevise : (revise m d xi xj).1 = d' := congrArg (d.pruneAll xi) hsome
    have hround : propagate m d ((xi, xj) :: queue) = (d', .wipedOut) := by
      rw [propagate, if_neg hforeign, if_neg hcan]
      split
      · rename_i hnone
        rw [hsome] at hnone
        cases hnone
      · rename_i heq
        obtain ⟨rfl, rfl⟩ := List.cons.inj (hsome.symm.trans heq)
        exact if_pos hwiped
    have h := wiped d xi xj queue harc (by rw [hsome]; exact List.cons_ne_nil x rest)
    rw [hrevise] at h
    rw [hround]
    exact h hwiped
  | case6 d xi xj queue hforeign hcan x rest hsome d' hwiped ih =>
    have harc : Revisable m d xi xj := ⟨by simpa using hforeign, by simpa using hcan⟩
    have hrevise : (revise m d xi xj).1 = d' := congrArg (d.pruneAll xi) hsome
    have hround : propagate m d ((xi, xj) :: queue) = propagate m d' (queue ++ m.arcsTo xi xj) := by
      rw [propagate, if_neg hforeign, if_neg hcan]
      split
      · rename_i hnone
        rw [hsome] at hnone
        cases hnone
      · rename_i heq
        obtain ⟨rfl, rfl⟩ := List.cons.inj (hsome.symm.trans heq)
        exact if_neg hwiped
    have h := revised d xi xj queue (propagate m d' (queue ++ m.arcsTo xi xj)) harc
      (by rw [hsome]; exact List.cons_ne_nil x rest)
    rw [hrevise] at h
    rw [hround]
    exact h (by simpa using hwiped) ih

/-! ## Inference only removes -/

section Preserves
variable {p : Domains → Prop} (remove : ∀ d v places, p d → p (d.pruneAll v places))
include remove

theorem propagate_preserves {d : Domains} (queue : List Arc) (hd : p d) :
    p (propagate m d queue).1 := by
  refine propagate_induct (m := m) (q := fun d _ r => p d → p r.1) (fun _ h => h)
    (fun _ _ _ _ _ h => h) (fun _ _ _ _ _ _ h => h) (fun _ _ _ _ _ _ _ ih => ih) ?_ ?_
    d queue hd
  · intro d xi xj queue _ _ _ hd
    exact remove d xi _ hd
  · intro d xi xj queue r _ _ _ ih hd
    exact ih (remove d xi _ hd)

theorem checkNeighbors_preserves (assigned : Array (Option Nat)) (v ix : Nat) :
    ∀ (others : List Nat) {d : Domains}, p d → p (checkNeighbors m assigned v ix d others).1
  | [], _, hd => hd
  | other :: rest, d, hd => by
    unfold checkNeighbors
    split
    · exact hd
    · exact checkNeighbors_preserves assigned v ix rest hd
    · split
      · exact hd
      · split
        · exact hd
        · dsimp only
          split
          · exact remove d other _ hd
          · exact checkNeighbors_preserves assigned v ix rest (remove d other _ hd)

theorem infer_preserves (inference : Inference) {d : Domains} (assigned : Array (Option Nat))
    (v ix : Nat) (hd : p d) : p (infer m inference d assigned v ix).1 := by
  cases inference with
  | nothing => exact hd
  | forwardChecking =>
    unfold infer forwardCheck
    dsimp only
    split
    · exact checkNeighbors_preserves remove assigned v ix _ hd
    · exact hd
  | arcConsistency => exact propagate_preserves remove _ hd

end Preserves

theorem infer_belongsTo (inference : Inference) {d : Domains} (assigned : Array (Option Nat))
    (v ix : Nat) (hd : d.BelongsTo m) : (infer m inference d assigned v ix).1.BelongsTo m :=
  infer_preserves (p := fun d => d.BelongsTo m) (fun _ w places h => h.pruneAll w places)
    inference assigned v ix hd

theorem infer_undoesTo (inference : Inference) {d d₀ : Domains} (assigned : Array (Option Nat))
    (v ix : Nat) (hd : d.Counted) (h : d.UndoesTo d₀) :
    (infer m inference d assigned v ix).1.UndoesTo d₀ :=
  (infer_preserves (p := fun d => d.Counted ∧ d.UndoesTo d₀)
    (fun _ w places h => ⟨h.1.pruneAll w places, h.2.pruneAll w places h.1⟩)
    inference assigned v ix ⟨hd, h⟩).2

/-! ## Places that support each other -/

/-- Each of the places has a compatible one among them at every neighbour. -/
def Model.Sustains (m : Model ν) (keep : Nat → Nat → Prop) : Prop :=
  ∀ a x b, keep a x → b ∈ m.neighbors a → ∃ y, keep b y ∧ m.compatible a x b y = true

/-- All of the places are alive. -/
def Domains.Keeps (d : Domains) (keep : Nat → Nat → Prop) : Prop :=
  ∀ v ix, keep v ix → d.isAlive v ix = true

theorem revise_keeps {keep : Nat → Nat → Prop} (hs : m.Sustains keep) {d : Domains}
    (hk : d.Keeps keep) {xi xj : Nat} (hj : xj ∈ m.neighbors xi) :
    (revise m d xi xj).1.Keeps keep := by
  intro v ix hkeep
  unfold revise
  rw [Domains.isAlive_pruneAll, hk v ix hkeep, Bool.true_and, Bool.not_eq_true',
    Bool.and_eq_false_iff, beq_eq_false_iff_ne]
  by_cases hv : v = xi
  · subst hv
    obtain ⟨y, hy, hcompatible⟩ := hs v ix xj hkeep hj
    refine Or.inr (Bool.eq_false_iff.2 fun hmem => ?_)
    obtain ⟨-, hunsupported⟩ := List.mem_filter.1 (List.contains_iff_mem.1 hmem)
    have hsupported : supported m d v ix xj = true :=
      List.any_eq_true.2 ⟨y, Domains.mem_indices_iff.2 (hk xj y hy), hcompatible⟩
    rw [hsupported] at hunsupported
    cases hunsupported
  · exact Or.inl hv

theorem mem_neighbors_of_arc (hm : m.Linked) (v : Nat) {arc : Arc}
    (h : arc ∈ (m.neighbors v).map fun n => (n, v)) : arc.2 ∈ m.neighbors arc.1 := by
  obtain ⟨n, hn, rfl⟩ := List.mem_map.1 h
  exact hm.mem_neighbors_comm.1 hn

theorem mem_arcsTo (hm : m.Linked) {xi xj : Nat} {arc : Arc} (h : arc ∈ m.arcsTo xi xj) :
    arc.2 ∈ m.neighbors arc.1 := by
  obtain ⟨xk, hk, rfl⟩ := List.mem_map.1 h
  exact mem_neighbors_of_arc hm xi (List.mem_map_of_mem (List.mem_filter.1 hk).1)

/-- Propagation removes no place of a set in which each is supported, and if every variable has one
of them it wipes none out. -/
theorem propagate_keeps (hm : m.Linked) {keep : Nat → Nat → Prop} (hs : m.Sustains keep)
    {d : Domains} (hd : d.BelongsTo m) (hk : d.Keeps keep) {queue : List Arc}
    (hq : ∀ arc ∈ queue, arc.2 ∈ m.neighbors arc.1) :
    (propagate m d queue).1.Keeps keep ∧
      ((∀ v < m.size, ∃ ix, keep v ix) →
        (propagate m d queue).2 = .consistent ∨ (propagate m d queue).2 = .undefined) := by
  refine propagate_induct (m := m)
    (q := fun d queue r => d.BelongsTo m → d.Keeps keep →
      (∀ arc ∈ queue, arc.2 ∈ m.neighbors arc.1) →
      r.1.Keeps keep ∧ ((∀ v < m.size, ∃ ix, keep v ix) → r.2 = .consistent ∨ r.2 = .undefined))
    ?_ ?_ ?_ ?_ ?_ ?_ d queue hd hk hq
  · intro d _ hk _
    exact ⟨hk, fun _ => .inl rfl⟩
  · intro d xi xj queue hforeign hd hk hq
    obtain ⟨hi, hj, -⟩ := hm.lt_size_of_mem_neighbors (hq _ List.mem_cons_self)
    unfold Domains.isForeignArc at hforeign
    rw [hd.covers hi, hd.covers hj] at hforeign
    simp at hforeign
  · intro d xi xj queue _ _ _ hk _
    exact ⟨hk, fun _ => .inr rfl⟩
  · intro d xi xj queue r _ _ ih hd hk hq
    exact ih hd hk fun arc h => hq arc (List.mem_cons_of_mem _ h)
  · intro d xi xj queue _ _ hwiped hd hk hq
    have hj := hq _ List.mem_cons_self
    obtain ⟨hi, -, -⟩ := hm.lt_size_of_mem_neighbors hj
    have hk' := revise_keeps hs hk hj
    refine ⟨hk', fun hall => ?_⟩
    obtain ⟨ix, hix⟩ := hall xi hi
    have hlive := (hd.pruneAll xi (unsupported m d xi xj)).isWipedOut_eq_false hi (hk' xi ix hix)
    rw [show (revise m d xi xj).1 = d.pruneAll xi (unsupported m d xi xj) from rfl, hlive] at hwiped
    cases hwiped
  · intro d xi xj queue r _ _ _ ih hd hk hq
    refine ih (hd.pruneAll xi _) (revise_keeps hs hk (hq _ List.mem_cons_self)) fun arc h => ?_
    rcases List.mem_append.1 h with h | h
    · exact hq arc (List.mem_cons_of_mem _ h)
    · exact mem_arcsTo hm h

/-! ## Choices of compatible places -/

/-- A place of its domain for each variable, every two of them compatible. -/
structure Model.Fits (m : Model ν) (choice : Nat → Nat) : Prop where
  lt_size : ∀ v < m.size, choice v < (m.domain v).size
  compatible : ∀ a < m.size, ∀ b < m.size, m.compatible a (choice a) b (choice b) = true

/-- The chosen places are alive. -/
def Domains.Admits (d : Domains) (m : Model ν) (choice : Nat → Nat) : Prop :=
  ∀ v < m.size, d.isAlive v (choice v) = true

theorem Model.Fits.sustains {choice : Nat → Nat} (hf : m.Fits choice) (hm : m.Linked) :
    m.Sustains fun v ix => v < m.size ∧ ix = choice v := by
  rintro a x b ⟨ha, rfl⟩ hb
  obtain ⟨-, hb, -⟩ := hm.lt_size_of_mem_neighbors hb
  exact ⟨choice b, ⟨hb, rfl⟩, hf.compatible a ha b hb⟩

theorem Domains.Admits.restrictTo {d : Domains} {choice : Nat → Nat} (h : d.Admits m choice)
    (v : Nat) : (d.restrictTo v (choice v)).Admits m choice := by
  intro w hw
  rw [Domains.isAlive_restrictTo, h w hw, Bool.true_and, Bool.or_eq_true]
  by_cases hwv : w = v
  · exact .inr (by rw [hwv, beq_self_eq_true])
  · exact .inl (by simpa using hwv)

theorem Domains.Admits.of_agrees {d d' : Domains} {choice : Nat → Nat} (h : d.Admits m choice)
    (hd : d'.Agrees d) : d'.Admits m choice :=
  fun v hv => (hd.isAlive v (choice v)).trans (h v hv)

/-- Forward checking removes no place of a set in which each is compatible with the new one, and if
every neighbour has one of them it wipes none out. -/
theorem checkNeighbors_keeps {keep : Nat → Nat → Prop} {assigned : Array (Option Nat)}
    (hassigned : assigned.size = m.size) {v ix : Nat} (hix : ix < (m.domain v).size) :
    ∀ (others : List Nat) {d : Domains}, (∀ w ∈ others, w < m.size) →
      (∀ w ∈ others, ∀ x, keep w x → m.compatible v ix w x = true) →
      d.BelongsTo m → d.Keeps keep →
      (checkNeighbors m assigned v ix d others).1.Keeps keep ∧
        ((∀ w ∈ others, ∃ x, keep w x) →
          (checkNeighbors m assigned v ix d others).2 = .consistent ∨
            (checkNeighbors m assigned v ix d others).2 = .undefined)
  | [], _, _, _, _, hk => ⟨hk, fun _ => .inl rfl⟩
  | other :: rest, d, hothers, hcompatible, hd, hk => by
    have ho : other < m.size := hothers other List.mem_cons_self
    have hrest := fun {d : Domains} => checkNeighbors_keeps hassigned hix rest (d := d)
      (fun w hw => hothers w (List.mem_cons_of_mem _ hw))
      (fun w hw => hcompatible w (List.mem_cons_of_mem _ hw))
    have himp : (∀ w ∈ other :: rest, ∃ x, keep w x) → ∀ w ∈ rest, ∃ x, keep w x :=
      fun h w hw => h w (List.mem_cons_of_mem _ hw)
    unfold checkNeighbors
    split
    · rename_i hnone
      rw [Array.getElem?_eq_none_iff, hassigned] at hnone
      omega
    · exact ⟨(hrest hd hk).1, fun h => (hrest hd hk).2 (himp h)⟩
    · have hcomparable : incomparable m d v ix other = false := by
        unfold incomparable
        rw [hd.covers ho, decide_eq_false (Nat.not_le.2 hix)]
        simp
      rw [if_neg (by rw [hcomparable]; decide)]
      split
      · exact ⟨hk, fun _ => .inr rfl⟩
      · have hk' : (d.pruneAll other ((d.indices other).filter fun o =>
            !m.compatible v ix other o)).Keeps keep := by
          intro w x hkeep
          rw [Domains.isAlive_pruneAll, hk w x hkeep, Bool.true_and, Bool.not_eq_true',
            Bool.and_eq_false_iff, beq_eq_false_iff_ne]
          by_cases hwo : w = other
          · subst hwo
            refine Or.inr (Bool.eq_false_iff.2 fun hmem => ?_)
            obtain ⟨-, hdoomed⟩ := List.mem_filter.1 (List.contains_iff_mem.1 hmem)
            rw [hcompatible w List.mem_cons_self x hkeep] at hdoomed
            cases hdoomed
          · exact Or.inl hwo
        have hd' := hd.pruneAll other ((d.indices other).filter fun o =>
            !m.compatible v ix other o)
        dsimp only
        split
        · rename_i hwiped
          refine ⟨hk', fun h => ?_⟩
          obtain ⟨x, hx⟩ := h other List.mem_cons_self
          rw [hd'.isWipedOut_eq_false ho (hk' other x hx)] at hwiped
          cases hwiped
        · exact ⟨(hrest hd' hk').1, fun h => (hrest hd' hk').2 (himp h)⟩

/-- Inference after an assignment removes no place of a choice that takes it, and wipes no variable
out. -/
theorem infer_keeps (hm : m.Linked) (inference : Inference) {choice : Nat → Nat}
    (hf : m.Fits choice) {d : Domains} (hd : d.BelongsTo m) (ha : d.Admits m choice)
    {assigned : Array (Option Nat)} (hassigned : assigned.size = m.size) {v : Nat}
    (hv : v < m.size) :
    (infer m inference d assigned v (choice v)).1.Admits m choice ∧
      ((infer m inference d assigned v (choice v)).2 = .consistent ∨
        (infer m inference d assigned v (choice v)).2 = .undefined) := by
  cases inference with
  | nothing => exact ⟨ha, .inl rfl⟩
  | forwardChecking =>
    have hneighbors : ∀ w ∈ m.neighbors v, w < m.size :=
      fun w hw => (hm.lt_size_of_mem_neighbors hw).2.1
    have hk : d.Keeps fun w ix => w < m.size ∧ ix = choice w := by
      rintro w ix ⟨hw, rfl⟩
      exact ha w hw
    have h := checkNeighbors_keeps hassigned (hf.lt_size v hv) (m.neighbors v) hneighbors
      (by rintro w hw ix ⟨-, rfl⟩; exact hf.compatible v hv w (hneighbors w hw)) hd hk
    unfold infer forwardCheck Model.neighbors?
    dsimp only
    rw [if_pos hv]
    exact ⟨fun w hw => h.1 w (choice w) ⟨hw, rfl⟩,
      h.2 fun w hw => ⟨choice w, hneighbors w hw, rfl⟩⟩
  | arcConsistency =>
    have h := propagate_keeps hm (hf.sustains hm) hd
      (by rintro w ix ⟨hw, rfl⟩; exact ha w hw) fun _ => mem_neighbors_of_arc hm v
    exact ⟨fun w hw => h.1 w (choice w) ⟨hw, rfl⟩, h.2 fun w hw => ⟨choice w, hw, rfl⟩⟩

/-! ## Relations that are defined for all values -/

theorem propagate_ne_undefined (hm : m.Linked) (ht : m.Total) (d : Domains) (queue : List Arc) :
    (propagate m d queue).2 ≠ .undefined := by
  refine propagate_induct (m := m) (q := fun _ _ r => r.2 ≠ .undefined) (fun _ => nofun)
    (fun _ _ _ _ _ => nofun) ?_ (fun _ _ _ _ _ _ _ ih => ih) (fun _ _ _ _ _ _ _ => nofun)
    (fun _ _ _ _ _ _ _ _ ih => ih) d queue
  intro d xi xj queue _ hcan
  unfold canRevise at hcan
  rw [hm.isTotalBetween ht, Bool.true_or] at hcan
  cases hcan

theorem checkNeighbors_ne_undefined (hm : m.Linked) (ht : m.Total) (assigned : Array (Option Nat))
    (v ix : Nat) : ∀ (others : List Nat) (d : Domains),
      (checkNeighbors m assigned v ix d others).2 ≠ .undefined
  | [], _ => nofun
  | other :: rest, d => by
    unfold checkNeighbors
    split
    · nofun
    · exact checkNeighbors_ne_undefined hm ht assigned v ix rest d
    · have hcan : canRuleOut m d v ix other = true := by
        unfold canRuleOut
        rw [hm.isTotalBetween ht, Bool.true_or]
      rw [hcan]
      split
      · nofun
      · rw [if_neg (by decide)]
        dsimp only
        split
        · nofun
        · exact checkNeighbors_ne_undefined hm ht assigned v ix rest _

theorem infer_ne_undefined (hm : m.Linked) (ht : m.Total) (inference : Inference) (d : Domains)
    (assigned : Array (Option Nat)) (v ix : Nat) :
    (infer m inference d assigned v ix).2 ≠ .undefined := by
  cases inference with
  | nothing => nofun
  | forwardChecking =>
    unfold infer forwardCheck
    dsimp only
    split
    · exact checkNeighbors_ne_undefined hm ht assigned v ix _ d
    · nofun
  | arcConsistency => exact propagate_ne_undefined hm ht d _

end ProblemSolving
