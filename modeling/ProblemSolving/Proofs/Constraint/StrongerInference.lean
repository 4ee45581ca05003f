import ProblemSolving.Proofs.Constraint.ArcConsistency
import ProblemSolving.Proofs.Constraint.Trials
import ProblemSolving.Proofs.Constraint.StaticOrder

/-!
# A stronger inference explores no more

* `Inference.Weaker` : no inference before any, forward checking before arc consistency.
* `Model.Ahead` : at one partial assignment, the domains of the stronger inference lie within those
  of the weaker one and have lost no solution; an inference keeps this (`infer_ahead`).
* `backtrack_outpaces` : below such an assignment the stronger search does no more.
* `inOrder_stronger` : from the start, for searches in order.
-/

namespace ProblemSolving

variable {ν : Type} {m : Model ν}

/-- The second inference tells whatever the first does. -/
inductive Inference.Weaker : Inference → Inference → Prop
  | nothing (strong : Inference) : Weaker .nothing strong
  | forwardChecking : Weaker .forwardChecking .arcConsistency

/-! ## Two searches at one assignment -/

namespace Model

/-- The domains of a stronger inference lie within those of a weaker one, and admit every compatible
choice that extends the assignment. For forward checking, moreover, no variable may be without
values. -/
structure Ahead (m : Model ν) (weak : Inference) (assigned : Array (Option Nat))
    (dw ds : Domains) : Prop where
  weak_belongsTo : dw.BelongsTo m
  strong_belongsTo : ds.BelongsTo m
  within : ds.Within dw
  lossless : ∀ choice, m.Fits choice → Extends choice assigned → ds.Admits m choice
  live : weak ≠ .nothing → ∀ v < m.size, ∃ ix, ds.isAlive v ix = true

theorem Ahead.of_agrees {weak : Inference} {assigned : Array (Option Nat)}
    {dw dw' ds ds' : Domains} (h : m.Ahead weak assigned dw ds) (hw : dw'.Agrees dw)
    (hs : ds'.Agrees ds) : m.Ahead weak assigned dw' ds' where
  weak_belongsTo := h.weak_belongsTo.of_agrees hw
  strong_belongsTo := h.strong_belongsTo.of_agrees hs
  within v ix hlive := by
    rw [hs.isAlive] at hlive
    rw [hw.isAlive]
    exact h.within v ix hlive
  lossless choice hf hextends := (h.lossless choice hf hextends).of_agrees hs
  live hweak v hv := by
    obtain ⟨ix, hix⟩ := h.live hweak v hv
    exact ⟨ix, by rwa [hs.isAlive]⟩

end Model

theorem Domains.Within.restrictTo {sub d : Domains} (h : sub.Within d) (v ix : Nat) :
    (sub.restrictTo v ix).Within (d.restrictTo v ix) := by
  intro w jx hlive
  rw [isAlive_restrictTo, Bool.and_eq_true] at hlive ⊢
  exact ⟨h w jx hlive.1, hlive.2⟩

theorem infer_within (inference : Inference) (d : Domains) (assigned : Array (Option Nat))
    (v ix : Nat) : (infer m inference d assigned v ix).1.Within d :=
  infer_preserves (p := fun d' => d'.Within d) (fun _ w places h => h.pruneAll w places)
    inference assigned v ix fun _ _ h => h

/-- What propagation from a new place has left at its neighbours is compatible with it, for it has
support there. -/
theorem compatible_of_propagate (hm : m.Linked) {d : Domains} (hd : d.BelongsTo m) {v ix : Nat}
    (hconsistent : (propagate m (d.restrictTo v ix) ((m.neighbors v).map fun n => (n, v))).2
      = .consistent) {w jx : Nat} (hw : w ∈ m.neighbors v)
    (hlive : (propagate m (d.restrictTo v ix) ((m.neighbors v).map fun n => (n, v))).1.isAlive w jx
      = true) : m.compatible v ix w jx = true := by
  have hrests : m.Rests (d.restrictTo v ix) ((m.neighbors v).map fun n => (n, v)) w v :=
    fun hmem => absurd (List.mem_map_of_mem hw) hmem
  have hsupport := propagate_rests hm (hd.restrictTo v ix) (fun _ => mem_neighbors_of_arc hm v)
    (hm.mem_neighbors_comm.1 hw) hrests hconsistent
  obtain ⟨y, hy, hcompatible⟩ := unsupported_eq_nil_iff.1 hsupport jx hlive
  have hplace := propagate_within _ _ v y hy
  obtain rfl : y = ix := by
    simpa using (Bool.and_eq_true_iff.1 ((d.isAlive_restrictTo v ix v y).symm.trans hplace)).2
  rwa [hm.compatible_comm]

/-- What holds before an inference holds after it, and the stronger one is consistent only where the
weaker one does not fail. -/
theorem infer_ahead (hm : m.Linked) {weak strong : Inference} (hstronger : weak.Weaker strong)
    {assigned : Array (Option Nat)} (hassigned : assigned.size = m.size) {dw ds : Domains}
    (h : m.Ahead weak assigned dw ds) {v ix : Nat} (hv : assigned[v]? = some none)
    (hlive : ds.isAlive v ix = true)
    (hconsistent : (infer m strong (ds.restrictTo v ix) (assigned.setIfInBounds v (some ix)) v ix).2
      = .consistent) :
    m.Ahead weak (assigned.setIfInBounds v (some ix))
        (infer m weak (dw.restrictTo v ix) (assigned.setIfInBounds v (some ix)) v ix).1
        (infer m strong (ds.restrictTo v ix) (assigned.setIfInBounds v (some ix)) v ix).1 ∧
      ((infer m weak (dw.restrictTo v ix) (assigned.setIfInBounds v (some ix)) v ix).2
          = .consistent ∨
        (infer m weak (dw.restrictTo v ix) (assigned.setIfInBounds v (some ix)) v ix).2
          = .undefined) := by
  have hvm : v < m.size := hassigned ▸ (Array.getElem?_eq_some_iff.1 hv).1
  have hds := h.strong_belongsTo.restrictTo v ix
  have hdw := h.weak_belongsTo.restrictTo v ix
  have hlossless : ∀ choice, m.Fits choice →
      Model.Extends choice (assigned.setIfInBounds v (some ix)) →
      (infer m strong (ds.restrictTo v ix) (assigned.setIfInBounds v (some ix)) v ix).1.Admits m
        choice := by
    intro choice hf hextends
    obtain ⟨hextends, hplace⟩ := hextends.of_assign hv
    have hcompletes : ds.Completes m assigned choice := ⟨hextends, h.lossless choice hf hextends⟩
    exact (hcompletes.infer hm strong hf h.strong_belongsTo hassigned hvm hplace).1.2
  generalize hchosen : assigned.setIfInBounds v (some ix) = chosen at *
  have hsize : chosen.size = m.size := by rw [← hchosen, Array.size_setIfInBounds, hassigned]
  have hwithin : (infer m strong (ds.restrictTo v ix) chosen v ix).1.Within (dw.restrictTo v ix) :=
    fun w jx hjx => h.within.restrictTo v ix w jx (infer_within strong _ _ v ix w jx hjx)
  have hstrong := infer_belongsTo strong chosen v ix hds
  have hweak := infer_belongsTo weak chosen v ix hdw
  cases hstronger with
  | nothing => exact ⟨⟨hweak, hstrong, hwithin, hlossless, fun hne => absurd rfl hne⟩, .inl rfl⟩
  | forwardChecking =>
    have hneighbors : ∀ w ∈ m.neighbors v, w < m.size :=
      fun w hw => (hm.lt_size_of_mem_neighbors hw).2.1
    have hleft : ∀ w < m.size,
        ∃ jx, (infer m .arcConsistency (ds.restrictTo v ix) chosen v ix).1.isAlive w jx = true := by
      intro w hw
      obtain ⟨jx, hjx⟩ : ∃ jx, (ds.restrictTo v ix).isAlive w jx = true := by
        by_cases hwv : w = v
        · subst hwv
          exact ⟨ix, by simp [hlive]⟩
        · obtain ⟨jx, hjx⟩ := h.live (by decide) w hw
          exact ⟨jx, by simp [hjx, hwv]⟩
      exact propagate_leaves hm hds (fun _ => mem_neighbors_of_arc hm v) hconsistent hjx
    have hcheck : infer m .forwardChecking (dw.restrictTo v ix) chosen v ix =
        checkNeighbors m chosen v ix (dw.restrictTo v ix) (m.neighbors v) := by
      unfold infer forwardCheck Model.neighbors?
      rw [if_pos hvm]
    have hkeeps := checkNeighbors_keeps hsize (h.strong_belongsTo.lt_size v ix hlive)
      (m.neighbors v) hneighbors
      (fun w hw jx => compatible_of_propagate hm h.strong_belongsTo hconsistent hw) hdw hwithin
    rw [hcheck] at hweak ⊢
    exact ⟨⟨hweak, hstrong, hkeeps.1, hlossless, fun _ => hleft⟩,
      hkeeps.2 fun w hw => hleft w (hneighbors w hw)⟩

/-! ## One value after the other -/

theorem Domains.Within.indices_eq {sub d : Domains} (h : sub.Within d) (v : Nat) :
    sub.indices v = (d.indices v).filter (sub.isAlive v) := by
  refine (pairwise_lt_indices sub v).eq_of_mem_iff ((pairwise_lt_indices d v).filter _) fun ix => ?_
  rw [List.mem_filter, Domains.mem_indices_iff, Domains.mem_indices_iff]
  exact ⟨fun hlive => ⟨h v ix hlive, hlive⟩, fun hlive => hlive.2⟩

theorem Model.Branch.of_failed {config : BacktrackConfig} {back : Domains → Prop}
    {possible : (Nat → Nat) → Prop} {r : Backtracker × BranchVerdict}
    (h : m.Branch config back possible r) (hfailed : r.2 = .failed) :
    back r.1.domains ∧ ∀ choice, m.Fits choice → ¬ possible choice := by
  obtain ⟨s, verdict⟩ := r
  obtain rfl : verdict = .failed := hfailed
  exact h

/-- A search in order that comes to a decision fails if no compatible choice extends the
assignment. -/
theorem Model.Branch.eq_failed (hm : m.Linked) {inference : Inference} {back : Domains → Prop}
    {assigned : Array (Option Nat)} {possible possible' : (Nat → Nat) → Prop}
    {r : Backtracker × BranchVerdict} (hbranch : m.Branch (.inOrder inference) back possible r)
    (hleads : m.Leads assigned possible' r.2) (hdefined : r.2 ≠ .undefined)
    (hnone : ∀ choice, m.Fits choice → ¬ Model.Extends choice assigned) : r.2 = .failed := by
  obtain ⟨s, verdict⟩ := r
  cases verdict with
  | solved assigned' =>
    obtain ⟨choice, hf, hextends⟩ := hbranch.1.exists_fits hm hbranch.2
    exact absurd (hextends.of_retains hleads.1) (hnone choice hf)
  | failed => rfl
  | outOfBudget => exact absurd rfl hbranch
  | undefined => exact absurd rfl hdefined

/-- What comes of a value, searching in order. -/
abbrev attemptInOrder (m : Model ν) (inference : Inference) (left : Nat)
    (assigned : Array (Option Nat)) (v : Nat) (s : Backtracker) (ix : Nat) :
    Backtracker × BranchVerdict :=
  attempt m (.inOrder inference) (backtrack m (.inOrder inference) left) assigned v s ix

/-- What comes of several, searching in order. -/
abbrev tryInOrder (m : Model ν) (inference : Inference) (left : Nat)
    (assigned : Array (Option Nat)) (v : Nat) (s : Backtracker) (places : List Nat) :
    Backtracker × BranchVerdict :=
  tryValues m (.inOrder inference) (backtrack m (.inOrder inference) left) assigned v s places

section Values
variable {inference : Inference} {left : Nat} {assigned : Array (Option Nat)} {v ix : Nat}
  (hcan : m.canCount assigned v ix = true) (s : Backtracker) (rest : List Nat)
include hcan

theorem tryInOrder_pass (hconflicts : m.conflictsAt assigned v ix ≠ 0) :
    tryInOrder m inference left assigned v s (ix :: rest) =
      tryInOrder m inference left assigned v s rest :=
  tryValues_pass rest hcan hconflicts

variable (hnone : m.conflictsAt assigned v ix = 0)
include hnone

theorem tries_inOrder : Tries m (.inOrder inference) assigned v s ix := ⟨hcan, hnone, rfl⟩

theorem tryInOrder_failed
    (h : (attemptInOrder m inference left assigned v s ix).2 = .failed) :
    tryInOrder m inference left assigned v s (ix :: rest) =
      tryInOrder m inference left assigned v
        ((attemptInOrder m inference left assigned v s ix).1.undoneTo s.domains) rest :=
  tryValues_of_failed rest (tries_inOrder hcan s hnone) (Prod.ext rfl h)

theorem tryInOrder_decided
    (h : (attemptInOrder m inference left assigned v s ix).2 ≠ .failed) :
    tryInOrder m inference left assigned v s (ix :: rest) =
      attemptInOrder m inference left assigned v s ix :=
  tryValues_of_decided rest (tries_inOrder hcan s hnone) h

theorem attemptInOrder_atMost :
    (attemptInOrder m inference left assigned v s ix).1.AtMost
      (tryInOrder m inference left assigned v s (ix :: rest)).1 :=
  attempt_atMost_tryValues _ (backtrack_atMost _ left) (tries_inOrder hcan s hnone) rest

end Values

/-! ## Two searches below one assignment -/

section Below
variable (hm : m.Linked) {left : Nat} {assigned : Array (Option Nat)} {v : Nat}
  (hc : m.Consistent assigned) (hv : assigned[v]? = some none)
  (hleft : (unassignedVariables assigned).length ≤ left + 1)
include hm hc hv hleft

theorem attemptInOrder_branch (inference : Inference) {s : Backtracker}
    (hs : s.domains.BelongsTo m) {ix : Nat} (hix : ix < (m.domain v).size)
    (hcan : m.canCount assigned v ix = true) (hnone : m.conflictsAt assigned v ix = 0) :
    m.Branch (.inOrder inference) (·.UndoesTo s.domains)
      (fun choice => s.domains.Completes m assigned choice ∧ choice v = ix)
      (attemptInOrder m inference left assigned v s ix) := by
  refine attempt_branch hm hc (fun s' jx hs' hc' => ?_) hv hs hix hcan hnone
  have hless := length_unassignedVariables_lt hv jx
  exact backtrack_branch hm _ left s' _ hs' hc' (by omega)

theorem attemptInOrder_failed {inference : Inference} {s : Backtracker}
    (hs : s.domains.BelongsTo m) {ix : Nat} (hix : ix < (m.domain v).size)
    (hcan : m.canCount assigned v ix = true) (hnone : m.conflictsAt assigned v ix = 0)
    (hdefined : (attemptInOrder m inference left assigned v s ix).2 ≠ .undefined)
    (hlost : ∀ choice, m.Fits choice → Model.Extends choice assigned → choice v ≠ ix) :
    (attemptInOrder m inference left assigned v s ix).2 = .failed := by
  have hbranch := attemptInOrder_branch hm hc hv hleft inference hs hix hcan hnone
  refine hbranch.eq_failed hm (attempt_leads hm hc (fun s' jx hs' hc' => ?_) hv hs hix hcan hnone)
    hdefined fun choice hf hextends => ?_
  · have hless := length_unassignedVariables_lt hv jx
    exact backtrack_leads hm inference left s' _ hs' hc' (by omega)
  · exact hlost choice hf (hextends.of_assign hv).1 (hextends.of_assign hv).2

variable {weak strong : Inference} (hstronger : weak.Weaker strong)
  (hnext : ∀ {sw ss : Backtracker} {ix : Nat},
    m.Ahead weak (assigned.setIfInBounds v (some ix)) sw.domains ss.domains → ss.AtMost sw →
    m.Consistent (assigned.setIfInBounds v (some ix)) →
    (backtrack m (.inOrder weak) left sw (assigned.setIfInBounds v (some ix))).2 ≠ .undefined →
    (backtrack m (.inOrder strong) left ss (assigned.setIfInBounds v (some ix))).1.AtMost
      (backtrack m (.inOrder weak) left sw (assigned.setIfInBounds v (some ix))).1)
include hstronger hnext

omit hleft in
theorem attemptInOrder_outpaces {sw ss : Backtracker}
    (h : m.Ahead weak assigned sw.domains ss.domains) (hle : ss.AtMost sw) {ix : Nat}
    (hlive : ss.domains.isAlive v ix = true) (hcan : m.canCount assigned v ix = true)
    (hnone : m.conflictsAt assigned v ix = 0)
    (hdefined : (attemptInOrder m weak left assigned v sw ix).2 ≠ .undefined) :
    (attemptInOrder m strong left assigned v ss ix).1.AtMost
      (attemptInOrder m weak left assigned v sw ix).1 := by
  have hassign : ∀ d, (ss.assign d).AtMost (attemptInOrder m weak left assigned v sw ix).1 :=
    fun d => (hle.assign d sw.domains).trans
      (attempt_atMost _ (backtrack_atMost _ left) assigned v sw ix sw.domains)
  have hahead := infer_ahead hm hstronger hc.size_eq h hv hlive
  rw [attemptInOrder, attempt]
  split
  · rename_i hstrong
    obtain ⟨hahead, hweak⟩ := hahead hstrong
    rw [attemptInOrder, attempt] at hdefined ⊢
    rcases hweak with hweak | hweak
    · simp only [BacktrackConfig.inOrder] at hdefined ⊢
      rw [hweak] at hdefined ⊢
      refine hnext hahead (hle.assign _ _) (hc.assign hm ?_ hcan hnone hv) hdefined
      exact h.strong_belongsTo.lt_size v ix hlive
    · simp only [BacktrackConfig.inOrder] at hdefined
      rw [hweak] at hdefined
      exact absurd rfl hdefined
  · exact hassign _
  · exact hassign _
  · exact hassign _

/-- Trying what the stronger search has left of some values takes it no more: a value that it has
removed fails below the weaker one. -/
theorem tryInOrder_outpaces : ∀ (places : List Nat) {sw ss : Backtracker},
    m.Ahead weak assigned sw.domains ss.domains → ss.AtMost sw →
    (∀ ix ∈ places, ix < (m.domain v).size) →
    (tryInOrder m weak left assigned v sw places).2 ≠ .undefined →
    (tryInOrder m strong left assigned v ss (places.filter (ss.domains.isAlive v))).1.AtMost
      (tryInOrder m weak left assigned v sw places).1
  | [], sw, ss, _, hle, _, _ => by
    rw [List.filter_nil, tryInOrder, tryInOrder, tryValues, tryValues]
    exact ⟨hle.assignments, Nat.succ_le_succ hle.backtracks⟩
  | ix :: rest, sw, ss, h, hle, hplaces, hdefined => by
    have hix := hplaces ix List.mem_cons_self
    have hrest := fun {sw ss : Backtracker} (h : m.Ahead weak assigned sw.domains ss.domains)
      (hle : ss.AtMost sw) =>
        tryInOrder_outpaces rest h hle fun jx hjx => hplaces jx (List.mem_cons_of_mem _ hjx)
    by_cases hcan : m.canCount assigned v ix = true
    swap
    · rw [tryInOrder, tryValues_cons, if_pos (by simpa using hcan)] at hdefined
      exact absurd rfl hdefined
    by_cases hnone : m.conflictsAt assigned v ix = 0
    swap
    · rw [tryInOrder_pass hcan _ _ hnone] at hdefined ⊢
      rw [List.filter_cons]
      split
      · rw [tryInOrder_pass hcan _ _ hnone]
        exact hrest h hle hdefined
      · exact hrest h hle hdefined
    have hbranchw := attemptInOrder_branch hm hc hv hleft weak h.weak_belongsTo hix hcan hnone
    have hbranchs := attemptInOrder_branch hm hc hv hleft strong h.strong_belongsTo hix hcan hnone
    have hdecided : (attemptInOrder m weak left assigned v sw ix).2 ≠ .undefined := by
      intro hundefined
      have hdecides : (attemptInOrder m weak left assigned v sw ix).2 ≠ .failed := by
        simp [hundefined]
      rw [tryInOrder_decided hcan sw rest hnone hdecides] at hdefined
      exact hdefined hundefined
    -- the weaker search fails with a value that the stronger one has removed, or fails with
    have hfailed : (ss.domains.isAlive v ix = true →
          (attemptInOrder m strong left assigned v ss ix).2 = .failed) →
        (attemptInOrder m weak left assigned v sw ix).2 = .failed := by
      intro hstrong
      refine attemptInOrder_failed hm hc hv hleft h.weak_belongsTo hix hcan hnone hdecided ?_
      rintro choice hf hextends rfl
      have hadmits := h.lossless choice hf hextends
      have hnever := hstrong (hadmits v (hc.size_eq ▸ (Array.getElem?_eq_some_iff.1 hv).1))
      exact (hbranchs.of_failed hnever).2 choice hf ⟨⟨hextends, hadmits⟩, rfl⟩
    by_cases hlive : ss.domains.isAlive v ix = true
    · have houtpaces :=
        attemptInOrder_outpaces hm hc hv hstronger hnext h hle hlive hcan hnone hdecided
      rw [List.filter_cons_of_pos hlive]
      by_cases hnever : (attemptInOrder m strong left assigned v ss ix).2 = .failed
      · have hfailed := hfailed fun _ => hnever
        have hback := (hbranchs.of_failed hnever).1.agrees_undoTo
        rw [tryInOrder_failed hcan sw rest hnone hfailed] at hdefined ⊢
        rw [tryInOrder_failed hcan ss _ hnone hnever, ← funext (hback.isAlive v)]
        exact hrest (h.of_agrees (hbranchw.of_failed hfailed).1.agrees_undoTo hback)
          ⟨houtpaces.assignments, houtpaces.backtracks⟩ hdefined
      · rw [tryInOrder_decided hcan ss _ hnone hnever]
        exact houtpaces.trans (attemptInOrder_atMost hcan sw rest hnone)
    · have hfailed := hfailed fun h => absurd h hlive
      have hattempt : sw.AtMost (attemptInOrder m weak left assigned v sw ix).1 :=
        (sw.atMost_assign sw.domains).trans
          (attempt_atMost _ (backtrack_atMost _ left) assigned v sw ix sw.domains)
      rw [List.filter_cons_of_neg hlive]
      rw [tryInOrder_failed hcan sw rest hnone hfailed] at hdefined ⊢
      exact hrest (h.of_agrees (hbranchw.of_failed hfailed).1.agrees_undoTo (.refl _))
        ⟨hle.assignments.trans hattempt.assignments, hle.backtracks.trans hattempt.backtracks⟩
        hdefined

end Below

/-! ## The whole search -/

theorem backtrack_inOrder (inference : Inference) (left : Nat) (s : Backtracker)
    (assigned : Array (Option Nat)) :
    backtrack m (.inOrder inference) (left + 1) s assigned =
      match (unassignedVariables assigned).head? with
      | none => (s, .solved assigned)
      | some v => tryInOrder m inference left assigned v s (s.domains.indices v) := rfl

/-- Below an assignment at which the stronger search is ahead, it does no more. -/
theorem backtrack_outpaces (hm : m.Linked) {weak strong : Inference}
    (hstronger : weak.Weaker strong) : ∀ (left : Nat) {sw ss : Backtracker}
      {assigned : Array (Option Nat)}, m.Ahead weak assigned sw.domains ss.domains → ss.AtMost sw →
      m.Consistent assigned → (unassignedVariables assigned).length ≤ left →
      (backtrack m (.inOrder weak) left sw assigned).2 ≠ .undefined →
      (backtrack m (.inOrder strong) left ss assigned).1.AtMost
        (backtrack m (.inOrder weak) left sw assigned).1
  | 0, _, _, _, _, hle, _, _, _ => hle
  | left + 1, sw, ss, assigned, h, hle, hc, hleft, hdefined => by
    rw [backtrack_inOrder] at hdefined
    rw [backtrack_inOrder, backtrack_inOrder]
    cases hselect : (unassignedVariables assigned).head? with
    | none => exact hle
    | some v =>
      rw [hselect] at hdefined
      dsimp only at hdefined ⊢
      have hv := (head?_unassignedVariables hselect).1
      rw [h.within.indices_eq v]
      refine tryInOrder_outpaces hm hc hv hleft hstronger
        (fun {sw ss ix} h hle hc hdefined => ?_) _ h hle (fun ix hix => ?_) hdefined
      · have hless := length_unassignedVariables_lt hv ix
        exact backtrack_outpaces hm hstronger left h hle hc (by omega) hdefined
      · exact h.weak_belongsTo.lt_size v ix (Domains.mem_indices_iff.1 hix)

theorem Model.ahead_full (m : Model ν) {weak : Inference}
    (hvalues : weak ≠ .nothing → ∀ v < m.size, m.domain v ≠ #[]) :
    m.Ahead weak (Array.replicate m.size none) (.full m) (.full m) where
  weak_belongsTo := Domains.belongsTo_full m
  strong_belongsTo := Domains.belongsTo_full m
  within _ _ h := h
  lossless _ hf _ := hf.completes_full.2
  live hweak v hv := ⟨0, (Domains.isAlive_full_iff m v 0).2
    (Array.size_pos_iff.2 (hvalues hweak v hv))⟩

theorem stats_of_weaker (hm : m.Linked) {weak strong : Inference} (hstronger : weak.Weaker strong)
    (hvalues : weak ≠ .nothing → ∀ v < m.size, m.domain v ≠ #[])
    (hdefined : (backtrackingSearch m (.inOrder weak)).solution ≠ .undefined) :
    (backtrackingSearch m (.inOrder strong)).stats.assignments ≤
        (backtrackingSearch m (.inOrder weak)).stats.assignments ∧
      (backtrackingSearch m (.inOrder strong)).stats.backtracks ≤
        (backtrackingSearch m (.inOrder weak)).stats.backtracks := by
  have houtpaces : (backtrack m (.inOrder strong) m.size ⟨.full m, 0, 0⟩
      (Array.replicate m.size none)).1.AtMost
      (backtrack m (.inOrder weak) m.size ⟨.full m, 0, 0⟩ (Array.replicate m.size none)).1 := by
    refine backtrack_outpaces hm hstronger m.size (m.ahead_full hvalues) (.refl _)
      m.consistent_replicate ?_ fun hundefined => hdefined ?_
    · simpa using length_unassignedVariables_le (Array.replicate m.size none)
    · unfold backtrackingSearch
      dsimp only
      rw [hundefined]
  exact ⟨houtpaces.assignments, houtpaces.backtracks⟩

/-- **A stronger inference explores no more.** Searching in order, neither forward checking nor arc
consistency makes more assignments or backtracks than no inference, and where every variable has a
value, arc consistency makes no more than forward checking. All this unless the search with less
inference comes to values for which a relation is undefined. -/
theorem inOrder_stronger [BEq ν] (hm : m.Built) :
    (m.Total → ∀ inference, (backtrackingSearch m (.inOrder inference)).solution ≠ .undefined) ∧
    ((backtrackingSearch m (.inOrder .nothing)).solution ≠ .undefined → ∀ inference,
      (backtrackingSearch m (.inOrder inference)).stats.assignments ≤
          (backtrackingSearch m (.inOrder .nothing)).stats.assignments ∧
        (backtrackingSearch m (.inOrder inference)).stats.backtracks ≤
          (backtrackingSearch m (.inOrder .nothing)).stats.backtracks) ∧
    ((∀ v < m.size, m.domain v ≠ #[]) →
      (backtrackingSearch m (.inOrder .forwardChecking)).solution ≠ .undefined →
      (backtrackingSearch m (.inOrder .arcConsistency)).stats.assignments ≤
          (backtrackingSearch m (.inOrder .forwardChecking)).stats.assignments ∧
        (backtrackingSearch m (.inOrder .arcConsistency)).stats.backtracks ≤
          (backtrackingSearch m (.inOrder .forwardChecking)).stats.backtracks) := by
  refine ⟨inOrder_ne_undefined hm.linked, fun hdefined inference => ?_, fun hvalues hdefined => ?_⟩
  · exact stats_of_weaker hm.linked (.nothing inference) (fun hne => absurd rfl hne) hdefined
  · exact stats_of_weaker hm.linked .forwardChecking (fun _ => hvalues) hdefined

/-- To find out that a triangle cannot be coloured with two colours takes no inference more than
four assignments and five backtracks, and arc consistency no more backtracks than forward
checking. -/
theorem twoColouredTriangle_stronger :
    twoColouredTriangle.Built ∧ twoColouredTriangle.Total ∧
    (∀ inference,
      (backtrackingSearch twoColouredTriangle (.inOrder inference)).stats.assignments ≤ 4 ∧
      (backtrackingSearch twoColouredTriangle (.inOrder inference)).stats.backtracks ≤ 5) ∧
    (backtrackingSearch twoColouredTriangle (.inOrder .arcConsistency)).stats.backtracks ≤ 3 := by
  have ht : twoColouredTriangle.Total := by
    have hall : twoColouredTriangle.constraints.toList.all (·.relation.isTotal) = true := by cbv
    exact List.all_eq_true.1 hall
  obtain ⟨hdefined, hnothing, hchecking⟩ := inOrder_stronger built_twoColouredTriangle
  have hstats : (backtrackingSearch twoColouredTriangle (.inOrder .nothing)).stats
      = ⟨4, 5, 4, 0⟩ := by cbv
  have hstats' : (backtrackingSearch twoColouredTriangle (.inOrder .forwardChecking)).stats
      = ⟨4, 3, 8, 0⟩ := by cbv
  have hvalues : ∀ v < twoColouredTriangle.size, twoColouredTriangle.domain v ≠ #[] := by decide
  rw [hstats] at hnothing
  rw [hstats'] at hchecking
  exact ⟨built_twoColouredTriangle, ht, hnothing (hdefined ht _),
    (hchecking hvalues (hdefined ht _)).2⟩

/-- A variable without values is wiped out before forward checking assigns it, but no arc to it has
a value to lose. -/
example :
    let m : Model Nat :=
      .build [.addVariable "x" #[1, 2], .addVariable "y" #[], .addAllDifferent [0, 1]]
    (backtrackingSearch m (.inOrder .forwardChecking)).stats.backtracks = 1 ∧
      (backtrackingSearch m (.inOrder .arcConsistency)).stats.backtracks = 3 := by
  cbv

end ProblemSolving
