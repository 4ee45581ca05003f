import ProblemSolving.Proofs.Constraint.ArcConsistency
import ProblemSolving.Proofs.Constraint.StaticOrder

/-!
# Propagation on its own

* `propagateAll_consistent_iff` : the verdict tells if every variable that had a value keeps one; a
  variable that never had any goes unnoticed where its neighbours have none either.
* `Model.Backed` : each live value of a variable has a live one at another that was found compatible
  when it was asked; propagation that succeeds backs every arc (`propagate_backed`).
* `Domains.Leaves` : every variable has one live value, at some places.
* `propagateAll_solution` : if propagation leaves an assignment, that is the one solution, and
  backtracking finds it whatever its orders and its inference.
-/

namespace ProblemSolving

variable {ν : Type} {m : Model ν}

/-! ## What the verdict tells -/

theorem Domains.indices_eq_nil_iff {d : Domains} {v : Nat} :
    d.indices v = [] ↔ ∀ ix, d.isAlive v ix = false := by
  rw [List.eq_nil_iff_forall_not_mem]
  simp [Domains.mem_indices_iff]

theorem Domains.exists_isAlive_full_iff {v : Nat} :
    (∃ ix, (Domains.full m).isAlive v ix = true) ↔ m.domain v ≠ #[] := by
  simp only [Domains.isAlive_full_iff]
  rw [← Array.size_pos_iff]
  exact ⟨fun ⟨ix, h⟩ => by omega, fun h => ⟨0, h⟩⟩

theorem Propagation.consistent_iff {p : Propagation} :
    p.consistent = true ↔ p.verdict = .consistent := by
  simp [Propagation.consistent]

theorem Model.lt_size_of_domain_ne {v : Nat} (h : m.domain v ≠ #[]) : v < m.size := by
  by_contra hv
  apply h
  simp [Model.domain, Model.domain?, Array.getElem?_eq_none (Nat.not_lt.1 hv)]

theorem propagateAll_indices_of_empty {v : Nat} (hv : m.domain v = #[]) :
    (propagateAll m).domains.indices v = [] := by
  by_contra hsome
  obtain ⟨ix, hlive⟩ := List.exists_mem_of_ne_nil _ hsome
  have hbefore := propagate_within (.full m) m.allArcs v ix (Domains.mem_indices_iff.1 hlive)
  exact Domains.exists_isAlive_full_iff.1 ⟨ix, hbefore⟩ hv

section Verdict
variable (hm : m.Linked)
include hm

theorem Model.Linked.seeds_allArcs : m.Seeds (.full m) m.allArcs :=
  hm.covers_allArcs.seeds _

theorem propagateAll_leaves (h : (propagateAll m).verdict = .consistent) {v : Nat}
    (hv : m.domain v ≠ #[]) : (propagateAll m).domains.indices v ≠ [] := by
  obtain ⟨ix, hlive⟩ := Domains.exists_isAlive_full_iff.2 hv
  obtain ⟨jx, hleft⟩ :=
    propagate_leaves hm (Domains.belongsTo_full m) hm.seeds_allArcs.arcs h hlive
  exact List.ne_nil_of_mem (Domains.mem_indices_iff.2 hleft)

theorem propagateAll_wipes (h : (propagateAll m).verdict = .wipedOut) :
    ∃ v, m.domain v ≠ #[] ∧ (propagateAll m).domains.indices v = [] := by
  obtain ⟨v, hlive, hdead⟩ :=
    propagate_wipes hm (Domains.belongsTo_full m) hm.seeds_allArcs.arcs h
  exact ⟨v, Domains.exists_isAlive_full_iff.1 hlive, Domains.indices_eq_nil_iff.2 hdead⟩

theorem propagateAll_ne_foreign : (propagateAll m).verdict ≠ .foreign :=
  propagate_ne_foreign hm (Domains.belongsTo_full m) hm.seeds_allArcs.arcs

/-- Where propagation succeeds, a variable that never had a value has no neighbour that had one. -/
theorem propagateAll_domain_neighbor (h : (propagateAll m).verdict = .consistent) {v w : Nat}
    (hw : w ∈ m.neighbors v) (hv : m.domain v = #[]) : m.domain w = #[] := by
  by_contra hsome
  obtain ⟨ix, hlive⟩ := List.exists_mem_of_ne_nil _ (propagateAll_leaves hm h hsome)
  have hsettled := propagate_settled hm (Domains.belongsTo_full m) hm.seeds_allArcs.arcs
    hm.seeds_allArcs.settled h
  obtain ⟨jx, hjx, -⟩ := unsupported_eq_nil_iff.1
    (hsettled w v (hm.mem_neighbors_comm.1 hw) List.not_mem_nil) ix (Domains.mem_indices_iff.1 hlive)
  apply List.not_mem_nil
  rw [← propagateAll_indices_of_empty hv]
  exact Domains.mem_indices_iff.2 hjx

end Verdict

/-- **What the verdict of propagation tells.** On a built model propagation succeeds exactly when
every variable that had a value keeps one; where all domains have values, when every variable keeps
one. A variable without any from the start is passed over where its neighbours have none either. -/
theorem propagateAll_consistent_iff [BEq ν] (hm : m.Built) :
    (propagateAll m).verdict ≠ .foreign ∧
    (m.Total → (propagateAll m).verdict ≠ .undefined) ∧
    ((propagateAll m).verdict ≠ .undefined →
      ((propagateAll m).consistent = true ↔
        ∀ v < m.size, m.domain v ≠ #[] → (propagateAll m).domains.indices v ≠ []) ∧
      ((∀ v < m.size, m.domain v ≠ #[]) → ((propagateAll m).consistent = true ↔
        ∀ v < m.size, (propagateAll m).domains.indices v ≠ []))) ∧
    ((propagateAll m).consistent = true → ∀ v < m.size, m.domain v = #[] →
      (propagateAll m).domains.indices v = [] ∧ ∀ w ∈ m.neighbors v, m.domain w = #[]) := by
  have hlinked := hm.linked
  have hforeign := propagateAll_ne_foreign hlinked
  have hiff : (propagateAll m).verdict ≠ .undefined → ((propagateAll m).consistent = true ↔
      ∀ v < m.size, m.domain v ≠ #[] → (propagateAll m).domains.indices v ≠ []) := by
    intro hdefined
    rw [Propagation.consistent_iff]
    constructor
    · intro h v _ hv
      exact propagateAll_leaves hlinked h hv
    · intro hkept
      cases h : (propagateAll m).verdict with
      | consistent => rfl
      | wipedOut =>
        obtain ⟨v, hv, hnone⟩ := propagateAll_wipes hlinked h
        exact absurd hnone (hkept v (Model.lt_size_of_domain_ne hv) hv)
      | foreign => exact absurd h hforeign
      | undefined => exact absurd h hdefined
  refine ⟨hforeign, fun ht => propagate_ne_undefined hlinked ht _ _, ?_, ?_⟩
  · intro hdefined
    refine ⟨hiff hdefined, fun hsome => (hiff hdefined).trans ?_⟩
    exact forall₂_congr fun v hv => forall_prop_of_true (hsome v hv)
  · intro h v _ hv
    refine ⟨propagateAll_indices_of_empty hv, fun w hw => ?_⟩
    exact propagateAll_domain_neighbor hlinked (Propagation.consistent_iff.1 h) hw hv

/-- Two numbers, the first below the second, beside a variable without values. -/
def orderedBesideNothing : Model Nat :=
  .build [.addVariable "x" #[], .addVariable "y" #[1, 2], .addVariable "z" #[1, 2],
    .addConstraint 1 2 { holds := fun y z => y < z }]

/-- Propagation of the three succeeds, and each of the two numbers keeps a value. -/
theorem orderedBesideNothing_consistent :
    orderedBesideNothing.Built ∧ (propagateAll orderedBesideNothing).verdict ≠ .undefined ∧
    (propagateAll orderedBesideNothing).domains.indices 0 = [] ∧
    ∀ v < orderedBesideNothing.size, orderedBesideNothing.domain v ≠ #[] →
      (propagateAll orderedBesideNothing).domains.indices v ≠ [] := by
  have hm : orderedBesideNothing.Built := Model.built_build _
  have hconsistent : (propagateAll orderedBesideNothing).consistent = true := by cbv
  have hdefined : (propagateAll orderedBesideNothing).verdict ≠ .undefined := by
    rw [Propagation.consistent_iff.1 hconsistent]
    decide
  obtain ⟨-, -, hverdict, hempty⟩ := propagateAll_consistent_iff hm
  have hnone := (hempty hconsistent 0 (by cbv) (by cbv)).1
  exact ⟨hm, hdefined, hnone, (hverdict hdefined).1.1 hconsistent⟩

/-- A single variable without values. -/
def nothingToChoose : Model Nat := .build [.addVariable "x" #[]]

/-- The variable keeps no value, and yet propagation succeeds. -/
theorem nothingToChoose_consistent :
    nothingToChoose.Built ∧ nothingToChoose.Total ∧
    ¬ ((propagateAll nothingToChoose).consistent = true ↔
      ∀ v < nothingToChoose.size, (propagateAll nothingToChoose).domains.indices v ≠ []) := by
  have hconsistent : (propagateAll nothingToChoose).consistent = true := by cbv
  have hnone : (propagateAll nothingToChoose).domains.indices 0 = [] := by cbv
  have hno : nothingToChoose.constraints.toList = [] := by cbv
  refine ⟨Model.built_build _, fun c hc => ?_, fun h => ?_⟩
  · rw [hno] at hc
    cases hc
  · exact h.1 hconsistent 0 (by cbv) hnone

/-! ## Support that was asked for -/

theorem all_of_allM {α : Type} {p : α → Option Bool} {q : α → Bool} {l : List α} {b : Bool}
    (h : l.allM p = some b) (hq : ∀ x ∈ l, ∀ t, p x = some t → q x = t) : l.all q = b := by
  induction l with
  | nil => simpa using h
  | cons x rest ih =>
    rw [List.forall_mem_cons] at hq
    rw [List.allM_cons] at h
    rw [List.all_cons]
    cases hx : p x with
    | none => simp [hx] at h
    | some t =>
      have ht := hq.1 t hx
      cases t with
      | false => simpa [hx, ht] using h
      | true => simpa [ht] using ih (by simpa [hx] using h) hq.2

theorem exists_of_anyM {α : Type} {p : α → Option Bool} {q : α → Bool} {l : List α}
    (hdecided : (l.anyM p).isSome = true) (hq : ∀ x ∈ l, ∀ t, p x = some t → q x = t)
    (hany : l.any q = true) : ∃ x ∈ l, p x = some true := by
  induction l with
  | nil => simp at hany
  | cons x rest ih =>
    rw [List.forall_mem_cons] at hq
    rw [List.anyM_cons] at hdecided
    cases hx : p x with
    | none => simp [hx] at hdecided
    | some t =>
      have ht := hq.1 t hx
      cases t with
      | true => exact ⟨x, List.mem_cons_self, hx⟩
      | false =>
        obtain ⟨y, hy, hwanted⟩ := ih (by simpa [hx] using hdecided) hq.2 (by simpa [ht] using hany)
        exact ⟨y, List.mem_cons_of_mem _ hy, hwanted⟩

namespace Model

theorem Linked.compatible_of_compatible? (hm : m.Linked) {a x b y : Nat} {t : Bool}
    (h : m.compatible? a x b y = some t) : m.compatible a x b y = t := by
  unfold compatible? at h
  unfold compatible
  split at h
  next va vb hx hy =>
    rw [hm.consistent?_eq] at h
    rw [hm.consistent_eq]
    refine all_of_allM h fun r _ t hr => ?_
    unfold Relation.holds? at hr
    split at hr
    · exact Option.some.inj hr
    · cases hr
  next => exact Option.some.inj h

theorem compatible?_of_isTotalBetween {a b : Nat} (h : m.isTotalBetween a b = true) (x y : Nat) :
    m.compatible? a x b y = some (m.compatible a x b y) := by
  unfold compatible? compatible
  split
  · unfold consistent? consistent
    unfold isTotalBetween at h
    cases hlink : (m.linksOf a).find? (·.neighbor == b) with
    | none => rfl
    | some link =>
      rw [hlink, Option.all_some] at h
      exact allM_eq_some_all fun r hr => Relation.holds?_of_isTotal (List.all_eq_true.1 h r hr) _ _
  · rfl

/-- Each live value of a variable has a live one at the other that was found compatible. -/
def Backed (m : Model ν) (d : Domains) (a b : Nat) : Prop :=
  ∀ x, d.isAlive a x = true → ∃ y, d.isAlive b y = true ∧ m.compatible? a x b y = some true

theorem Linked.exists_backing (hm : m.Linked) {d : Domains} {a b x : Nat}
    (hcan : canRevise m d a b = true) (hx : d.isAlive a x = true)
    (hsupported : supported m d a x b = true) :
    ∃ y, d.isAlive b y = true ∧ m.compatible? a x b y = some true := by
  unfold canRevise at hcan
  rw [Bool.or_eq_true] at hcan
  rcases hcan with htotal | hdecided
  · obtain ⟨y, hy, hcompatible⟩ := List.any_eq_true.1 hsupported
    refine ⟨y, Domains.mem_indices_iff.1 hy, ?_⟩
    rw [compatible?_of_isTotalBetween htotal, hcompatible]
  · have hasked := List.all_eq_true.1 hdecided x (Domains.mem_indices_iff.2 hx)
    obtain ⟨y, hy, hfound⟩ := exists_of_anyM hasked
      (fun y _ t ht => hm.compatible_of_compatible? ht) hsupported
    exact ⟨y, Domains.mem_indices_iff.1 hy, hfound⟩

/-- A revision backs its own arc, and keeps every other one backed but for those that are queued. -/
theorem Backed.revise (hm : m.Linked) {d : Domains} {xi xj a b : Nat} {queue : List Arc}
    (hcan : canRevise m d xi xj = true) (hj : xj ∈ m.neighbors xi) (hb : b ∈ m.neighbors a)
    (h : (a, b) ∉ (xi, xj) :: queue → m.Backed d a b)
    (hqueue : (a, b) ∉ queue ++ m.arcsTo xi xj) : m.Backed (revise m d xi xj).1 a b := by
  have hne : xi ≠ xj := (hm.lt_size_of_mem_neighbors hj).2.2
  rw [List.mem_append, not_or] at hqueue
  obtain ⟨hqueue, harcs⟩ := hqueue
  intro x hx
  rw [isAlive_revise] at hx
  obtain ⟨hx, hsupport⟩ := hx
  by_cases harc : (a, b) = (xi, xj)
  · obtain ⟨rfl, rfl⟩ := Prod.mk.inj harc
    obtain ⟨y, hy, hcompatible⟩ := hsupport rfl
    have hsupported : supported m d a x b = true :=
      List.any_eq_true.2 ⟨y, Domains.mem_indices_iff.2 hy, hcompatible⟩
    obtain ⟨z, hz, hfound⟩ := hm.exists_backing hcan hx hsupported
    exact ⟨z, isAlive_revise.2 ⟨hz, fun heq => absurd heq hne.symm⟩, hfound⟩
  · obtain ⟨y, hy, hfound⟩ := h (by simp [harc, hqueue]) x hx
    refine ⟨y, isAlive_revise.2 ⟨hy, ?_⟩, hfound⟩
    -- an arc into the revised variable that does not wait is the arc back
    rintro rfl
    obtain rfl := hm.eq_of_not_mem_arcsTo hb harcs
    exact ⟨x, hx, by rw [hm.compatible_comm]; exact hm.compatible_of_compatible? hfound⟩

end Model

/-- A run that ends in consistent domains backs every arc that waited or was backed. -/
theorem propagate_backed (hm : m.Linked) {d : Domains} {queue : List Arc}
    (hq : ∀ arc ∈ queue, arc.2 ∈ m.neighbors arc.1) {a b : Nat} (hb : b ∈ m.neighbors a)
    (hbacked : (a, b) ∉ queue → m.Backed d a b) (h : (propagate m d queue).2 = .consistent) :
    m.Backed (propagate m d queue).1 a b := by
  refine propagate_induct (m := m)
    (q := fun d queue r => (∀ arc ∈ queue, arc.2 ∈ m.neighbors arc.1) →
      ((a, b) ∉ queue → m.Backed d a b) → r.2 = .consistent → m.Backed r.1 a b)
    ?done ?foreign ?undecided ?settled ?wiped ?revised d queue hq hbacked h
  case done => exact fun d _ hbacked _ => hbacked List.not_mem_nil
  case foreign => exact fun d xi xj queue _ _ _ => nofun
  case undecided => exact fun d xi xj queue _ _ _ _ => nofun
  case settled =>
    intro d xi xj queue r harc hnone ih hq hbacked
    refine ih (fun arc h => hq arc (List.mem_cons_of_mem _ h)) fun hqueue => ?_
    by_cases heq : (a, b) = (xi, xj)
    · obtain ⟨rfl, rfl⟩ := Prod.mk.inj heq
      intro x hx
      obtain ⟨y, hy, hcompatible⟩ := unsupported_eq_nil_iff.1 hnone x hx
      exact hm.exists_backing harc.defined hx
        (List.any_eq_true.2 ⟨y, Domains.mem_indices_iff.2 hy, hcompatible⟩)
    · exact hbacked (by simp [heq, hqueue])
  case wiped => exact fun d xi xj queue _ _ _ _ _ => nofun
  case revised =>
    intro d xi xj queue r harc _ _ ih hq hbacked
    have hj := hq _ List.mem_cons_self
    refine ih (fun arc h => ?_) (Model.Backed.revise hm harc.defined hj hb hbacked)
    rcases List.mem_append.1 h with h | h
    · exact hq arc (List.mem_cons_of_mem _ h)
    · exact mem_arcsTo hm h

/-! ## One live value each -/

theorem forall₂_of_mapM {α β : Type} {f : α → Option β} {l : List α} :
    ∀ {r : List β}, l.mapM f = some r → List.Forall₂ (fun x y => f x = some y) l r := by
  induction l with
  | nil =>
    intro r h
    obtain rfl : [] = r := by simpa using h
    exact .nil
  | cons x rest ih =>
    intro r h
    rw [List.mapM_cons] at h
    obtain ⟨y, hy, h⟩ := Option.bind_eq_some_iff.1 h
    obtain ⟨ys, hys, h⟩ := Option.bind_eq_some_iff.1 h
    obtain rfl : y :: ys = r := by simpa using h
    exact .cons hy (ih hys)

/-- Each variable of a model has one live value, at its place. -/
structure Domains.Leaves (d : Domains) (m : Model ν) (places : List Nat) : Prop where
  length_eq : places.length = m.size
  indices_eq : ∀ v < m.size, d.indices v = [places.getD v 0]

namespace Domains.Leaves
variable {d : Domains} {places : List Nat}

theorem isAlive_iff (h : d.Leaves m places) {v ix : Nat} (hv : v < m.size) :
    d.isAlive v ix = true ↔ ix = places.getD v 0 := by
  rw [← Domains.mem_indices_iff, h.indices_eq v hv, List.mem_singleton]

theorem getElem? (h : d.Leaves m places) {v : Nat} (hv : v < m.size) :
    (places.map some).toArray[v]? = some (some (places.getD v 0)) := by
  simp [List.getD, h.length_eq, hv]

theorem consistent (h : d.Leaves m places) (hm : m.Linked) (hd : d.BelongsTo m)
    (hbacked : ∀ a b, b ∈ m.neighbors a → m.Backed d a b) :
    m.Consistent (places.map some).toArray := by
  have hplace : ∀ {v ix : Nat}, (places.map some).toArray[v]? = some (some ix) →
      d.isAlive v ix = true := by
    intro v ix hix
    have hv : v < m.size := by
      obtain ⟨hlt, -⟩ := Array.getElem?_eq_some_iff.1 hix
      simpa [h.length_eq] using hlt
    rw [h.isAlive_iff hv]
    simpa using hix.symm.trans (h.getElem? hv)
  refine ⟨by simp [h.length_eq], fun v ix hix => hd.lt_size v ix (hplace hix), ?_⟩
  intro a x b y hx hy
  by_cases hb : b ∈ m.neighbors a
  · obtain ⟨ix, hix, hx⟩ := Model.exists_of_valueAt? hx
    obtain ⟨jx, hjx, hy⟩ := Model.exists_of_valueAt? hy
    have hlt := (hm.lt_size_of_mem_neighbors hb).2.1
    obtain ⟨kx, hkx, hcompatible⟩ := hbacked a b hb ix (hplace hix)
    obtain rfl : kx = jx :=
      ((h.isAlive_iff hlt).1 hkx).trans ((h.isAlive_iff hlt).1 (hplace hjx)).symm
    unfold Model.compatible? at hcompatible
    rw [hx, hy] at hcompatible
    dsimp only at hcompatible
    rw [hm.consistent?_eq] at hcompatible
    exact allM_eq_some_true_iff.1 hcompatible
  · rw [hm.mem_neighbors_iff, not_not] at hb
    intro r hr
    rw [hb] at hr
    cases hr

theorem solves (h : d.Leaves m places) (hm : m.Linked) (hd : d.BelongsTo m)
    (hbacked : ∀ a b, b ∈ m.neighbors a → m.Backed d a b) : m.Solves places := by
  refine ⟨h.length_eq, (h.consistent hm hd hbacked).satisfies hm fun v hv => ?_⟩
  simp at hv

theorem eq_of_isAlive (h : d.Leaves m places) {other : List Nat} (hlength : other.length = m.size)
    (halive : ∀ v < m.size, d.isAlive v (other.getD v 0) = true) : other = places := by
  refine List.ext_getElem (hlength.trans h.length_eq.symm) fun v hv hv' => ?_
  have hlt : v < m.size := hlength ▸ hv
  have heq := (h.isAlive_iff hlt).1 (halive v hlt)
  simpa [List.getD, hv, hv'] using heq

end Domains.Leaves

theorem Propagation.exists_leaves {p : Propagation} {a : Assignment ν}
    (h : p.solution? m = some a) :
    p.verdict = .consistent ∧ ∃ places, p.domains.Leaves m places ∧ a = m.atPlaces places := by
  unfold Propagation.solution? at h
  split at h
  next hconsistent =>
    obtain ⟨values, hvalues, rfl⟩ := Option.map_eq_some_iff.1 h
    have hall := forall₂_of_mapM hvalues
    have hlength : values.length = m.size := by simpa using hall.length_eq.symm
    have hone : ∀ v < m.size, p.domains.indices v = [(p.domains.indices v).head?.getD 0] ∧
        (m.domain v)[(p.domains.indices v).head?.getD 0]? = values[v]? := by
      intro v hv
      have hvalue := hall.get (i := v) (by simpa using hv) (by omega)
      rw [List.get_eq_getElem, List.getElem_range] at hvalue
      split at hvalue
      next ix hix => exact ⟨by rw [hix]; rfl, by simpa [hix, hlength, hv] using hvalue⟩
      next => cases hvalue
    refine ⟨Propagation.consistent_iff.1 hconsistent,
      (List.range m.size).map fun v => (p.domains.indices v).head?.getD 0,
      ⟨by simp, fun v hv => ?_⟩, ?_⟩
    · rw [(hone v hv).1]
      simp [List.getD, hv]
    · unfold Model.atPlaces Model.materialize
      refine congrArg Assignment.mk (Array.ext_getElem? fun v => ?_)
      by_cases hv : v < m.size
      · simp [hv, hlength, (hone v hv).2]
      · simp [hv, hlength]
  next => cases h

/-! ## What propagation solves -/

theorem backtrackingSearch_outcome (hm : m.Linked) {config : BacktrackConfig}
    (hbudget : config.maxAssignments = none) :
    (∃ places, m.Solves places ∧
      (backtrackingSearch m config).solution = .solved (m.atPlaces places)) ∨
    ((backtrackingSearch m config).solution = .unsatisfiable ∧ ∀ a : Assignment ν, ¬ a.Satisfies m) ∨
    ((backtrackingSearch m config).solution = .undefined ∧ ¬ m.Total) := by
  have hbranch := backtrack_full hm config
  unfold backtrackingSearch
  generalize backtrack m config m.size ⟨.full m, 0, 0⟩ (Array.replicate m.size none) = r at hbranch ⊢
  obtain ⟨s, verdict⟩ := r
  cases verdict with
  | solved assigned =>
    obtain ⟨places, rfl⟩ := Model.exists_places hbranch.2
    refine .inl ⟨places, ⟨by simpa using hbranch.1.size_eq, ?_⟩, rfl⟩
    exact hbranch.1.satisfies hm hbranch.2
  | failed =>
    refine .inr (.inl ⟨rfl, fun a ha => ?_⟩)
    obtain ⟨choice, hf⟩ := Model.exists_fits_of_satisfies hm ha
    exact hbranch.2 choice hf hf
  | outOfBudget => exact absurd hbudget hbranch
  | undefined => exact .inr (.inr ⟨rfl, hbranch⟩)

/-- Propagation that leaves one value each leaves the one solution. -/
theorem Domains.Leaves.solves_iff (hm : m.Linked) {places : List Nat}
    (h : (propagateAll m).domains.Leaves m places) (hverdict : (propagateAll m).verdict = .consistent)
    (other : List Nat) : m.Solves other ↔ other = places := by
  have hfull := Domains.belongsTo_full m
  have harcs := hm.seeds_allArcs.arcs
  constructor
  · intro hother
    have hkeeps := (propagate_keeps hm ((hother.fits hm).sustains hm) hfull ?_ harcs).1
    · exact h.eq_of_isAlive hother.length_eq fun v hv => hkeeps v _ ⟨hv, rfl⟩
    · rintro v ix ⟨hv, rfl⟩
      exact (Domains.isAlive_full_iff m v _).2 ((hother.fits hm).lt_size v hv)
  · rintro rfl
    refine h.solves hm ?_ fun a b hb => ?_
    · exact propagate_preserves (p := fun d => d.BelongsTo m)
        (fun _ v places h => h.pruneAll v places) _ hfull
    · exact propagate_backed hm harcs hb (fun hqueue => absurd (hm.mem_allArcs_iff.2 hb) hqueue)
        hverdict

/-- **What propagation leaves is the one solution.** If propagation of a built model leaves an
assignment, that is a solution, no other places of the domains give one, and backtracking without a
budget finds it under all orders and inferences, unless it comes to values for which a relation is
undefined, which it does not where all are defined. -/
theorem propagateAll_solution [BEq ν] (hm : m.Built) {a : Assignment ν}
    (h : (propagateAll m).solution? m = some a) :
    m.isSolution? a = some true ∧
    (∃ places, a = m.atPlaces places ∧ ∀ other, m.Solves other ↔ other = places) ∧
    ∀ config : BacktrackConfig, config.maxAssignments = none →
      (m.Total → (backtrackingSearch m config).solution = .solved a) ∧
      ((backtrackingSearch m config).solution ≠ .undefined →
        (backtrackingSearch m config).solution = .solved a) := by
  have hlinked := hm.linked
  obtain ⟨hverdict, places, hleaves, rfl⟩ := Propagation.exists_leaves h
  have hone := hleaves.solves_iff hlinked hverdict
  have hsolves : m.Solves places := (hone places).2 rfl
  refine ⟨?_, ⟨places, rfl, hone⟩, fun config hbudget => ?_⟩
  · rw [hlinked.isSolution?_eq_some_true_iff]
    exact ⟨fun v hv => (hsolves.satisfies.value v hv).imp fun x hx => hx.2, hsolves.satisfies.holds⟩
  · rcases backtrackingSearch_outcome hlinked hbudget with
      ⟨other, hother, hsolved⟩ | ⟨-, hnone⟩ | ⟨hundefined, hpartial⟩
    · obtain rfl := (hone other).1 hother
      exact ⟨fun _ => hsolved, fun _ => hsolved⟩
    · exact absurd hsolves.satisfies (hnone _)
    · exact ⟨fun ht => absurd ht hpartial, fun hdefined => absurd hundefined hdefined⟩

/-- The one way to choose three ascending numbers of three, found by propagation and by every
search. -/
theorem ascending_solution :
    (propagateAll ascending).solution? ascending = some ⟨#[some 1, some 2, some 3]⟩ ∧
    ascending.isSolution? ⟨#[some 1, some 2, some 3]⟩ = some true ∧
    ∀ variableOrder valueOrder inference,
      (backtrackingSearch ascending ⟨variableOrder, valueOrder, inference, none⟩).solution =
        .solved ⟨#[some 1, some 2, some 3]⟩ := by
  have hleft : (propagateAll ascending).solution? ascending =
      some ⟨#[some 1, some 2, some 3]⟩ := by cbv
  have htotal : ascending.Total := by
    intro c hc
    rcases List.mem_pair.1 hc with rfl | rfl <;> rfl
  obtain ⟨hsolution, -, hfound⟩ := propagateAll_solution built_ascending hleft
  exact ⟨hleft, hsolution, fun _ _ _ => (hfound _ rfl).1 htotal⟩

end ProblemSolving
