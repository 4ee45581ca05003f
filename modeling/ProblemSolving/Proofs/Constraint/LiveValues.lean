import ProblemSolving.Constraint.Domains

/-!
# Live values under removal and undoing

* `isAlive_prune`, `isAlive_pruneAll`, `isAlive_restrictTo` : what a removal leaves alive.
* `Domains.Counted` : the recorded sizes are the numbers of live values, so a wiped-out variable is
  one without live values (`isWipedOut_iff`).
* `Domains.Agrees` : the same marks, sizes and trail.
* `Domains.UndoesTo` : undoing what was removed since an earlier state leads back to it
  (`UndoesTo.agrees_undoTo`).
-/

namespace ProblemSolving
namespace Domains

/-! ## What stays alive -/

theorem isAlive_eq_true_iff {d : Domains} {v ix : Nat} :
    d.isAlive v ix = true ↔ ∃ marks, d.alive[v]? = some marks ∧ marks[ix]? = some true := by
  unfold isAlive isAlive?
  cases hv : d.alive[v]? with
  | none => simp
  | some marks => cases hix : marks[ix]? <;> simp [hix]

theorem mem_indices_iff {d : Domains} {v ix : Nat} :
    ix ∈ d.indices v ↔ d.isAlive v ix = true := by
  refine ⟨isAlive_of_mem_indices, fun h => ?_⟩
  obtain ⟨marks, hv, hix⟩ := isAlive_eq_true_iff.1 h
  obtain ⟨hlt, -⟩ := Array.getElem?_eq_some_iff.1 hix
  simp only [indices, hv, Option.getD_some, List.mem_filter, List.mem_range]
  exact ⟨hlt, by rw [hix]; rfl⟩

theorem alive_prune (d : Domains) (v ix : Nat) :
    (d.prune v ix).alive = d.alive.modify v fun marks => marks.setIfInBounds ix false := by
  unfold prune
  split
  · rfl
  · rename_i hdead
    refine Array.ext_getElem? fun w => ?_
    rw [Array.getElem?_modify]
    split
    · rename_i hw
      subst hw
      cases hv : d.alive[v]? with
      | none => rfl
      | some marks =>
        refine congrArg some (Array.ext_getElem? fun jx => ?_)
        rw [Array.getElem?_setIfInBounds]
        split
        · rename_i hjx
          subst hjx
          split
          · rename_i hlt
            rw [Array.getElem?_eq_getElem hlt]
            cases hb : marks[ix] with
            | false => rfl
            | true =>
              exact absurd (isAlive_eq_true_iff.2 ⟨marks, hv, by
                rw [Array.getElem?_eq_getElem hlt, hb]⟩) hdead
          · rename_i hlt
            exact Array.getElem?_eq_none (by omega)
        · rfl
    · rfl

@[simp] theorem isAlive_prune (d : Domains) (v ix w jx : Nat) :
    (d.prune v ix).isAlive w jx = (d.isAlive w jx && !(w == v && jx == ix)) := by
  unfold isAlive isAlive?
  rw [alive_prune, Array.getElem?_modify]
  by_cases hw : v = w
  · subst hw
    cases hv : d.alive[v]? with
    | none => simp
    | some marks =>
      by_cases hjx : ix = jx
      · subst hjx
        by_cases hlt : ix < marks.size
        · simp [hlt]
        · simp [hlt]
      · simp [hjx, Ne.symm hjx]
  · simp [hw, Ne.symm hw]

@[simp] theorem isAlive_pruneAll (v : Nat) (places : List Nat) (w jx : Nat) :
    ∀ d : Domains, (d.pruneAll v places).isAlive w jx =
      (d.isAlive w jx && !(w == v && places.contains jx)) := by
  induction places with
  | nil => intro d; simp [pruneAll]
  | cons ix rest ih =>
    intro d
    have h := ih (d.prune v ix)
    unfold pruneAll at h ⊢
    rw [List.foldl_cons, h, isAlive_prune, List.contains_cons]
    cases d.isAlive w jx <;> cases w == v <;> cases jx == ix <;> simp

/-- Restricting a variable keeps its one value, if that was alive, and every other variable. -/
@[simp] theorem isAlive_restrictTo (d : Domains) (v ix w jx : Nat) :
    (d.restrictTo v ix).isAlive w jx = (d.isAlive w jx && (w != v || jx == ix)) := by
  unfold restrictTo
  rw [isAlive_pruneAll]
  cases halive : d.isAlive w jx with
  | false => rfl
  | true =>
    by_cases hw : w = v
    · subst hw
      obtain ⟨marks, hv, hjx⟩ := isAlive_eq_true_iff.1 halive
      obtain ⟨hlt, -⟩ := Array.getElem?_eq_some_iff.1 hjx
      by_cases h : jx = ix <;> simp [hv, hlt, h]
    · have hne : (w == v) = false := by simpa using hw
      simp [hne, bne]

@[simp] theorem size_alive_prune (d : Domains) (v ix : Nat) :
    (d.prune v ix).alive.size = d.alive.size := by
  rw [alive_prune, Array.size_modify]

@[simp] theorem size_alive_pruneAll (v : Nat) (places : List Nat) :
    ∀ d : Domains, (d.pruneAll v places).alive.size = d.alive.size := by
  induction places with
  | nil => intro d; rfl
  | cons ix rest ih => intro d; exact (ih (d.prune v ix)).trans (size_alive_prune d v ix)

@[simp] theorem size_alive_restrictTo (d : Domains) (v ix : Nat) :
    (d.restrictTo v ix).alive.size = d.alive.size :=
  size_alive_pruneAll v _ d

/-! ## Sizes -/

/-- The recorded sizes are the numbers of live values. -/
def Counted (d : Domains) : Prop := d.sizes = d.alive.map fun marks => marks.count true

theorem counted_full {ν : Type} (m : Model ν) : (full m).Counted := by
  unfold Counted full
  rw [Array.map_map]
  refine Array.map_congr_left fun x _ => ?_
  rw [Function.comp_apply, Array.count_replicate_self]

theorem Counted.size? {d : Domains} (hd : d.Counted) (v : Nat) :
    d.size? v = d.alive[v]?.map fun marks => marks.count true := by
  unfold Domains.size?
  rw [hd, Array.getElem?_map]

theorem count_setIfInBounds_false {marks : Array Bool} {ix : Nat} (h : marks[ix]? = some true) :
    (marks.setIfInBounds ix false).count true + 1 = marks.count true := by
  obtain ⟨hlt, hb⟩ := Array.getElem?_eq_some_iff.1 h
  have hpos : 0 < marks.count true := Array.count_pos_iff.2 (hb ▸ Array.getElem_mem hlt)
  rw [Array.setIfInBounds_def, dif_pos hlt, Array.count_set hlt, hb]
  simp only [beq_self_eq_true, if_true, show (false == true) = false from rfl, Bool.false_eq_true,
    if_false]
  omega

theorem Counted.prune {d : Domains} (hd : d.Counted) (v ix : Nat) : (d.prune v ix).Counted := by
  cases halive : d.isAlive v ix with
  | false => rwa [prune_of_dead halive]
  | true =>
    obtain ⟨marks, hv, hix⟩ := isAlive_eq_true_iff.1 halive
    have hsizes : (d.prune v ix).sizes = d.sizes.modify v (· - 1) := by
      unfold Domains.prune
      rw [if_pos halive]
    unfold Counted
    rw [hsizes, alive_prune, hd]
    refine Array.ext_getElem? fun w => ?_
    rw [Array.getElem?_modify, Array.getElem?_map, Array.getElem?_map, Array.getElem?_modify]
    split
    · rename_i hw
      subst hw
      have hcount := count_setIfInBounds_false hix
      rw [hv, Option.map_some, Option.map_some, Option.map_some, Option.map_some]
      exact congrArg some (by omega)
    · rfl

theorem Counted.pruneAll (v : Nat) (places : List Nat) :
    ∀ {d : Domains}, d.Counted → (d.pruneAll v places).Counted := by
  induction places with
  | nil => intro d hd; exact hd
  | cons ix rest ih => intro d hd; exact ih (hd.prune v ix)

theorem Counted.restrictTo {d : Domains} (hd : d.Counted) (v ix : Nat) :
    (d.restrictTo v ix).Counted :=
  hd.pruneAll v _

/-- A variable is wiped out when it has no live value. -/
theorem Counted.isWipedOut_iff {d : Domains} (hd : d.Counted) {v : Nat} (hv : d.covers v = true) :
    d.isWipedOut v = true ↔ ∀ ix, d.isAlive v ix = false := by
  have hlt : v < d.alive.size := by simpa [covers] using hv
  have hget : d.alive[v]? = some d.alive[v] := Array.getElem?_eq_getElem hlt
  unfold isWipedOut
  rw [hd.size? v, hget, Option.map_some, beq_iff_eq, Option.some_inj, Array.count_eq_zero]
  refine ⟨fun h ix => ?_, fun h hmem => ?_⟩
  · cases halive : d.isAlive v ix with
    | false => rfl
    | true =>
      obtain ⟨marks, hmarks, hix⟩ := isAlive_eq_true_iff.1 halive
      obtain rfl : d.alive[v] = marks := Option.some.inj (hget.symm.trans hmarks)
      exact absurd (Array.mem_of_getElem? hix) h
  · obtain ⟨ix, hix⟩ := Array.getElem?_of_mem hmem
    exact absurd (isAlive_eq_true_iff.2 ⟨_, hget, hix⟩) (by rw [h ix]; decide)

/-! ## Going back -/

/-- The same but for the number of removals ever made. -/
structure Agrees (d d' : Domains) : Prop where
  alive : d.alive = d'.alive
  sizes : d.sizes = d'.sizes
  trail : d.trail = d'.trail

theorem Agrees.refl (d : Domains) : d.Agrees d := ⟨rfl, rfl, rfl⟩

theorem Agrees.trans {d₁ d₂ d₃ : Domains} (h : d₁.Agrees d₂) (h' : d₂.Agrees d₃) : d₁.Agrees d₃ :=
  ⟨h.alive.trans h'.alive, h.sizes.trans h'.sizes, h.trail.trans h'.trail⟩

theorem Agrees.isAlive {d d' : Domains} (h : d.Agrees d') (v ix : Nat) :
    d.isAlive v ix = d'.isAlive v ix := by
  unfold Domains.isAlive isAlive?
  rw [h.alive]

theorem Agrees.counted {d d' : Domains} (h : d.Agrees d') (hd : d'.Counted) : d.Counted := by
  unfold Counted
  rw [h.sizes, h.alive]
  exact hd

theorem Agrees.undoOne {d d' : Domains} (h : d.Agrees d') : d.undoOne.Agrees d'.undoOne := by
  unfold Domains.undoOne
  rw [h.trail]
  split
  · exact h
  · exact ⟨by rw [h.alive], by rw [h.sizes], rfl⟩

theorem Agrees.undo : ∀ (removals : Nat) {d d' : Domains},
    d.Agrees d' → (Domains.undo removals d).Agrees (Domains.undo removals d')
  | 0, _, _, h => h
  | removals + 1, _, _, h => Agrees.undo removals h.undoOne

/-- Bringing a removed value back leads to where it was removed. -/
theorem Counted.undoOne_prune {d : Domains} (hd : d.Counted) {v ix : Nat}
    (halive : d.isAlive v ix = true) : (d.prune v ix).undoOne.Agrees d := by
  obtain ⟨marks, hv, hix⟩ := isAlive_eq_true_iff.1 halive
  have hpos : 0 < marks.count true := by
    have := count_setIfInBounds_false hix
    omega
  unfold Domains.prune
  rw [if_pos halive]
  refine ⟨?_, ?_, rfl⟩
  · refine Array.ext_getElem? fun w => ?_
    simp only [Domains.undoOne, Array.getElem?_modify]
    split
    · rename_i hw
      subst hw
      rw [hv, Option.map_some, Option.map_some, Array.setIfInBounds_setIfInBounds]
      refine congrArg some (Array.ext_getElem? fun jx => ?_)
      rw [Array.getElem?_setIfInBounds]
      split
      · rename_i hjx
        subst hjx
        obtain ⟨hlt, -⟩ := Array.getElem?_eq_some_iff.1 hix
        rw [if_pos hlt, hix]
      · rfl
    · rfl
  · refine Array.ext_getElem? fun w => ?_
    simp only [Domains.undoOne, Array.getElem?_modify]
    split
    · rename_i hw
      subst hw
      have hsize : d.sizes[v]? = some (marks.count true) := by rw [hd, Array.getElem?_map, hv]; rfl
      rw [hsize, Option.map_some, Option.map_some]
      exact congrArg some (by omega)
    · rfl

/-- Undoing what was removed since an earlier state leads back to it. -/
def UndoesTo (d' d : Domains) : Prop :=
  ∃ removals, d'.trail.length = d.trail.length + removals ∧ (undo removals d').Agrees d

theorem UndoesTo.refl (d : Domains) : d.UndoesTo d := ⟨0, rfl, Agrees.refl d⟩

theorem UndoesTo.of_agrees {d d' d'' : Domains} (h : d'.UndoesTo d) (h' : d''.Agrees d') :
    d''.UndoesTo d := by
  obtain ⟨removals, hlength, hagrees⟩ := h
  exact ⟨removals, by rw [h'.trail]; exact hlength, (h'.undo removals).trans hagrees⟩

theorem UndoesTo.prune {d d' : Domains} (h : d'.UndoesTo d) (hd' : d'.Counted) (v ix : Nat) :
    (d'.prune v ix).UndoesTo d := by
  cases halive : d'.isAlive v ix with
  | false => rwa [prune_of_dead halive]
  | true =>
    obtain ⟨removals, hlength, hagrees⟩ := h
    refine ⟨removals + 1, ?_, ((hd'.undoOne_prune halive).undo removals).trans hagrees⟩
    unfold Domains.prune
    rw [if_pos halive, List.length_cons]
    omega

theorem UndoesTo.pruneAll (v : Nat) (places : List Nat) : ∀ {d d' : Domains},
    d'.UndoesTo d → d'.Counted → (d'.pruneAll v places).UndoesTo d := by
  induction places with
  | nil => intro d d' h _; exact h
  | cons ix rest ih => intro d d' h hd'; exact ih (h.prune hd' v ix) (hd'.prune v ix)

theorem UndoesTo.restrictTo {d d' : Domains} (h : d'.UndoesTo d) (hd' : d'.Counted) (v ix : Nat) :
    (d'.restrictTo v ix).UndoesTo d :=
  h.pruneAll v _ hd'

theorem UndoesTo.agrees_undoTo {d d' : Domains} (h : d'.UndoesTo d) :
    (d'.undoTo d.checkpoint).Agrees d := by
  obtain ⟨removals, hlength, hagrees⟩ := h
  unfold undoTo checkpoint
  rw [hlength, Nat.add_sub_cancel_left]
  exact hagrees

end Domains
end ProblemSolving
