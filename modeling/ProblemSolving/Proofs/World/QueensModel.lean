import Mathlib
import ProblemSolving.Proofs.Constraint.Meaning
import ProblemSolving.Proofs.Constraint.RepairRounds
import ProblemSolving.Proofs.World.Queens
import ProblemSolving.World.Models

/-!
# Queens as a constraint model

* `QueensModel` : a variable for each column, and a constraint for every two of them; building the
  model leads there (`exists_queensModel`).
* `QueensModel.consistent_eq` : two values are consistent unless the queens attack each other.
* `QueensModel.sum_conflicts`, `QueensModel.isSolution_eq` : conflicts and solutions of the model
  are those of the board.
* `QueensModel.exists_board` : what satisfies the model is a peaceful board.
* `queensModel_agrees` : all of it, and what the solvers find.
-/

namespace ProblemSolving

open Queens

/-! ## Building the model -/

/-- The variable of a column. -/
def queenVariable (n column : Nat) : Variable Nat := ⟨"Q" ++ toString column, Array.range n⟩

/-- The constraints of every two columns. -/
def queenConstraints (n : Nat) : List (Constraint Nat) :=
  (List.range n).flatMap fun a =>
    (List.range (n - 1 - a)).map fun k => ⟨a, a + 1 + k, { holds := peaceful (k + 1) }⟩

/-- A model of a variable for each column and a constraint for every two of them. -/
structure QueensModel (n : Nat) (m : Model Nat) : Prop where
  built : m.Built
  vars : m.vars.toList = (List.range n).map (queenVariable n)
  constraints : m.constraints.toList = queenConstraints n

theorem mem_queenConstraints_iff {n : Nat} {c : Constraint Nat} :
    c ∈ queenConstraints n ↔
      ∃ a b, a < b ∧ b < n ∧ c = ⟨a, b, { holds := peaceful (b - a) }⟩ := by
  simp only [queenConstraints, List.mem_flatMap, List.mem_map, List.mem_range]
  constructor
  · rintro ⟨a, ha, k, hk, rfl⟩
    refine ⟨a, a + 1 + k, by omega, by omega, ?_⟩
    rw [show a + 1 + k - a = k + 1 by omega]
  · rintro ⟨a, b, hab, hb, rfl⟩
    refine ⟨a, by omega, b - a - 1, by omega, ?_⟩
    rw [show a + 1 + (b - a - 1) = b by omega, show b - a - 1 + 1 = b - a by omega]

theorem find?_queenVariable {n k : Nat} {m : Model Nat}
    (hvars : m.vars.toList = (List.range k).map (queenVariable n)) :
    m.find? ("Q" ++ toString k) = none := by
  refine Array.findIdx?_eq_none_iff.2 fun x hx => ?_
  rw [← Array.mem_toList_iff, hvars] at hx
  obtain ⟨column, hcolumn, rfl⟩ := List.mem_map.1 hx
  rw [List.mem_range] at hcolumn
  refine beq_eq_false_iff_ne.2 fun heq => ?_
  rw [queenVariable, String.append_right_inj, Nat.toString_eq_repr, Nat.toString_eq_repr,
    Nat.repr_inj] at heq
  omega

theorem exists_addColumns (n : Nat) : ∃ m : Model Nat, addColumns n .empty = .ok m ∧ m.Built ∧
    m.vars.toList = (List.range n).map (queenVariable n) ∧ m.constraints.toList = [] := by
  have hprefix : ∀ k, ∃ m : Model Nat, (List.range k).foldlM
      (fun (m : Model Nat) column => m.addVariable ("Q" ++ toString column) (Array.range n)) .empty
        = .ok m ∧
      m.Built ∧ m.vars.toList = (List.range k).map (queenVariable n) ∧
        m.constraints.toList = [] := by
    intro k
    induction k with
    | zero => exact ⟨.empty, rfl, .empty, rfl, rfl⟩
    | succ k ih =>
      obtain ⟨m, hfold, hbuilt, hvars, hconstraints⟩ := ih
      obtain ⟨m', hadd⟩ := Model.exists_addVariable (find?_queenVariable hvars) (Array.range n)
      obtain ⟨hvars', hconstraints'⟩ := Model.addVariable_eq_ok hadd
      refine ⟨m', ?_, .addVariable hbuilt hadd, ?_, by rw [hconstraints', hconstraints]⟩
      · rw [List.range_succ, List.foldlM_append, hfold]
        exact (bind_pure _).trans hadd
      · rw [hvars', Array.toList_push, hvars, List.range_succ, List.map_append]
        rfl
  exact hprefix n

theorem addPeace_eq (n : Nat) (m : Model Nat) :
    addPeace n m = (queenConstraints n).foldlM
      (fun m c => m.addConstraint c.left c.right c.relation) m := by
  unfold addPeace queenConstraints
  generalize List.range n = columns
  induction columns generalizing m with
  | nil => rfl
  | cons a rest ih =>
    rw [List.foldlM_cons, List.flatMap_cons, List.foldlM_append, List.foldlM_map]
    exact bind_congr fun m' => ih m'

theorem exists_queensModel (n : Nat) : ∃ m, queensModel n = .ok m ∧ QueensModel n m := by
  obtain ⟨m₀, hcolumns, hbuilt₀, hvars₀, hconstraints₀⟩ := exists_addColumns n
  have hsize : m₀.size = n := by
    rw [Model.size, ← Array.length_toList, hvars₀, List.length_map, List.length_range]
  obtain ⟨m, hpeace, hbuilt, hvars, hconstraints⟩ :=
    Model.exists_foldlM_addConstraint (queenConstraints n) hbuilt₀ fun c hc => by
      obtain ⟨a, b, hab, hb, rfl⟩ := mem_queenConstraints_iff.1 hc
      rw [hsize]
      exact ⟨hab.trans hb, hb, hab.ne⟩
  refine ⟨m, ?_, hbuilt, by rw [hvars, hvars₀],
    by rw [hconstraints, hconstraints₀, List.nil_append]⟩
  rw [queensModel, hcolumns]
  exact (addPeace_eq n m₀).trans hpeace

theorem peaceful_eq (gap row other : Nat) : peaceful gap row other = !attacks gap row other := by
  simp [peaceful, attacks, bne]

namespace QueensModel

variable {n : Nat} {m : Model Nat} (h : QueensModel n m)
include h

theorem size_eq : m.size = n := by
  rw [Model.size, ← Array.length_toList, h.vars, List.length_map, List.length_range]

theorem getElem?_vars {v : Nat} (hv : v < n) : m.vars[v]? = some (queenVariable n v) := by
  rw [← Array.getElem?_toList, h.vars, List.getElem?_map, List.getElem?_range hv, Option.map_some]

theorem name?_eq {v : Nat} (hv : v < n) : m.name? v = some ("Q" ++ toString v) := by
  rw [Model.name?, h.getElem?_vars hv]
  rfl

theorem domain_eq {v : Nat} (hv : v < n) : m.domain v = Array.range n := by
  rw [Model.domain, Model.domain?, h.getElem?_vars hv]
  rfl

theorem total : m.Total := by
  intro c hc
  rw [h.constraints] at hc
  obtain ⟨a, b, -, -, rfl⟩ := mem_queenConstraints_iff.1 hc
  rfl

/-! ## Conflicts -/

theorem mem_relationsBetween_iff {v w : Nat} {r : Relation Nat} :
    r ∈ m.relationsBetween v w ↔ (v < w ∧ w < n ∧ r = { holds := peaceful (w - v) }) ∨
      (w < v ∧ v < n ∧ r = Relation.flip { holds := peaceful (v - w) }) := by
  rw [Model.mem_relationsBetween_iff, h.constraints]
  simp only [mem_queenConstraints_iff]
  constructor
  · rintro ⟨_, ⟨a, b, hab, hb, rfl⟩, hbetween⟩
    unfold Constraint.between? at hbetween
    split at hbetween
    · rename_i heq
      obtain ⟨rfl, rfl⟩ := heq
      exact .inl ⟨hab, hb, (Option.some.inj hbetween).symm⟩
    · split at hbetween
      · rename_i heq
        obtain ⟨rfl, rfl⟩ := heq
        exact .inr ⟨hab, hb, (Option.some.inj hbetween).symm⟩
      · cases hbetween
  · rintro (⟨hvw, hw, rfl⟩ | ⟨hwv, hv, rfl⟩)
    · exact ⟨_, ⟨v, w, hvw, hw, rfl⟩, if_pos ⟨rfl, rfl⟩⟩
    · refine ⟨_, ⟨w, v, hwv, hv, rfl⟩, ?_⟩
      unfold Constraint.between?
      rw [if_neg fun heq => hwv.ne heq.1, if_pos ⟨rfl, rfl⟩]

/-- Two values are consistent unless the queens attack each other. -/
theorem consistent_eq {v w : Nat} (hv : v < n) (hw : w < n) (x y : Nat) :
    m.consistent v x w y = !clash (x, v) (y, w) := by
  rw [h.built.linked.consistent_eq, Bool.eq_iff_iff, List.all_eq_true]
  simp only [h.mem_relationsBetween_iff]
  rcases Nat.lt_trichotomy v w with hvw | rfl | hwv
  · have hclash : clash (x, v) (y, w) = attacks (w - v) x y := by
      simp [clash, hvw.ne, Nat.sub_eq_zero_of_le hvw.le]
    rw [hclash, ← peaceful_eq]
    exact ⟨fun hall => hall _ (.inl ⟨hvw, hw, rfl⟩), by
      rintro hpeaceful _ (⟨-, -, rfl⟩ | ⟨hwv, -, -⟩)
      · exact hpeaceful
      · exact absurd hwv hvw.not_gt⟩
  · rw [clash_same_column]
    exact ⟨fun _ => rfl, by rintro - _ (⟨hlt, -⟩ | ⟨hlt, -⟩) <;> exact absurd hlt (Nat.lt_irrefl _)⟩
  · have hclash : clash (x, v) (y, w) = attacks (v - w) y x := by
      simp [clash, hwv.ne', Nat.sub_eq_zero_of_le hwv.le, attacks_comm _ x]
    rw [hclash, ← peaceful_eq]
    exact ⟨fun hall => hall _ (.inr ⟨hwv, hv, rfl⟩), by
      rintro hpeaceful _ (⟨hvw, -, -⟩ | ⟨-, -, rfl⟩)
      · exact absurd hvw hwv.not_gt
      · exact hpeaceful⟩

section Board
variable {rows : List Nat} {a : Assignment Nat} (hlength : rows.length = n)
  (ha : ∀ v < n, a.get? v = rows[v]?)
include hlength ha

/-- The values in conflict with a value are the queens that attack its queen. -/
theorem conflicts_eq {v : Nat} (hv : v < n) (x : Nat) :
    m.conflicts a v x = rows.zipIdx.countP (clash (x, v)) := by
  rw [h.built.linked.conflicts_eq, h.size_eq, ← countP_range_getElem? (clash (x, v)) rows, hlength]
  refine List.countP_congr fun w hw => ?_
  rw [ha w (List.mem_range.1 hw)]
  cases rows[w]? with
  | none => rfl
  | some y => rw [Option.any_some, Option.any_some, h.consistent_eq hv (List.mem_range.1 hw),
      Bool.not_not]

/-- Over all variables every attack is counted twice. -/
theorem sum_conflicts :
    (rows.zipIdx.map fun p => m.conflicts a p.2 p.1).sum = 2 * Queens.conflicts rows := by
  rw [← sum_countP_clash]
  refine congrArg List.sum (List.map_congr_left fun p hp => ?_)
  have hv := (List.getElem?_eq_some_iff.1 (List.mk_mem_zipIdx_iff_getElem?.1 hp)).1
  exact h.conflicts_eq hlength ha (hlength ▸ hv) p.1

/-- A solution of the model is a peaceful board. -/
theorem isSolution_eq : m.isSolution a = (Queens.ofSize n).isSolution rows := by
  have hmodel : m.isSolution a = true ↔ ∀ p ∈ rows.zipIdx, m.conflicts a p.2 p.1 = 0 := by
    rw [Model.isSolution, List.all_eq_true, h.size_eq]
    constructor
    · rintro hall ⟨x, v⟩ hp
      have hv := List.mk_mem_zipIdx_iff_getElem?.1 hp
      have hlt : v < n := hlength ▸ (List.getElem?_eq_some_iff.1 hv).1
      have hasked := hall v (List.mem_range.2 hlt)
      rw [ha v hlt, hv] at hasked
      exact beq_iff_eq.1 hasked
    · intro hall v hv
      have hv := List.mem_range.1 hv
      rw [ha v hv, List.getElem?_eq_getElem (hlength.symm ▸ hv)]
      exact beq_iff_eq.2 (hall (_, v) (List.mk_mem_zipIdx_iff_getElem?.2
        (List.getElem?_eq_getElem (hlength.symm ▸ hv))))
  have hboard : (Queens.ofSize n).isSolution rows = true ↔ Queens.conflicts rows = 0 := by
    simp [Queens.isSolution, Queens.ofSize, hlength]
  have hsum := h.sum_conflicts hlength ha
  rw [Bool.eq_iff_iff, hmodel, hboard]
  calc (∀ p ∈ rows.zipIdx, m.conflicts a p.2 p.1 = 0)
    _ ↔ (rows.zipIdx.map fun p => m.conflicts a p.2 p.1).sum = 0 := by
      rw [List.sum_eq_zero_iff, List.forall_mem_map]
    _ ↔ Queens.conflicts rows = 0 := by
      rw [hsum]
      omega

end Board

/-- What satisfies the model is a peaceful board. -/
theorem exists_board {a : Assignment Nat} (ha : a.Satisfies m) :
    ∃ rows, boardRows? m a = some rows ∧ (∀ row ∈ rows, row < n) ∧
      (Queens.ofSize n).isSolution rows = true := by
  have hvalue : ∀ v < n, a.get? v = some ((a.get? v).getD 0) ∧ (a.get? v).getD 0 < n := by
    intro v hv
    obtain ⟨x, hx, hget⟩ := ha.value v (h.size_eq.symm ▸ hv)
    rw [h.domain_eq hv, Array.mem_range] at hx
    rw [hget]
    exact ⟨rfl, hx⟩
  have hrows : ∀ v < n, a.get? v = ((List.range n).map fun v => (a.get? v).getD 0)[v]? := by
    intro v hv
    rw [List.getElem?_map, List.getElem?_range hv, (hvalue v hv).1]
    rfl
  refine ⟨(List.range n).map fun v => (a.get? v).getD 0, ?_, ?_, ?_⟩
  · rw [boardRows?, h.size_eq]
    exact mapM_eq_some_map fun v hv => (hvalue v (List.mem_range.1 hv)).1
  · simp only [List.forall_mem_map, List.mem_range]
    exact fun v hv => (hvalue v hv).2
  · rw [← h.isSolution_eq (by simp) hrows]
    have hsolution : m.isSolution? a = some true :=
      h.built.linked.isSolution?_eq_some_true_iff.2
        ⟨fun v hv => (ha.value v hv).imp fun x hx => hx.2, ha.holds⟩
    rw [h.built.linked.isSolution?_eq h.total] at hsolution
    exact Option.some.inj hsolution

end QueensModel

/-- **The two forms of the puzzle agree.** Building the model of `n` columns succeeds. An assignment
of a row to every column has, over all variables, twice as many conflicts as the board has attacks;
these are at most the pairs of queens, so the peaceful ones have a number; and it is a solution just
when the board is. So what backtracking or repair finds, however it is set up and whatever is drawn,
is a board where no queen attacks another. -/
theorem queensModel_agrees (n : Nat) : ∃ m, queensModel n = .ok m ∧ m.size = n ∧
    (∀ v < n, m.name? v = some ("Q" ++ toString v) ∧ m.domain v = Array.range n) ∧
    (∀ (rows : List Nat) (a : Assignment Nat), rows.length = n → (∀ v < n, a.get? v = rows[v]?) →
      (∀ v < n, ∀ x, m.conflicts? a v x = some (m.conflicts a v x)) ∧
      (rows.zipIdx.map fun p => m.conflicts a p.2 p.1).sum = 2 * Queens.conflicts rows ∧
      Queens.conflicts rows ≤ (Queens.ofSize n).pairs ∧
      (Queens.ofSize n).pairs = n * (n - 1) / 2 ∧
      (Queens.ofSize n).peacefulPairs? rows =
        some ((Queens.ofSize n).pairs - Queens.conflicts rows) ∧
      m.isSolution? a = some ((Queens.ofSize n).isSolution rows) ∧
      m.isSolution a = (Queens.ofSize n).isSolution rows) ∧
    (∀ config a, (backtrackingSearch m config).solution = .solved a →
      ∃ rows, boardRows? m a = some rows ∧ (∀ row ∈ rows, row < n) ∧
        (Queens.ofSize n).isSolution rows = true) ∧
    ∀ (ρ : Type) [RandomSource ρ] (source : ρ) config a,
      (minConflicts m config source).1.solution = .solved a →
      ∃ rows, boardRows? m a = some rows ∧ (∀ row ∈ rows, row < n) ∧
        (Queens.ofSize n).isSolution rows = true := by
  obtain ⟨m, hbuild, h⟩ := exists_queensModel n
  have hlinked := h.built.linked
  refine ⟨m, hbuild, h.size_eq, fun v hv => ⟨h.name?_eq hv, h.domain_eq hv⟩, ?_, ?_, ?_⟩
  · intro rows a hlength ha
    have hle : Queens.conflicts rows ≤ (Queens.ofSize n).pairs := by
      have hpairs := conflicts_le rows
      rwa [hlength] at hpairs
    refine ⟨fun v hv x => hlinked.conflicts?_eq h.total a (h.size_eq.symm ▸ hv) x,
      h.sum_conflicts hlength ha, hle, rfl, if_pos hle, ?_, h.isSolution_eq hlength ha⟩
    rw [hlinked.isSolution?_eq h.total, h.isSolution_eq hlength ha]
  · exact fun config a ha => h.exists_board (backtrackingSearch_sound hlinked config a ha)
  · exact fun ρ _ source config a ha =>
      h.exists_board (minConflicts_always hlinked config source a ha)

/-- A queen outside the board attacks like any other. -/
example : ((queensModel 3).toOption.map fun m =>
    ([0, 1, 5].zipIdx.map fun p => m.conflicts ⟨#[some 0, some 1, some 5]⟩ p.2 p.1).sum) = some 2 ∧
    Queens.conflicts [0, 1, 5] = 1 := by cbv

end ProblemSolving
