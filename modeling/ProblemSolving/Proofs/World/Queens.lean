import Mathlib
import ProblemSolving.World.Queens

/-!
# Counting attacks

* `Queens.clash` : whether queens at two places attack each other, whichever comes first.
* `Queens.attackers_eq` : attackers are counted by their columns.
* `Queens.sum_countP_clash` : counted from both of its queens, every attack counts twice.
* `Queens.conflicts_le` : there are no more attacks than pairs of queens.
-/

namespace ProblemSolving
namespace Queens

theorem attacks_comm (gap row other : Nat) : attacks gap row other = attacks gap other row := by
  unfold attacks
  rw [Nat.add_comm (row - other), Bool.beq_comm]

/-- Attackers are counted by their columns. -/
theorem attackers_eq (row : Nat) : ∀ (gap : Nat) (rows : List Nat),
    attackers row gap rows = rows.zipIdx.countP fun q => attacks (gap + q.2) row q.1
  | _, [] => rfl
  | gap, other :: rest => by
    rw [attackers, attackers_eq row (gap + 1) rest, List.zipIdx_cons, List.zipIdx_succ,
      List.countP_cons, List.countP_map, Nat.add_comm]
    congr 1
    refine List.countP_congr fun q _ => ?_
    rw [Function.comp_apply, Nat.add_assoc, Nat.add_comm 1]

theorem attackers_le_length (row gap : Nat) (rows : List Nat) :
    attackers row gap rows ≤ rows.length := by
  rw [attackers_eq, ← List.length_zipIdx (l := rows)]
  exact List.countP_le_length

/-- Whether queens at two places, each a row and a column, attack each other. Of one column there is
only one queen. -/
def clash (p q : Nat × Nat) : Bool :=
  p.2 != q.2 && attacks ((p.2 - q.2) + (q.2 - p.2)) p.1 q.1

theorem clash_comm (p q : Nat × Nat) : clash p q = clash q p := by
  unfold clash
  rw [attacks_comm, Nat.add_comm (p.2 - q.2), bne_comm]

theorem clash_same_column (x y column : Nat) : clash (x, column) (y, column) = false := by
  simp [clash]

/-- The place one column further. -/
def nextColumn (p : Nat × Nat) : Nat × Nat := (p.1, p.2 + 1)

theorem clash_nextColumn (p q : Nat × Nat) : clash (nextColumn p) (nextColumn q) = clash p q := by
  simp [clash, nextColumn]

theorem zipIdx_cons_nextColumn (row : Nat) (rest : List Nat) :
    (row :: rest).zipIdx = (row, 0) :: rest.zipIdx.map nextColumn := by
  rw [List.zipIdx_cons, List.zipIdx_succ]
  rfl

theorem countP_range_getElem? {α : Type} (p : α × Nat → Bool) (items : List α) :
    (List.range items.length).countP (fun i => items[i]?.any fun x => p (x, i)) =
      items.zipIdx.countP p := by
  induction items generalizing p with
  | nil => rfl
  | cons x rest ih =>
    rw [List.length_cons, List.range_succ_eq_map, List.countP_cons, List.countP_map,
      List.zipIdx_cons, List.zipIdx_succ, List.countP_cons, List.countP_map, ← ih]
    rfl

theorem sum_map_ite_eq_countP {α : Type} (p : α → Bool) (l : List α) :
    (l.map fun x => if p x then 1 else 0).sum = l.countP p := by
  induction l with
  | nil => rfl
  | cons x rest ih => rw [List.map_cons, List.sum_cons, ih, List.countP_cons, Nat.add_comm]

theorem countP_clash_first (row : Nat) (rest : List Nat) :
    rest.zipIdx.countP (fun q => clash (row, 0) (nextColumn q)) = attackers row 1 rest := by
  rw [attackers_eq]
  refine List.countP_congr fun q _ => ?_
  simp [clash, nextColumn, Nat.add_comm]

/-- Counted from both of its queens, every attack counts twice. -/
theorem sum_countP_clash : ∀ rows : List Nat,
    (rows.zipIdx.map fun p => rows.zipIdx.countP (clash p)).sum = 2 * conflicts rows
  | [] => rfl
  | row :: rest => by
    have hfirst : (row :: rest).zipIdx.countP (clash (row, 0)) = attackers row 1 rest := by
      rw [zipIdx_cons_nextColumn, List.countP_cons, clash_same_column, List.countP_map]
      exact countP_clash_first row rest
    have hlater : ∀ p, (row :: rest).zipIdx.countP (clash (nextColumn p)) =
        (if clash (row, 0) (nextColumn p) then 1 else 0) + rest.zipIdx.countP (clash p) := by
      intro p
      rw [zipIdx_cons_nextColumn, List.countP_cons, List.countP_map, Nat.add_comm,
        clash_comm (nextColumn p)]
      congr 1
      refine List.countP_congr fun q _ => ?_
      rw [Function.comp_apply, clash_nextColumn]
    calc ((row :: rest).zipIdx.map fun p => (row :: rest).zipIdx.countP (clash p)).sum
      _ = attackers row 1 rest + (rest.zipIdx.map fun p =>
            (if clash (row, 0) (nextColumn p) then 1 else 0) +
              rest.zipIdx.countP (clash p)).sum := by
          rw [← hfirst]
          conv_lhs => rw [zipIdx_cons_nextColumn, List.map_cons, List.sum_cons, List.map_map]
          simp only [Function.comp_def, ← zipIdx_cons_nextColumn, hlater]
      _ = attackers row 1 rest + (attackers row 1 rest + 2 * conflicts rest) := by
          rw [List.sum_map_add, sum_countP_clash rest, sum_map_ite_eq_countP,
            countP_clash_first row rest]
      _ = 2 * conflicts (row :: rest) := by
          rw [conflicts]
          omega

/-- There are no more attacks than pairs of queens. -/
theorem conflicts_le : ∀ rows : List Nat, conflicts rows ≤ rows.length * (rows.length - 1) / 2
  | [] => Nat.le_refl _
  | row :: rest => by
    have hrest := conflicts_le rest
    have hrow := attackers_le_length row 1 rest
    rw [conflicts, List.length_cons, Nat.triangle_succ]
    omega

end Queens
end ProblemSolving
