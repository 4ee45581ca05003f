import Mathlib
import ProblemSolving.Proofs.World.SlidingBoard

/-!
# Estimates of the sliding puzzle

Both estimates add up a weight for every tile on its square, and a move takes one tile from one
square to another, so it changes an estimate by the change of one weight.

* `Board.tally`, `Board.Proper.tally_slide` : such a sum, and what a move changes in it.
* `SlidingPuzzle.misplacedTiles_eq_tally`, `SlidingPuzzle.manhattan_eq_tally` : the two estimates.
-/

namespace ProblemSolving

open Finset (univ mem_univ)

namespace Board

variable {b goal : Board} {m : Move} {i j : Fin 9}

/-! ## Tiles and squares -/

theorem toList_squares (b : Board) :
    b.squares.toList = (List.finRange 9).map fun i => b.squares.get i := by
  refine List.ext_getElem (by simp) fun i hi _ => ?_
  rw [List.getElem_map, List.getElem_finRange, Vector.getElem_toList]
  rfl

theorem zipIdx_squares (b : Board) :
    b.squares.toList.zipIdx = (List.finRange 9).map fun i => (b.squares.get i, i.val) := by
  refine List.ext_getElem (by simp) fun i hi _ => ?_
  rw [List.getElem_map, List.getElem_finRange, List.getElem_zipIdx, Vector.getElem_toList]
  simp
  rfl

theorem Proper.get_lt (h : b.Proper) (i : Fin 9) : b.squares.get i < 9 := by
  refine List.mem_range.1 (h.mem_iff.1 ?_)
  rw [toList_squares]
  exact List.mem_map_of_mem (List.mem_finRange i)

theorem Proper.exists_get (h : b.Proper) {tile : Nat} (htile : tile < 9) :
    ∃ i, b.squares.get i = tile := by
  have hmem : tile ∈ b.squares.toList := h.mem_iff.2 (List.mem_range.2 htile)
  rw [toList_squares] at hmem
  obtain ⟨i, -, hi⟩ := List.mem_map.1 hmem
  exact ⟨i, hi⟩

theorem Proper.find?_eq_some_iff (h : b.Proper) {tile : Nat} :
    b.find? tile = some i ↔ b.squares.get i = tile := by
  unfold find?
  rw [Vector.finIdxOf?_eq_some_iff]
  refine and_iff_left_of_imp ?_
  rintro rfl j hj
  exact fun heq => absurd (h.get_inj.1 heq) (Fin.ne_of_lt hj)

theorem Proper.eq_goal (h : b.Proper) (hgoal : goal.Proper)
    (same : ∀ i, b.squares.get i ≠ 0 → goal.squares.get i = b.squares.get i) : b = goal := by
  refine ext_squares ?_
  rw [toList_squares, toList_squares]
  refine List.map_congr_left fun i _ => ?_
  by_cases hblank : b.squares.get i = 0
  · -- a tile of the goal on the square of the blank would be on another square of the board
    by_contra hne
    obtain ⟨j, hj⟩ := h.exists_get (hgoal.get_lt i)
    have hother : goal.squares.get j = b.squares.get j := same j (by rw [hj, ← hblank]; exact Ne.symm hne)
    obtain rfl : j = i := hgoal.get_inj.1 (hother.trans hj)
    exact hne hj
  · exact (same i hblank).symm

/-! ## Sums over the squares -/

/-- What the tiles add up to, each one weighed by the square on which it is. -/
def tally (weight : Nat → Fin 9 → Nat) (b : Board) : Nat := ∑ i, weight (b.squares.get i) i

variable {weight weight' : Nat → Fin 9 → Nat}

theorem tally_mono (h : ∀ i, weight (b.squares.get i) i ≤ weight' (b.squares.get i) i) :
    b.tally weight ≤ b.tally weight' :=
  Finset.sum_le_sum fun i _ => h i

theorem tally_eq_zero_iff : b.tally weight = 0 ↔ ∀ i, weight (b.squares.get i) i = 0 := by
  unfold tally
  rw [Finset.sum_eq_zero_iff]
  simp

theorem tally_le {most : Nat} (h : ∀ i, weight (b.squares.get i) i ≤ most) :
    b.tally weight ≤ 9 * most :=
  Finset.sum_le_card_nsmul univ _ most fun i _ => h i

theorem sum_of_two_places {f f' : Fin 9 → Nat} (hne : j ≠ i)
    (same : ∀ k, k ≠ i → k ≠ j → f' k = f k) :
    (∑ k, f' k) + (f i + f j) = (∑ k, f k) + (f' i + f' j) := by
  have hsplit : ∀ g : Fin 9 → Nat, ∑ k, g k = g i + (g j + ∑ k ∈ (univ.erase i).erase j, g k) := by
    intro g
    rw [Finset.add_sum_erase _ _ (Finset.mem_erase.2 ⟨hne, mem_univ j⟩),
      Finset.add_sum_erase _ _ (mem_univ i)]
  have hrest : ∑ k ∈ (univ.erase i).erase j, f' k = ∑ k ∈ (univ.erase i).erase j, f k := by
    refine Finset.sum_congr rfl fun k hk => ?_
    rw [Finset.mem_erase, Finset.mem_erase] at hk
    exact same k hk.2.1 hk.1
  rw [hsplit f', hsplit f, hrest]
  omega

/-- A move takes the tile on the target to the square of the blank, and leaves all others. -/
theorem Proper.tally_slide (h : b.Proper) (hm : m ∈ b.moves) (blank : ∀ i, weight 0 i = 0) :
    ∃ j, b.squares.get j ≠ 0 ∧ (Beside b.blank j ∨ Beside j b.blank) ∧
      (b.slide m).tally weight + weight (b.squares.get j) j =
        b.tally weight + weight (b.squares.get j) b.blank := by
  obtain ⟨j, hj, hbeside, -, -⟩ := exists_target b.blank m hm
  have hne : j ≠ b.blank := by
    rintro rfl
    unfold Beside at hbeside
    omega
  refine ⟨j, fun hzero => hne (h.blank_eq_iff.2 hzero).symm, hbeside, ?_⟩
  have hslide : (b.slide m).squares = b.squares.swap b.blank.val j.val := by
    rw [slide_eq rfl hj]
  have hblank : (b.slide m).squares.get b.blank = b.squares.get j := by
    rw [hslide]
    exact Vector.getElem_swap_left ..
  have htarget : (b.slide m).squares.get j = 0 := by
    rw [hslide, ← h.get_blank]
    exact Vector.getElem_swap_right ..
  have hothers : ∀ k, k ≠ b.blank → k ≠ j →
      weight ((b.slide m).squares.get k) k = weight (b.squares.get k) k := by
    intro k hki hkj
    have hsame : (b.slide m).squares.get k = b.squares.get k := by
      rw [hslide]
      exact Vector.getElem_swap_of_ne (Fin.val_ne_of_ne hki) (Fin.val_ne_of_ne hkj)
    rw [hsame]
  have hsum := sum_of_two_places hne hothers
  rw [hblank, htarget, h.get_blank, blank, blank, Nat.zero_add, Nat.add_zero] at hsum
  exact hsum

end Board

namespace SlidingPuzzle

variable {p : SlidingPuzzle} {b : Board} {m : Move} {i j : Fin 9} {tile : Nat}

/-! ## The estimates as sums -/

/-- One for a tile that the goal has elsewhere. -/
def stray (goal : Board) (tile : Nat) (square : Fin 9) : Nat :=
  if tile != 0 && tile != goal.squares.get square then 1 else 0

/-- The way of a tile to its square. -/
def walk (goal : Board) (tile : Nat) (square : Fin 9) : Nat :=
  if tile = 0 then 0 else (goal.find? tile).elim 0 fun target => squareDistance square target

theorem misplacedTiles_eq_tally (p : SlidingPuzzle) (b : Board) :
    p.misplacedTiles b = b.tally (stray p.goal) := by
  have hcount : ∀ (stands : Fin 9 → Bool) (squares : List (Fin 9)),
      squares.countP stands = (squares.map fun i => if stands i then 1 else 0).sum := by
    simp [List.sum_map_ite, List.countP_eq_length_filter]
  unfold misplacedTiles Board.tally
  rw [Board.toList_squares, Board.toList_squares, List.zip_map', List.countP_map, hcount,
    Fin.sum_univ_def]
  rfl

theorem manhattan_eq_tally (p : SlidingPuzzle) (b : Board) :
    p.manhattan b = b.tally (walk p.goal) := by
  unfold manhattan Board.tally
  rw [Board.zipIdx_squares, List.foldl_map, Fin.sum_univ_def, List.sum_eq_foldl, List.foldl_map]
  refine List.foldl_ext _ _ _ fun total i _ => ?_
  unfold walk
  dsimp only
  split
  · rfl
  · cases p.goal.find? (b.squares.get i) <;> rfl

/-! ## One tile -/

theorem gap_succ (a c : Nat) : gap a c = gap (a + 1) c + 1 ∨ gap (a + 1) c = gap a c + 1 := by
  unfold gap
  omega

theorem squareDistance_beside (h : Board.Beside i j) (target : Nat) :
    squareDistance i target = squareDistance j target + 1 ∨
      squareDistance j target = squareDistance i target + 1 := by
  unfold squareDistance
  rcases h with ⟨hright, hcolumn⟩ | hdown
  · obtain ⟨hcolumn, hrow⟩ : j.val % 3 = i.val % 3 + 1 ∧ j.val / 3 = i.val / 3 := by omega
    have hgap := gap_succ (i.val % 3) (target % 3)
    rw [hcolumn, hrow]
    omega
  · obtain ⟨hcolumn, hrow⟩ : j.val % 3 = i.val % 3 ∧ j.val / 3 = i.val / 3 + 1 := by omega
    have hgap := gap_succ (i.val / 3) (target / 3)
    rw [hcolumn, hrow]
    omega

theorem squareDistance_eq_zero_iff : squareDistance i j = 0 ↔ i = j := by
  unfold squareDistance gap
  omega

theorem squareDistance_le (i j : Fin 9) : squareDistance i j ≤ 4 := by
  unfold squareDistance gap
  omega

section
variable {goal : Board} {square : Fin 9}

theorem stray_zero (goal : Board) (square : Fin 9) : stray goal 0 square = 0 := rfl

theorem walk_zero (goal : Board) (square : Fin 9) : walk goal 0 square = 0 := rfl

theorem walk_get (hgoal : goal.Proper) (hne : goal.squares.get j ≠ 0) (square : Fin 9) :
    walk goal (goal.squares.get j) square = squareDistance square j := by
  have hfind : goal.find? (goal.squares.get j) = some j := hgoal.find?_eq_some_iff.2 rfl
  unfold walk
  rw [if_neg hne, hfind]
  rfl

theorem walk_le (goal : Board) (tile : Nat) (square : Fin 9) : walk goal tile square ≤ 4 := by
  unfold walk
  split
  · exact Nat.zero_le 4
  · cases goal.find? tile with
    | none => exact Nat.zero_le 4
    | some target => exact squareDistance_le square target

theorem stray_le_one (goal : Board) (tile : Nat) (square : Fin 9) : stray goal tile square ≤ 1 := by
  unfold stray
  split <;> omega

theorem stray_eq_zero_iff :
    stray goal tile square = 0 ↔ (tile ≠ 0 → goal.squares.get square = tile) := by
  unfold stray
  rw [ite_eq_right_iff]
  simp only [Bool.and_eq_true, bne_iff_ne, Nat.one_ne_zero, imp_false, not_and, not_not]
  exact imp_congr_right fun _ => eq_comm

theorem walk_eq_zero_iff (hgoal : goal.Proper) (htile : tile < 9) :
    walk goal tile square = 0 ↔ (tile ≠ 0 → goal.squares.get square = tile) := by
  obtain ⟨j, rfl⟩ := hgoal.exists_get htile
  by_cases hzero : goal.squares.get j = 0
  · simp [walk, hzero]
  · rw [walk_get hgoal hzero, squareDistance_eq_zero_iff, hgoal.get_inj]
    simp [hzero]

theorem stray_le_walk (hgoal : goal.Proper) (htile : tile < 9) :
    stray goal tile square ≤ walk goal tile square := by
  have hone := stray_le_one goal tile square
  have hiff : stray goal tile square = 0 ↔ walk goal tile square = 0 :=
    stray_eq_zero_iff.trans (walk_eq_zero_iff hgoal htile).symm
  omega

/-- A tile that goes to a square beside its own has one step more to go, or one less. -/
theorem walk_beside (hgoal : goal.Proper) (htile : tile < 9) (hne : tile ≠ 0)
    (h : Board.Beside i j) :
    walk goal tile i = walk goal tile j + 1 ∨ walk goal tile j = walk goal tile i + 1 := by
  obtain ⟨k, rfl⟩ := hgoal.exists_get htile
  rw [walk_get hgoal hne, walk_get hgoal hne]
  exact squareDistance_beside h k

end

/-! ## The estimates of a board -/

/-- Every move changes the sum of the ways by one and the tiles off their squares by at most one;
there are at most as many such tiles as steps to go, and none of either on the goal alone. -/
structure Guides (p : SlidingPuzzle) : Prop where
  manhattan_slide : ∀ b, b.Proper → ∀ m ∈ b.moves,
    p.manhattan (b.slide m) = p.manhattan b + 1 ∨ p.manhattan b = p.manhattan (b.slide m) + 1
  misplacedTiles_slide : ∀ b, b.Proper → ∀ m ∈ b.moves,
    p.misplacedTiles (b.slide m) ≤ p.misplacedTiles b + 1 ∧
      p.misplacedTiles b ≤ p.misplacedTiles (b.slide m) + 1
  misplacedTiles_le : ∀ b, b.Proper → p.misplacedTiles b ≤ p.manhattan b
  manhattan_eq_zero : ∀ b, b.Proper → (p.manhattan b = 0 ↔ b = p.goal)
  misplacedTiles_eq_zero : ∀ b, b.Proper → (p.misplacedTiles b = 0 ↔ b = p.goal)

theorem guides (hgoal : p.goal.Proper) : p.Guides where
  manhattan_slide b hb m hm := by
    obtain ⟨j, hne, hbeside, hsum⟩ := hb.tally_slide hm (walk_zero p.goal)
    have hwalk : ∀ {i j' : Fin 9}, Board.Beside i j' → _ :=
      walk_beside hgoal (hb.get_lt j) hne
    rw [manhattan_eq_tally, manhattan_eq_tally]
    rcases hbeside with hbeside | hbeside
    · have := hwalk hbeside
      omega
    · have := hwalk hbeside
      omega
  misplacedTiles_slide b hb m hm := by
    obtain ⟨j, -, -, hsum⟩ := hb.tally_slide hm (stray_zero p.goal)
    have hfrom := stray_le_one p.goal (b.squares.get j) j
    have hto := stray_le_one p.goal (b.squares.get j) b.blank
    rw [misplacedTiles_eq_tally, misplacedTiles_eq_tally]
    omega
  misplacedTiles_le b hb := by
    rw [misplacedTiles_eq_tally, manhattan_eq_tally]
    exact Board.tally_mono fun i => stray_le_walk hgoal (hb.get_lt i)
  manhattan_eq_zero b hb := by
    rw [manhattan_eq_tally, Board.tally_eq_zero_iff]
    simp only [walk_eq_zero_iff hgoal (hb.get_lt _)]
    refine ⟨hb.eq_goal hgoal, ?_⟩
    rintro rfl i -
    rfl
  misplacedTiles_eq_zero b hb := by
    rw [misplacedTiles_eq_tally, Board.tally_eq_zero_iff]
    simp only [stray_eq_zero_iff]
    refine ⟨hb.eq_goal hgoal, ?_⟩
    rintro rfl i -
    rfl

end SlidingPuzzle

end ProblemSolving
