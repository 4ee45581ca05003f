import Mathlib
import ProblemSolving.Proofs.StateSpace.Paths
import ProblemSolving.World.SlidingPuzzle

/-!
# Moves on the board of the sliding puzzle

* `Board.Proper` : a board with the blank and the eight tiles, each once.
* `Proper.blank_eq_iff`, `Proper.blank_slide` : where the blank is, and where a move takes it.
* `Proper.slide`, `Proper.slide_back` : a move keeps a board proper, and another one takes it back.
* `Board.Onward`, `Proper.onward` : a move and the one back, as a change to the list of squares.
* `Board.run?` : the board after some moves, if each of them is legal.
* `Proper.run_induction` : induction along such moves.
* `Board.Reaches` : some legal moves lead from one board to another.
-/

namespace ProblemSolving

open scoped List

/-- The move that takes the blank back. -/
def Move.back : Move → Move
  | .up => .down
  | .down => .up
  | .left => .right
  | .right => .left

namespace Board

/-- The squares hold the blank and the eight tiles, each once. -/
def Proper (b : Board) : Prop := b.squares.toList ~ List.range 9

variable {b b' : Board} {m : Move} {i j : Fin 9}

theorem ext_squares (h : b.squares.toList = b'.squares.toList) : b = b' := by
  cases b
  cases b'
  exact congrArg Board.mk (Vector.toList_inj.1 h)

/-! ## The blank -/

theorem Proper.nodup (h : b.Proper) : b.squares.toList.Nodup :=
  h.nodup_iff.2 List.nodup_range

theorem Proper.get_blank (h : b.Proper) : b.squares.get b.blank = 0 := by
  have hmem : 0 ∈ b.squares := Vector.mem_toList_iff.1 (h.mem_iff.2 (by decide))
  unfold blank find?
  cases hfind : b.squares.finIdxOf? 0 with
  | none => exact absurd hmem (Vector.finIdxOf?_eq_none_iff.1 hfind)
  | some i => exact (Vector.finIdxOf?_eq_some_iff.1 hfind).1

theorem Proper.get_inj (h : b.Proper) : b.squares.get i = b.squares.get j ↔ i = j := by
  refine ⟨fun heq => ?_, fun heq => heq ▸ rfl⟩
  have hlist : b.squares.toList[i.val] = b.squares.toList[j.val] := by
    rw [Vector.getElem_toList, Vector.getElem_toList]
    exact heq
  exact Fin.ext ((List.Nodup.getElem_inj_iff h.nodup).1 hlist)

theorem Proper.blank_eq_iff (h : b.Proper) : b.blank = i ↔ b.squares.get i = 0 := by
  constructor
  · rintro rfl
    exact h.get_blank
  · exact fun hzero => h.get_inj.1 (h.get_blank.trans hzero.symm)

/-! ## Moves of the blank -/

/-- The moves of a blank on this square. -/
def movesAt (square : Fin 9) : List Move :=
  (if square.val > 2 then [Move.up] else []) ++ (if square.val < 6 then [Move.down] else [])
    ++ (if square.val % 3 > 0 then [Move.left] else []) ++ (if square.val % 3 < 2 then [Move.right] else [])

theorem moves_eq (b : Board) : b.moves = movesAt b.blank := rfl

/-- The second square is right of the first one, or below it. -/
def Beside (i j : Fin 9) : Prop := j.val = i.val + 1 ∧ i.val % 3 < 2 ∨ j.val = i.val + 3

instance (i j : Fin 9) : Decidable (Beside i j) := inferInstanceAs (Decidable (_ ∨ _))

theorem exists_target : ∀ (i : Fin 9), ∀ m ∈ movesAt i, ∃ j, squareAt? i (offset m) = some j ∧
    (Beside i j ∨ Beside j i) ∧ m.back ∈ movesAt j ∧ squareAt? j (offset m.back) = some i := by
  decide

theorem slide_eq (hi : b.blank = i) (hj : squareAt? i (offset m) = some j) :
    b.slide m = ⟨b.squares.swap i.val j.val i.isLt j.isLt⟩ := by
  subst hi
  unfold slide slide?
  rw [hj]
  rfl

theorem slide_eq_self (hi : b.blank = i) (hj : squareAt? i (offset m) = none) : b.slide m = b := by
  subst hi
  unfold slide slide?
  rw [hj]
  rfl

theorem Proper.slide (h : b.Proper) (m : Move) : (b.slide m).Proper := by
  cases hj : squareAt? b.blank (offset m) with
  | none => rwa [slide_eq_self rfl hj]
  | some j =>
    rw [slide_eq rfl hj]
    have hperm : (b.squares.swap b.blank.val j.val).Perm b.squares :=
      Vector.swap_perm b.blank.isLt j.isLt
    exact (Vector.perm_iff_toList_perm.1 hperm).trans h

/-- A move takes the blank to its target. -/
theorem Proper.blank_slide (h : b.Proper) (hj : squareAt? b.blank (offset m) = some j) :
    (b.slide m).blank = j := by
  rw [(h.slide m).blank_eq_iff, slide_eq rfl hj]
  show (b.squares.swap b.blank.val j.val)[j.val] = 0
  rw [Vector.getElem_swap_right]
  exact h.get_blank

/-- A legal move can be taken back. -/
theorem Proper.slide_back (h : b.Proper) (hm : m ∈ b.moves) :
    m.back ∈ (b.slide m).moves ∧ (b.slide m).slide m.back = b := by
  obtain ⟨j, hj, -, hback, hj'⟩ := exists_target b.blank m hm
  have hblank := h.blank_slide hj
  refine ⟨by rw [moves_eq, hblank]; exact hback, ?_⟩
  rw [slide_eq hblank hj', slide_eq rfl hj, Vector.swap_comm, Vector.swap_swap]

/-! ## What a move does to the list of squares -/

/-- The two items of a swap and what stands before, between and after them. -/
theorem exists_swap {n : Nat} (v : Vector Nat n) {i j : Nat} (hij : i < j) (hj : j < n) :
    ∃ pre mid post, v.toList = pre ++ v[i] :: (mid ++ v[j] :: post) ∧
      (v.swap i j).toList = pre ++ v[j] :: (mid ++ v[i] :: post) ∧
      pre.length = i ∧ mid.length = j - i - 1 := by
  have hlen : v.toList.length = n := Vector.length_toList
  have hsplit : v.toList = v.toList.take i ++ v[i] ::
      ((v.toList.drop (i + 1)).take (j - i - 1) ++ v[j] :: v.toList.drop (j + 1)) := by
    have hi : i < v.toList.length := by omega
    have hj : j - i - 1 < (v.toList.drop (i + 1)).length := by
      rw [List.length_drop]
      omega
    have hget : (v.toList.drop (i + 1))[j - i - 1] = v[j] := by
      rw [List.getElem_drop, Vector.getElem_toList]
      congr 1
      omega
    have hdrop : (v.toList.drop (i + 1)).drop (j - i - 1 + 1) = v.toList.drop (j + 1) := by
      rw [List.drop_drop]
      congr 1
      omega
    have hlater := List.take_append_drop (j - i - 1) (v.toList.drop (i + 1))
    rw [List.drop_eq_getElem_cons hj, hget, hdrop] at hlater
    rw [hlater, ← Vector.getElem_toList hi, ← List.drop_eq_getElem_cons hi, List.take_append_drop]
  have hpre : (v.toList.take i).length = i := by
    rw [List.length_take]
    omega
  have hmid : ((v.toList.drop (i + 1)).take (j - i - 1)).length = j - i - 1 := by
    rw [List.length_take, List.length_drop]
    omega
  refine ⟨_, _, _, hsplit, ?_, hpre, hmid⟩
  rw [Vector.toList_swap]
  generalize v.toList.take i = pre at hsplit hpre
  generalize (v.toList.drop (i + 1)).take (j - i - 1) = mid at hsplit hmid
  generalize v.toList.drop (j + 1) = post at hsplit
  have hgap : j - pre.length = mid.length + 1 := by omega
  rw [hsplit, List.set_append, if_neg (by omega), hpre, Nat.sub_self, List.set_cons_zero,
    List.set_append, if_neg (by omega), hgap, List.set_cons_succ, List.set_append,
    if_neg (by omega), Nat.sub_self, List.set_cons_zero]

/-- The second board is the first one with the blank moved on, past no tile to the right or past two
tiles down. -/
def Onward (b b' : Board) : Prop :=
  ∃ pre mid z post, b.squares.toList = pre ++ 0 :: (mid ++ z :: post) ∧
    b'.squares.toList = pre ++ z :: (mid ++ 0 :: post) ∧
    (mid.length = 0 ∧ pre.length % 3 < 2 ∨ mid.length = 2)

/-- A legal move takes the blank on, or the move back does. -/
theorem Proper.onward (h : b.Proper) (hm : m ∈ b.moves) :
    Onward b (b.slide m) ∨ Onward (b.slide m) b := by
  obtain ⟨j, hj, hbeside, -, -⟩ := exists_target b.blank m hm
  have hzero : b.squares[b.blank.val] = 0 := h.get_blank
  rw [slide_eq rfl hj]
  rcases hbeside with hbeside | hbeside
  · have hlt : b.blank.val < j.val := by unfold Beside at hbeside; omega
    obtain ⟨pre, mid, post, hbefore, hafter, hpre, hmid⟩ := exists_swap b.squares hlt j.isLt
    rw [hzero] at hbefore hafter
    refine .inl ⟨pre, mid, _, post, hbefore, hafter, ?_⟩
    unfold Beside at hbeside
    omega
  · have hlt : j.val < b.blank.val := by unfold Beside at hbeside; omega
    obtain ⟨pre, mid, post, hbefore, hafter, hpre, hmid⟩ :=
      exists_swap b.squares hlt b.blank.isLt
    rw [hzero] at hbefore hafter
    rw [Vector.swap_comm] at hafter
    refine .inr ⟨pre, mid, _, post, hafter, hbefore, ?_⟩
    unfold Beside at hbeside
    omega

/-- What two boards share that come from each other when the blank moves on is shared along every
legal move. -/
theorem Proper.moved {p : Board → Board → Prop} (symm : ∀ {b b'}, p b b' → p b' b)
    (onward : ∀ {b b'}, b.Proper → Onward b b' → p b b') (h : b.Proper) (hm : m ∈ b.moves) :
    p b (b.slide m) := by
  rcases h.onward hm with honward | honward
  · exact onward h honward
  · exact symm (onward (h.slide m) honward)

/-! ## Moves one after the other -/

/-- The board after some moves, if each of them is legal. -/
def run? : List Move → Board → Option Board
  | [], b => some b
  | m :: rest, b => if m ∈ b.moves then run? rest (b.slide m) else none

theorem run?_cons_of_mem (hm : m ∈ b.moves) (rest : List Move) :
    run? (m :: rest) b = run? rest (b.slide m) := if_pos hm

theorem run?_append (ms rest : List Move) (b : Board) :
    run? (ms ++ rest) b = (run? ms b).bind (run? rest) := by
  induction ms generalizing b with
  | nil => rfl
  | cons m ms ih =>
    rw [List.cons_append, run?, run?]
    split
    · exact ih _
    · rfl

theorem run?_eq_some_iff {κ : Type} [Scalar κ] {p : SlidingPuzzle} {ms : List Move} :
    run? ms b = some b' ↔ (p.problem : Problem Board Move κ).Path b ms b' := by
  constructor
  · intro h
    induction ms generalizing b with
    | nil =>
      cases h
      exact .nil _
    | cons m ms ih =>
      unfold run? at h
      split at h
      next hm => exact .cons hm (ih h)
      next => cases h
  · intro h
    induction h with
    | nil => rfl
    | cons legal _ ih => exact (run?_cons_of_mem legal _).trans ih

/-- What holds of the last board of a run, and of a board before a legal move if it holds after it,
holds of the first. -/
theorem Proper.run_induction {motive : Board → Prop} (h : b.Proper) {ms : List Move}
    (hrun : Board.run? ms b = some b') (last : b'.Proper → motive b')
    (step : ∀ {b m}, b.Proper → m ∈ b.moves → motive (b.slide m) → motive b) : motive b := by
  induction ms generalizing b with
  | nil =>
    cases hrun
    exact last h
  | cons m ms ih =>
    unfold Board.run? at hrun
    split at hrun
    next hm => exact step h hm (ih (h.slide m) hrun)
    next => cases hrun

theorem Proper.run? (h : b.Proper) {ms : List Move} (hrun : Board.run? ms b = some b') :
    b'.Proper :=
  h.run_induction (motive := fun _ => b'.Proper) hrun id fun _ _ hlater => hlater

/-- Some legal moves lead from the first board to the second. -/
def Reaches (b b' : Board) : Prop := ∃ ms, run? ms b = some b'

theorem Reaches.refl (b : Board) : Reaches b b := ⟨[], rfl⟩

theorem Reaches.trans {b'' : Board} (h : Reaches b b') (h' : Reaches b' b'') : Reaches b b'' := by
  obtain ⟨ms, hms⟩ := h
  obtain ⟨rest, hrest⟩ := h'
  exact ⟨ms ++ rest, by rw [run?_append, hms, Option.bind_some, hrest]⟩

theorem Reaches.symm (hb : b.Proper) (h : Reaches b b') : Reaches b' b := by
  obtain ⟨ms, hms⟩ := h
  refine hb.run_induction hms (fun _ => .refl _) fun {c m} hc hm hlater => ?_
  obtain ⟨hback, hslide⟩ := hc.slide_back hm
  refine hlater.trans ⟨[m.back], ?_⟩
  rw [run?_cons_of_mem hback, hslide]
  rfl

end Board

end ProblemSolving
