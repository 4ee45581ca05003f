import ProblemSolving.Number.Double
import ProblemSolving.Proofs.Constraint.Meaning
import ProblemSolving.Proofs.World.SlidingReach

/-!
# Sliding puzzles are accepted if they can be solved

* `Board.Shows` : a text gives the squares of a board, digit by digit.
* `Board.parse_eq_ok_iff` : the texts that give a board, and which one.
* `Shows.render?` : that board is rendered as the same text.
* `slidingPuzzle_accepted_iff` : two texts give a puzzle if and only if moves lead from the board of the
  first to that of the second.
-/

namespace ProblemSolving

open scoped List

namespace Board

/-- The text gives the squares of the board, digit by digit. -/
def Shows (b : Board) (text : String) : Prop :=
  text.toList = b.squares.toList.map Nat.digitChar

/-- The digits of the blank and of the tiles. -/
def digits : List Char := ['0', '1', '2', '3', '4', '5', '6', '7', '8']

variable {b : Board} {text : String}

/-! ## Digits -/

theorem map_digitChar_range : (List.range 9).map Nat.digitChar = digits := by decide

/-- The tile that a digit stands for. -/
def tileOf (c : Char) : Nat := c.toNat - '0'.toNat

theorem tileOf_digitChar : ∀ tile < 9, tileOf tile.digitChar = tile := by decide

theorem digitChar_tileOf {c : Char} (h : c.isDigit = true) : (tileOf c).digitChar = c := by
  have hcode : ∀ digit < 10, digit.digitChar.toNat = 48 + digit := by decide
  obtain ⟨hlow, hhigh⟩ : 48 ≤ c.toNat ∧ c.toNat ≤ 57 := by
    simp only [Char.isDigit, ge_iff_le, Bool.and_eq_true, decide_eq_true_eq,
      UInt32.le_iff_toNat_le] at h
    exact h
  have hzero : '0'.toNat = 48 := rfl
  apply Char.toNat_inj.1
  rw [tileOf, hcode _ (by omega)]
  omega

theorem lt_of_digitChar_mem {tile : Nat} (h : tile.digitChar ∈ digits) : tile < 9 := by
  by_contra hge
  have hsmall : ∀ tile < 16, ¬ tile < 9 → tile.digitChar ∉ digits := by decide
  by_cases hlt : tile < 16
  · exact hsmall tile hlt hge h
  · have hstar : tile.digitChar = '*' := by
      unfold Nat.digitChar
      repeat rw [if_neg (by omega)]
    rw [hstar] at h
    exact absurd h (by decide)

/-! ## Boards of texts -/

theorem tileFault?_eq_none_iff {tiles seen : List Nat} :
    tileFault? tiles seen = none ↔ (∀ tile ∈ tiles, tile ≤ 8 ∧ tile ∉ seen) ∧ tiles.Nodup := by
  induction tiles generalizing seen with
  | nil => simp [tileFault?]
  | cons tile rest ih =>
    unfold tileFault?
    rw [List.forall_mem_cons, List.nodup_cons]
    split
    next hrange =>
      refine iff_of_false nofun ?_
      rintro ⟨⟨⟨hle, -⟩, -⟩, -⟩
      omega
    next hrange =>
    split
    next hseen =>
      refine iff_of_false nofun ?_
      rintro ⟨⟨⟨-, hnew⟩, -⟩, -⟩
      exact hnew (List.contains_iff_mem.1 hseen)
    next hseen =>
      have hnew : tile ∉ seen := fun hmem => hseen (List.contains_iff_mem.2 hmem)
      rw [ih]
      constructor
      · rintro ⟨hrest, hnodup⟩
        refine ⟨⟨⟨by omega, hnew⟩, fun t ht => ⟨(hrest t ht).1, ?_⟩⟩, ?_, hnodup⟩
        · exact fun hmem => (hrest t ht).2 (List.mem_cons_of_mem _ hmem)
        · exact fun hmem => (hrest tile hmem).2 List.mem_cons_self
      · rintro ⟨⟨-, hrest⟩, hmem, hnodup⟩
        refine ⟨fun t ht => ⟨(hrest t ht).1, fun hcons => ?_⟩, hnodup⟩
        rcases List.mem_cons.1 hcons with rfl | hold
        · exact hmem ht
        · exact (hrest t ht).2 hold

theorem perm_range_of_tileFault? {tiles : List Nat} (hlength : tiles.length = 9)
    (h : tileFault? tiles [] = none) : tiles ~ List.range 9 := by
  obtain ⟨hrange, hnodup⟩ := tileFault?_eq_none_iff.1 h
  have hsub : tiles ⊆ List.range 9 := by
    intro tile htile
    have hle := (hrange tile htile).1
    exact List.mem_range.2 (by omega)
  apply (List.subperm_of_subset hnodup hsub).perm_of_length_le
  rw [hlength, List.length_range]

theorem tileFault?_of_perm {tiles : List Nat} (h : tiles ~ List.range 9) :
    tileFault? tiles [] = none := by
  refine tileFault?_eq_none_iff.2 ⟨fun tile htile => ?_, h.nodup_iff.2 List.nodup_range⟩
  have hlt := List.mem_range.1 (h.mem_iff.1 htile)
  exact ⟨by omega, List.not_mem_nil⟩

/-- The tiles of a board are those that the text gives, if it gives the digits in some order. -/
theorem Shows.map_tileOf (h : b.Shows text) (hdigits : text.toList ~ digits) :
    text.toList.map tileOf = b.squares.toList := by
  have hlt : ∀ tile ∈ b.squares.toList, tile < 9 := by
    intro tile htile
    apply lt_of_digitChar_mem
    rw [← hdigits.mem_iff, h]
    exact List.mem_map_of_mem htile
  calc text.toList.map tileOf = b.squares.toList.map fun tile => tileOf tile.digitChar := by
        rw [h, List.map_map]
        rfl
    _ = b.squares.toList.map id := List.map_congr_left fun tile htile =>
        tileOf_digitChar tile (hlt tile htile)
    _ = b.squares.toList := List.map_id _

theorem Shows.proper (h : b.Shows text) (hdigits : text.toList ~ digits) : b.Proper := by
  have hrange : digits.map tileOf = List.range 9 := by decide
  unfold Proper
  rw [← h.map_tileOf hdigits, ← hrange]
  exact hdigits.map tileOf

/-- A text gives a board if its characters are the digits of the blank and of the tiles, in any
order. -/
theorem parse_eq_ok_iff : parse text = .ok b ↔ text.toList ~ digits ∧ b.Shows text := by
  constructor
  · intro h
    unfold parse at h
    split at h
    · cases h
    next hall =>
    dsimp only at h
    split at h
    next hlength =>
      split at h
      · cases h
      next hfault =>
      cases h
      have hshows : text.toList = (text.toList.map tileOf).map Nat.digitChar := by
        rw [List.map_map]
        refine (List.map_id _).symm.trans (List.map_congr_left fun c hc => ?_)
        have hdigit : ∀ c ∈ text.toList, c.isDigit = true := by simpa using hall
        exact (digitChar_tileOf (hdigit c hc)).symm
      refine ⟨?_, hshows⟩
      rw [hshows, ← map_digitChar_range]
      exact (perm_range_of_tileFault? hlength hfault).map _
    next => cases h
  · rintro ⟨hdigits, hshows⟩
    have htiles : text.toList.map (fun c => c.toNat - '0'.toNat) = b.squares.toList :=
      hshows.map_tileOf hdigits
    have hall : text.toList.all Char.isDigit = true := by
      refine List.all_eq_true.2 fun c hc => ?_
      have hdigit : ∀ c ∈ digits, c.isDigit = true := List.all_eq_true.1 (by decide)
      exact hdigit c (hdigits.mem_iff.1 hc)
    have hlength : (text.toList.map fun c => c.toNat - '0'.toNat).length = 9 := by
      rw [htiles, Vector.length_toList]
    have hfault : tileFault? (text.toList.map fun c => c.toNat - '0'.toNat) [] = none := by
      rw [htiles]
      exact tileFault?_of_perm (hshows.proper hdigits)
    unfold parse
    rw [if_neg (by rw [hall]; decide)]
    dsimp only
    rw [dif_pos hlength, hfault]
    exact congrArg Except.ok (ext_squares htiles)

/-- The board of a text is rendered as that text. -/
theorem Shows.render? (h : b.Shows text) (hb : b.Proper) : b.render? = some text := by
  have hcode : ∀ tile < 9, 48 + tile ≤ 255 ∧ Char.ofNat (48 + tile) = tile.digitChar := by decide
  have hmap : (b.squares.toList.mapM fun tile =>
      if 48 + tile ≤ 255 then some (Char.ofNat (48 + tile)) else none) =
        some (b.squares.toList.map Nat.digitChar) := by
    refine mapM_eq_some_map fun tile htile => ?_
    obtain ⟨hle, hchar⟩ := hcode tile (List.mem_range.1 (hb.mem_iff.1 htile))
    rw [if_pos hle, hchar]
  unfold Board.render?
  rw [hmap, ← h, Option.map_some, String.ofList_toList]

end Board

/-! ## Puzzles of texts -/

namespace SlidingPuzzle

theorem parse_eq_ok_iff {i g : String} {p : SlidingPuzzle} :
    parse i g = .ok p ↔ Board.parse i = .ok p.initial ∧ Board.parse g = .ok p.goal ∧
      p.initial.isOdd = p.goal.isOdd ∧ p.heuristic = .manhattan := by
  unfold parse
  cases hi : Board.parse i with
  | error fault => simp [bind, Except.bind]
  | ok start =>
    cases hg : Board.parse g with
    | error fault => simp [bind, Except.bind]
    | ok target =>
      obtain ⟨initial, goal, heuristic⟩ := p
      by_cases hodd : start.isOdd = target.isOdd
      · simp only [bind, Except.bind, pure, Except.pure, hodd, if_true, Except.ok.injEq, mk.injEq]
        constructor
        · rintro ⟨rfl, rfl, rfl⟩
          exact ⟨rfl, rfl, hodd, rfl⟩
        · rintro ⟨rfl, rfl, -, rfl⟩
          exact ⟨rfl, rfl, rfl⟩
      · simp only [bind, Except.bind, hodd, if_false, Except.ok.injEq]
        refine iff_of_false nofun ?_
        rintro ⟨rfl, rfl, heq, -⟩
        exact hodd heq

end SlidingPuzzle

open Board

/-- **A puzzle is accepted exactly when it can be solved.** Two texts give a puzzle if and only if both
give the digits from 0 to 8 in some order and legal moves lead from the board of the first to the board
of the second. The boards of the puzzle are then those of the texts, and are rendered as them. -/
theorem slidingPuzzle_accepted_iff (i g : String) :
    ((∃ p, SlidingPuzzle.parse i g = .ok p) ↔
      i.toList ~ digits ∧ g.toList ~ digits ∧ ∃ start goal : Board, start.Shows i ∧ goal.Shows g ∧
        ∃ moves, ((⟨start, goal, .manhattan⟩ : SlidingPuzzle).problem : Problem Board Move Double).Path
          start moves goal) ∧
    ∀ p, SlidingPuzzle.parse i g = .ok p →
      p.initial.Shows i ∧ p.goal.Shows g ∧ p.initial.render? = some i ∧ p.goal.render? = some g := by
  have hboards : ∀ p, SlidingPuzzle.parse i g = .ok p →
      (i.toList ~ digits ∧ p.initial.Shows i) ∧ (g.toList ~ digits ∧ p.goal.Shows g) ∧
        p.initial.isOdd = p.goal.isOdd := by
    intro p hp
    obtain ⟨hi, hg, hodd, -⟩ := SlidingPuzzle.parse_eq_ok_iff.1 hp
    exact ⟨Board.parse_eq_ok_iff.1 hi, Board.parse_eq_ok_iff.1 hg, hodd⟩
  refine ⟨⟨?_, ?_⟩, ?_⟩
  · rintro ⟨p, hp⟩
    obtain ⟨⟨hi, hstart⟩, ⟨hg, hgoal⟩, hodd⟩ := hboards p hp
    obtain ⟨moves, hmoves⟩ := ((hstart.proper hi).reaches_iff (hgoal.proper hg)).2 hodd
    exact ⟨hi, hg, p.initial, p.goal, hstart, hgoal, moves, run?_eq_some_iff.1 hmoves⟩
  · rintro ⟨hi, hg, start, goal, hstart, hgoal, moves, hpath⟩
    have hodd : start.isOdd = goal.isOdd :=
      ((hstart.proper hi).reaches_iff (hgoal.proper hg)).1 ⟨moves, run?_eq_some_iff.2 hpath⟩
    exact ⟨⟨start, goal, .manhattan⟩, SlidingPuzzle.parse_eq_ok_iff.2
      ⟨Board.parse_eq_ok_iff.2 ⟨hi, hstart⟩, Board.parse_eq_ok_iff.2 ⟨hg, hgoal⟩, hodd, rfl⟩⟩
  · intro p hp
    obtain ⟨⟨hi, hstart⟩, ⟨hg, hgoal⟩, -⟩ := hboards p hp
    exact ⟨hstart, hgoal, hstart.render? (hstart.proper hi), hgoal.render? (hgoal.proper hg)⟩

end ProblemSolving
