import ProblemSolving.Proofs.World.SlidingParity

/-!
# Every board of the same parity can be reached

* `Board.relabel`, `Board.run?_relabel` : moves see only the blank, so what they do to one board they
  do to all whose blank is there.
* `Board.centred` : the board with a row of tiles around a blank in the middle.
* `Board.turnWord`, `Board.run?_turnWord_centred` : moves that turn three tiles of the row.
* `Proper.exists_centred` : moves take the blank to the middle.
* `Proper.reaches_iff` : one board can be reached from another if they have the same parity.
-/

namespace ProblemSolving

open scoped List

namespace Board

variable {b b' : Board} {m : Move} {j : Fin 9}

/-! ## Tiles by other names -/

/-- The board with other names for the tiles. -/
def relabel (f : Nat → Nat) (b : Board) : Board := ⟨b.squares.map f⟩

section
variable {f : Nat → Nat} (hf : ∀ x, f x = 0 ↔ x = 0)
include hf

theorem blank_relabel (b : Board) : (b.relabel f).blank = b.blank := by
  have hfind : (b.relabel f).find? 0 = b.find? 0 := by
    refine Option.ext fun i => ?_
    unfold find? relabel
    simp only [Vector.finIdxOf?_eq_some_iff]
    simp [Vector.get_eq_getElem, hf]
  unfold blank
  rw [hfind]

theorem slide_relabel (b : Board) (m : Move) : (b.relabel f).slide m = (b.slide m).relabel f := by
  have hblank : (b.relabel f).blank = b.blank := blank_relabel hf b
  cases hj : squareAt? b.blank (offset m) with
  | none => rw [slide_eq_self hblank hj, slide_eq_self rfl hj]
  | some j =>
    rw [slide_eq hblank hj, slide_eq rfl hj]
    refine congrArg Board.mk (Vector.ext fun i hi => ?_)
    simp only [relabel, Vector.getElem_swap, Vector.getElem_map]
    split
    · rfl
    split <;> rfl

/-- Moves do the same to a board by whatever names the tiles go. -/
theorem run?_relabel (ms : List Move) (b : Board) :
    run? ms (b.relabel f) = (run? ms b).map (relabel f) := by
  induction ms generalizing b with
  | nil => rfl
  | cons m ms ih =>
    have hmoves : (b.relabel f).moves = b.moves := by
      rw [moves_eq, moves_eq, blank_relabel hf]
    unfold run?
    rw [hmoves, slide_relabel hf, ih]
    split <;> rfl

end

/-! ## Rows of tiles around a blank in the middle -/

/-- The tiles of a row, by their places counted from one; the blank stays the blank. -/
def label (row : List Nat) : Nat → Nat
  | 0 => 0
  | place + 1 => row.getD place 1

/-- The board with the blank in the middle and a row of tiles around it. -/
def centred (row : List Nat) : Board := relabel (label row) ⟨#v[1, 2, 3, 4, 0, 5, 6, 7, 8]⟩

/-- The eight places of a row. -/
def places : List Nat := [1, 2, 3, 4, 5, 6, 7, 8]

variable {row row' : List Nat}

theorem label_eq_zero_iff (hzero : 0 ∉ row) (x : Nat) : label row x = 0 ↔ x = 0 := by
  cases x with
  | zero => simp [label]
  | succ place =>
    simp only [label, Nat.add_one_ne_zero, iff_false]
    rw [List.getD_eq_getElem?_getD]
    cases hplace : row[place]? with
    | none => simp
    | some tile =>
      rintro rfl
      exact hzero (List.mem_of_getElem? hplace)

theorem exists_eight (hlength : row.length = 8) :
    ∃ a b c d e f g h, row = [a, b, c, d, e, f, g, h] := by
  match row, hlength with
  | [a, b, c, d, e, f, g, h], _ => exact ⟨a, b, c, d, e, f, g, h, rfl⟩

theorem map_label_places (hlength : row.length = 8) : places.map (label row) = row := by
  obtain ⟨a, b, c, d, e, f, g, h, rfl⟩ := exists_eight hlength
  rfl

theorem relabel_centred (hlength : row.length = 8) {f : Nat → Nat} (hf : f 0 = 0) :
    (centred row).relabel f = centred (row.map f) := by
  obtain ⟨a, b, c, d, e, g, h, i, rfl⟩ := exists_eight hlength
  simp [centred, relabel, label, hf]

theorem squares_centred (a b c d e f g h : Nat) :
    (centred [a, b, c, d, e, f, g, h]).squares.toList = [a, b, c, d, 0, e, f, g, h] := by
  simp [centred, relabel, label]

theorem tiles_centred (hlength : row.length = 8) (hzero : 0 ∉ row) : (centred row).tiles = row := by
  obtain ⟨a, b, c, d, e, f, g, h, rfl⟩ := exists_eight hlength
  have hall : [a, b, c, d, e, f, g, h].filter (· != 0) = [a, b, c, d, e, f, g, h] := by
    refine List.filter_eq_self.2 fun x hx => ?_
    simp only [bne_iff_ne]
    rintro rfl
    exact hzero hx
  unfold tiles
  rw [squares_centred]
  exact hall

/-! ## Moves that turn three tiles -/

/-- The row with three tiles turned, from a place on. -/
def turnAt : (place : Nat) → List Nat → List Nat
  | 0, x :: y :: z :: rest => z :: x :: y :: rest
  | place + 1, x :: rest => x :: turnAt place rest
  | _, row => row

theorem map_turnAt (f : Nat → Nat) (place : Nat) (row : List Nat) :
    (turnAt place row).map f = turnAt place (row.map f) := by
  fun_induction turnAt place row with
  | case1 => rfl
  | case2 place x rest ih => rw [List.map_cons, ih]; rfl
  | case3 place row h h' =>
    unfold turnAt
    split
    next hrow =>
      obtain ⟨x, _, rfl, -, hrow⟩ := List.map_eq_cons_iff.1 hrow
      obtain ⟨y, _, rfl, -, hrow⟩ := List.map_eq_cons_iff.1 hrow
      obtain ⟨z, _, rfl, -, -⟩ := List.map_eq_cons_iff.1 hrow
      exact absurd rfl (h x y z _ rfl)
    next hrow =>
      obtain ⟨x, _, rfl, -, -⟩ := List.map_eq_cons_iff.1 hrow
      exact absurd rfl (h' _ x _ rfl)
    next => rfl

theorem turnAt_append (pre : List Nat) (x y z : Nat) (post : List Nat) :
    turnAt pre.length (pre ++ x :: y :: z :: post) = pre ++ z :: x :: y :: post := by
  induction pre with
  | nil => rfl
  | cons w pre ih => exact congrArg (w :: ·) ih

/-- Moves from a blank in the middle and back that turn the three tiles from a place on. -/
def turnWord : (place : Nat) → List Move
  | 0 => [.up, .left, .down, .right, .up, .right, .down, .left, .left, .up, .right, .down, .right, .up,
      .left, .down]
  | 1 => [.left, .up, .right, .right, .down, .left, .up, .left, .down, .right, .right, .up, .left, .down]
  | 2 => [.left, .up, .right, .right, .down, .left, .up, .left, .down, .right]
  | 3 => [.right, .down, .left, .up, .left, .down, .right, .right, .up, .left]
  | 4 => [.down, .left, .up, .right, .right, .down, .left, .up, .left, .down, .right, .right, .up, .left]
  | _ => [.down, .left, .up, .right, .down, .right, .up, .left, .left, .down, .right, .up, .right, .down,
      .left, .up]

theorem run?_turnWord_places : ∀ place < 6,
    run? (turnWord place) (centred places) = some (centred (turnAt place places)) := by
  decide +kernel

theorem length_turnAt (place : Nat) (row : List Nat) : (turnAt place row).length = row.length := by
  fun_induction turnAt place row with
  | case1 => rfl
  | case2 place x rest ih => simp [ih]
  | case3 => rfl

/-- What the moves do to the places they do to every row. -/
theorem run?_turnWord_centred (hlength : row.length = 8) (hzero : 0 ∉ row) {place : Nat}
    (hplace : place < 6) : run? (turnWord place) (centred row) = some (centred (turnAt place row)) := by
  have hplaces := map_label_places hlength
  have hrow : centred row = (centred places).relabel (label row) := by
    rw [relabel_centred rfl rfl, hplaces]
  have hturned : (centred (turnAt place places)).relabel (label row) = centred (turnAt place row) := by
    rw [relabel_centred (length_turnAt place places) rfl, map_turnAt, hplaces]
  rw [hrow, run?_relabel (label_eq_zero_iff hzero), run?_turnWord_places place hplace, Option.map_some,
    hturned]

theorem reaches_of_turns (hlength : row.length = 8) (hzero : 0 ∉ row) (h : Turns row row') :
    Reaches (centred row) (centred row') := by
  induction h with
  | refl => exact .refl _
  | tail hturns hturn ih =>
    have hperm := Turns.perm hturns
    obtain ⟨pre, x, y, z, post⟩ := hturn
    have hlength' := hperm.length_eq.symm.trans hlength
    have hplace : pre.length < 6 := by
      simp only [List.length_append, List.length_cons] at hlength'
      omega
    refine ih.trans ⟨turnWord pre.length, ?_⟩
    rw [run?_turnWord_centred hlength' (fun hmem => hzero (hperm.mem_iff.2 hmem)) hplace,
      turnAt_append]

/-! ## The blank in the middle -/

/-- The square to which moves take a blank, if each is legal where the blank is. -/
def follow? : List Move → Fin 9 → Option (Fin 9)
  | [], i => some i
  | m :: rest, i => if m ∈ movesAt i then (squareAt? i (offset m)).bind (follow? rest) else none

theorem Proper.follow (h : b.Proper) {ms : List Move} (hfollow : follow? ms b.blank = some j) :
    ∃ b', Board.run? ms b = some b' ∧ b'.Proper ∧ b'.blank = j := by
  induction ms generalizing b with
  | nil => exact ⟨b, rfl, h, Option.some.inj hfollow⟩
  | cons m ms ih =>
    unfold follow? at hfollow
    split at hfollow
    next hm =>
      obtain ⟨i, hi, hlater⟩ := Option.bind_eq_some_iff.1 hfollow
      rw [← h.blank_slide hi] at hlater
      obtain ⟨b', hrun, hb'⟩ := ih (h.slide m) hlater
      exact ⟨b', (run?_cons_of_mem hm ms).trans hrun, hb'⟩
    next => cases hfollow

/-- Moves that take the blank from a square to the middle. -/
def toMiddle (square : Fin 9) : List Move :=
  (if square.val < 3 then [.down] else if square.val < 6 then [] else [.up]) ++
    (if square.val % 3 = 0 then [.right] else if square.val % 3 = 1 then [] else [.left])

theorem follow?_toMiddle : ∀ i, follow? (toMiddle i) i = some 4 := by decide

theorem Proper.eq_centred (h : b.Proper) (hblank : b.blank = 4) : b = centred b.tiles := by
  have hzero : ∀ i, i ≠ 4 → (b.squares.get i != 0) = true := by
    intro i hi
    simp only [bne_iff_ne]
    intro hget
    exact hi ((h.blank_eq_iff.2 hget).symm.trans hblank)
  have hmiddle : b.squares.get 4 = 0 := h.blank_eq_iff.1 hblank
  obtain ⟨⟨⟨squares⟩, hsize⟩⟩ := b
  match squares, hsize with
  | [t₀, t₁, t₂, t₃, t₄, t₅, t₆, t₇, t₈], _ =>
    obtain rfl : t₄ = 0 := hmiddle
    have h₀ : (t₀ != 0) = true := hzero 0 (by decide)
    have h₁ : (t₁ != 0) = true := hzero 1 (by decide)
    have h₂ : (t₂ != 0) = true := hzero 2 (by decide)
    have h₃ : (t₃ != 0) = true := hzero 3 (by decide)
    have h₅ : (t₅ != 0) = true := hzero 5 (by decide)
    have h₆ : (t₆ != 0) = true := hzero 6 (by decide)
    have h₇ : (t₇ != 0) = true := hzero 7 (by decide)
    have h₈ : (t₈ != 0) = true := hzero 8 (by decide)
    have htiles : [t₀, t₁, t₂, t₃, 0, t₅, t₆, t₇, t₈].filter (· != 0) =
        [t₀, t₁, t₂, t₃, t₅, t₆, t₇, t₈] := by
      simp only [List.filter_cons, h₀, h₁, h₂, h₃, h₅, h₆, h₇, h₈, bne_self_eq_false, if_true,
        Bool.false_eq_true, if_false, List.filter_nil]
    refine ext_squares ?_
    unfold tiles
    show _ = (centred ([t₀, t₁, t₂, t₃, 0, t₅, t₆, t₇, t₈].filter (· != 0))).squares.toList
    rw [htiles, squares_centred]
    rfl

theorem Proper.tiles_perm (h : b.Proper) : b.tiles ~ places :=
  h.filter _

/-- Moves lead from every board to one with the blank in the middle. -/
theorem Proper.exists_centred (h : b.Proper) : ∃ row, row ~ places ∧ Reaches b (centred row) := by
  obtain ⟨b', hrun, hb', hblank⟩ := h.follow (follow?_toMiddle b.blank)
  refine ⟨b'.tiles, hb'.tiles_perm, toMiddle b.blank, ?_⟩
  rw [← hb'.eq_centred hblank]
  exact hrun

/-! ## Reachable boards -/

/-- Moves lead from one board to another if and only if their tiles have the same parity. -/
theorem Proper.reaches_iff (hb : b.Proper) (hb' : b'.Proper) :
    Reaches b b' ↔ b.isOdd = b'.isOdd := by
  refine ⟨fun h => h.isOdd_eq hb, fun hodd => ?_⟩
  obtain ⟨row, hrow, hreaches⟩ := hb.exists_centred
  obtain ⟨row', hrow', hreaches'⟩ := hb'.exists_centred
  have hlength : ∀ {row : List Nat}, row ~ places → row.length = 8 := fun h => h.length_eq
  have hzero : ∀ {row : List Nat}, row ~ places → 0 ∉ row := by
    intro row h hmem
    exact absurd (h.mem_iff.1 hmem) (by decide)
  have hparity : inversions row % 2 = inversions row' % 2 := by
    have hcentred : (centred row).isOdd = (centred row').isOdd := by
      rw [← hreaches.isOdd_eq hb, ← hreaches'.isOdd_eq hb', hodd]
    rwa [isOdd_eq_iff, tiles_centred (hlength hrow) (hzero hrow),
      tiles_centred (hlength hrow') (hzero hrow')] at hcentred
  have hturns : Turns row row' := by
    apply turns_of_perm (hrow.nodup_iff.2 (by decide)) (hrow.trans hrow'.symm) _ hparity
    rw [hlength hrow']
    decide
  have hmiddle : Reaches (centred row) (centred row') :=
    reaches_of_turns (hlength hrow) (hzero hrow) hturns
  exact (hreaches.trans hmiddle).trans (hreaches'.symm hb')

end Board

end ProblemSolving
