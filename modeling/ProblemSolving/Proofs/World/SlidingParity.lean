import ProblemSolving.Proofs.World.SlidingBoard

/-!
# The parity of the sliding puzzle

No move changes the parity of the inversions, and rows of tiles of one parity differ by turns of three
neighbours only.

* `Board.inversions_pass` : a tile that passes some others changes the parity by their number.
* `Proper.isOdd_slide` : so no move changes it, for the blank passes no tile or two.
* `Board.Turn` : of three tiles in a row the third is put first.
* `Board.turns_of_perm` : turns lead from a row of tiles to every order of the same parity.
-/

namespace ProblemSolving

open scoped List

namespace Board

variable {b b' : Board} {m : Move}

/-! ## Inversions -/

theorem inversions_swap {x z : Nat} (hne : x ≠ z) (pre post : List Nat) :
    (inversions (pre ++ x :: z :: post) + 1) % 2 = inversions (pre ++ z :: x :: post) % 2 := by
  induction pre with
  | nil =>
    simp only [List.nil_append, inversions, List.countP_cons, decide_eq_true_eq]
    split <;> split <;> omega
  | cons y pre ih =>
    have hperm : pre ++ x :: z :: post ~ pre ++ z :: x :: post :=
      (List.Perm.swap z x post).append_left pre
    simp only [List.cons_append, inversions, hperm.countP_eq]
    omega

/-- A tile that passes some others changes the parity of the inversions by their number. -/
theorem inversions_pass {z : Nat} {mid : List Nat} (hz : z ∉ mid) (pre post : List Nat) :
    (inversions (pre ++ (mid ++ z :: post)) + mid.length) % 2 =
      inversions (pre ++ z :: (mid ++ post)) % 2 := by
  induction mid generalizing pre with
  | nil => rfl
  | cons x mid ih =>
    obtain ⟨hne, hmid⟩ := List.ne_and_not_mem_of_not_mem_cons hz
    have hlater := ih hmid (pre ++ [x])
    have hswap := inversions_swap hne.symm pre (mid ++ post)
    simp only [List.append_assoc, List.singleton_append] at hlater
    simp only [List.cons_append, List.length_cons]
    omega

/-- The tiles, row by row. -/
def tiles (b : Board) : List Nat := b.squares.toList.filter (· != 0)

theorem isOdd_eq_iff : b.isOdd = b'.isOdd ↔ inversions b.tiles % 2 = inversions b'.tiles % 2 := by
  unfold isOdd tiles
  rw [Bool.eq_iff_iff, beq_iff_eq, beq_iff_eq]
  omega

/-- The blank that moves on passes no tile or two. -/
theorem Onward.isOdd_eq (hb : b.Proper) (h : Onward b b') : b.isOdd = b'.isOdd := by
  obtain ⟨pre, mid, z, post, hbefore, hafter, hlength⟩ := h
  have hnodup := hb.nodup
  rw [hbefore] at hnodup
  obtain ⟨-, htail, -⟩ := List.nodup_append.1 hnodup
  obtain ⟨hzero, hrest⟩ := List.nodup_cons.1 htail
  obtain ⟨-, -, hdisjoint⟩ := List.nodup_append.1 hrest
  have hz : z ∉ mid := fun hmem => hdisjoint z hmem z List.mem_cons_self rfl
  have hz0 : (z != 0) = true := by
    simp only [bne_iff_ne]
    rintro rfl
    exact hzero (by simp)
  have hmid : mid.filter (· != 0) = mid := by
    refine List.filter_eq_self.2 fun x hx => ?_
    simp only [bne_iff_ne]
    rintro rfl
    exact hzero (by simp [hx])
  rw [isOdd_eq_iff, tiles, tiles, hbefore, hafter]
  simp only [List.filter_append, List.filter_cons, hz0, hmid, bne_self_eq_false, Bool.false_eq_true,
    if_false, if_true]
  have hpass := inversions_pass hz (pre.filter (· != 0)) (post.filter (· != 0))
  omega

theorem Proper.isOdd_slide (h : b.Proper) (hm : m ∈ b.moves) : b.isOdd = (b.slide m).isOdd :=
  h.moved (p := fun b b' => b.isOdd = b'.isOdd) Eq.symm (fun hb h => h.isOdd_eq hb) hm

theorem Reaches.isOdd_eq (hb : b.Proper) (h : Reaches b b') : b.isOdd = b'.isOdd := by
  obtain ⟨ms, hms⟩ := h
  exact hb.run_induction (motive := fun c => c.isOdd = b'.isOdd) hms (fun _ => rfl)
    fun hc hm hlater => (hc.isOdd_slide hm).trans hlater

/-! ## Turns of three tiles -/

/-- Of three neighbours the third is put before the others. -/
inductive Turn : List Nat → List Nat → Prop
  | turn (pre : List Nat) (x y z : Nat) (post : List Nat) :
    Turn (pre ++ x :: y :: z :: post) (pre ++ z :: x :: y :: post)

/-- Turns lead from one row of tiles to another. -/
def Turns : List Nat → List Nat → Prop := Relation.ReflTransGen Turn

variable {l l' : List Nat}

theorem Turn.perm (h : Turn l l') : l ~ l' := by
  obtain ⟨pre, x, y, z, post⟩ := h
  have hrotate : x :: y :: z :: post ~ z :: x :: y :: post :=
    ((List.Perm.swap z y post).cons x).trans (.swap z x (y :: post))
  exact hrotate.append_left pre

theorem Turns.perm (h : Turns l l') : l ~ l' := by
  induction h with
  | refl => exact .refl _
  | tail _ hturn ih => exact ih.trans hturn.perm

theorem Turns.cons (h : Turns l l') (x : Nat) : Turns (x :: l) (x :: l') := by
  induction h with
  | refl => exact .refl
  | tail _ hturn ih =>
    obtain ⟨pre, y, z, w, post⟩ := hturn
    exact ih.tail (.turn (x :: pre) y z w post)

theorem Turn.inversions_eq (hl : l.Nodup) (h : Turn l l') :
    inversions l % 2 = inversions l' % 2 := by
  obtain ⟨pre, x, y, z, post⟩ := h
  have hz : z ∉ [x, y] := by
    have htail := (List.nodup_append.1 hl).2.1
    simp only [List.nodup_cons, List.mem_cons, not_or] at htail
    rintro hmem
    rcases List.mem_pair.1 hmem with rfl | rfl
    · exact htail.1.2.1 rfl
    · exact htail.2.1.1 rfl
  have hpass := inversions_pass hz pre post
  simp only [List.cons_append, List.nil_append, List.length_cons, List.length_nil] at hpass
  omega

theorem Turns.inversions_eq (hl : l.Nodup) (h : Turns l l') :
    inversions l % 2 = inversions l' % 2 := by
  induction h with
  | refl => rfl
  | tail hturns hturn ih =>
    exact ih.trans (hturn.inversions_eq (Turns.perm hturns |>.nodup_iff.1 hl))

theorem exists_turns_front {x : Nat} (before after : List Nat)
    (hlength : 2 ≤ before.length + after.length) :
    ∃ rest, Turns (before ++ x :: after) (x :: rest) := by
  induction hn : before.length using Nat.strongRecOn generalizing before after with
  | _ n ih =>
    rcases List.eq_nil_or_concat before with rfl | ⟨first, c, rfl⟩
    · exact ⟨after, .refl⟩
    rcases List.eq_nil_or_concat first with rfl | ⟨first, a, rfl⟩
    · cases after with
      | nil => simp at hlength
      | cons d after =>
        exact ⟨d :: c :: after, .tail (.single (.turn [] c x d after)) (.turn [] d c x after)⟩
    · have hturn : Turn ((first ++ [a]) ++ [c] ++ x :: after) (first ++ x :: a :: c :: after) := by
        simpa using Turn.turn first a c x after
      obtain ⟨rest, hrest⟩ := ih first.length (by simp at hn; omega) first (a :: c :: after)
        (by simp only [List.length_cons]; omega) rfl
      rw [List.concat_eq_append, List.concat_eq_append]
      exact ⟨rest, .head hturn hrest⟩

/-- Turns lead to any order of the tiles, or to that order with its last two tiles the other way
round. -/
theorem turns_or_swapped : ∀ {l l' : List Nat}, l ~ l' → 2 ≤ l'.length →
    Turns l l' ∨ ∃ pre a b, l' = pre ++ [a, b] ∧ Turns l (pre ++ [b, a])
  | l, [a, b], hperm, _ => by
    obtain ⟨x, y, rfl⟩ := List.length_eq_two.1 hperm.length_eq
    rcases List.mem_pair.1 (hperm.mem_iff.1 List.mem_cons_self) with rfl | rfl
    · obtain rfl := List.singleton_perm_singleton.1 hperm.cons_inv
      exact .inl .refl
    · obtain rfl := List.singleton_perm_singleton.1 (hperm.trans (.swap x a [])).cons_inv
      exact .inr ⟨[], y, x, rfl, .refl⟩
  | l, x :: c :: d :: l', hperm, _ => by
    obtain ⟨before, after, rfl⟩ := List.append_of_mem (hperm.mem_iff.2 List.mem_cons_self)
    have hlength := hperm.length_eq
    obtain ⟨rest, hfront⟩ := exists_turns_front (x := x) before after (by
      simp only [List.length_append, List.length_cons] at hlength
      omega)
    have hrest : rest ~ c :: d :: l' := (hfront.perm.symm.trans hperm).cons_inv
    rcases turns_or_swapped hrest (by simp) with hturns | ⟨pre, a, b, hlast, hturns⟩
    · exact .inl (hfront.trans (hturns.cons x))
    · exact .inr ⟨x :: pre, a, b, by rw [hlast]; rfl, hfront.trans (hturns.cons x)⟩
  | _, [], _, hlength => by simp at hlength
  | _, [_], _, hlength => by simp at hlength

/-- Turns lead from a row of different tiles to every order of the same parity. -/
theorem turns_of_perm (hl : l.Nodup) (hperm : l ~ l') (hlength : 2 ≤ l'.length)
    (hparity : inversions l % 2 = inversions l' % 2) : Turns l l' := by
  rcases turns_or_swapped hperm hlength with hturns | ⟨pre, a, b, rfl, hturns⟩
  · exact hturns
  · have hne : a ≠ b := by
      have hnodup := (List.nodup_append.1 (hperm.nodup_iff.1 hl)).2.1
      simpa using hnodup
    have hswap := inversions_swap hne pre []
    have hsame := hturns.inversions_eq hl
    omega

end Board

end ProblemSolving
