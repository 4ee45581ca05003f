import Mathlib.Data.List.Perm.Basic
import ProblemSolving.Frontier.Heap

/-!
# Heaps keep their entries and their order

* `Heap.Ordered` : every entry stands above what it does not come after.
* `Heap.merge_perm`, `Heap.insert_perm`, `Heap.tail_perm` : no entry is lost or made up.
* `Heap.merge_ordered`, `Heap.insert_ordered`, `Heap.tail_ordered` : the order is kept.
* `Heap.head_le` : the head comes before the rest.
-/

namespace ProblemSolving

namespace Heap

open scoped List

variable {α : Type} {le : α → α → Bool}

/-! ## Entries -/

theorem toList_join (x : α) (a b : Heap α) :
    (join x a b).toList ~ x :: (a.toList ++ b.toList) := by
  unfold join
  split
  · exact .refl _
  · exact List.perm_append_comm.cons x

theorem merge_perm (a b : Heap α) : (merge le a b).toList ~ a.toList ++ b.toList := by
  fun_induction merge le a b with
  | case1 b => exact .refl _
  | case2 a hne => simp [toList]
  | case3 ra x la ra' rb y lb rb' hle ih =>
    calc (join x la (merge le ra' (node rb y lb rb'))).toList
      _ ~ x :: (la.toList ++ (merge le ra' (node rb y lb rb')).toList) := toList_join ..
      _ ~ x :: (la.toList ++ (ra'.toList ++ (node rb y lb rb').toList)) :=
        (ih.append_left _).cons x
      _ = (node ra x la ra').toList ++ (node rb y lb rb').toList := by simp [toList]
  | case4 ra x la ra' rb y lb rb' hle ih =>
    calc (join y lb (merge le (node ra x la ra') rb')).toList
      _ ~ y :: (lb.toList ++ (merge le (node ra x la ra') rb').toList) := toList_join ..
      _ ~ y :: (lb.toList ++ ((node ra x la ra').toList ++ rb'.toList)) :=
        (ih.append_left _).cons y
      _ ~ y :: ((node ra x la ra').toList ++ (lb.toList ++ rb'.toList)) := by
        refine List.Perm.cons y ?_
        rw [← List.append_assoc, ← List.append_assoc]
        exact List.perm_append_comm.append_right _
      _ ~ (node ra x la ra').toList ++ (node rb y lb rb').toList := List.perm_middle.symm

theorem insert_perm (x : α) (h : Heap α) : (insert le x h).toList ~ x :: h.toList :=
  merge_perm ..

theorem tail_perm {h : Heap α} {x : α} (hx : h.head? = some x) :
    h.toList ~ x :: (h.tail le).toList := by
  cases h with
  | leaf => simp [head?] at hx
  | node _ least left right =>
    simp only [head?, Option.some.injEq] at hx
    subst hx
    exact (merge_perm left right).symm.cons least

theorem head?_eq_none {h : Heap α} : h.head? = none ↔ h.toList = [] := by
  cases h <;> simp [head?, toList]

/-! ## Order -/

/-- Every entry does not come after the entries below it. -/
def Ordered (le : α → α → Bool) : Heap α → Prop
  | leaf => True
  | node _ least left right =>
    (∀ y ∈ left.toList ++ right.toList, le least y = true) ∧ left.Ordered le ∧ right.Ordered le

theorem join_ordered {x : α} {a b : Heap α} (hx : ∀ y ∈ a.toList ++ b.toList, le x y = true)
    (ha : a.Ordered le) (hb : b.Ordered le) : (join x a b).Ordered le := by
  unfold join
  split
  · exact ⟨hx, ha, hb⟩
  · exact ⟨fun y hy => hx y (List.perm_append_comm.mem_iff.1 hy), hb, ha⟩

theorem Ordered.least_le {r : Nat} {x : α} {a b : Heap α} (refl : ∀ x, le x x = true)
    (h : (node r x a b).Ordered le) : ∀ y ∈ (node r x a b).toList, le x y = true := by
  intro y hy
  rcases List.mem_cons.1 hy with rfl | hy
  · exact refl y
  · exact h.1 y hy

section
variable (total : ∀ x y, le x y = true ∨ le y x = true)
  (trans : ∀ x y z, le x y = true → le y z = true → le x z = true)

include total trans

theorem merge_ordered (a b : Heap α) (ha : a.Ordered le) (hb : b.Ordered le) :
    (merge le a b).Ordered le := by
  have refl : ∀ x, le x x = true := fun x => or_self_iff.1 (total x x)
  fun_induction merge le a b with
  | case1 b => exact hb
  | case2 a hne => exact ha
  | case3 ra x la ra' rb y lb rb' hle ih =>
    apply join_ordered _ ha.2.1 (ih ha.2.2 hb)
    intro z hz
    rcases List.mem_append.1 hz with hz | hz
    · exact ha.1 z (List.mem_append_left _ hz)
    rcases List.mem_append.1 ((merge_perm ..).mem_iff.1 hz) with hz | hz
    · exact ha.1 z (List.mem_append_right _ hz)
    · exact trans x y z hle (hb.least_le refl z hz)
  | case4 ra x la ra' rb y lb rb' hle ih =>
    have hyx : le y x = true := (total x y).resolve_left hle
    apply join_ordered _ hb.2.1 (ih ha hb.2.2)
    intro z hz
    rcases List.mem_append.1 hz with hz | hz
    · exact hb.1 z (List.mem_append_left _ hz)
    rcases List.mem_append.1 ((merge_perm ..).mem_iff.1 hz) with hz | hz
    · exact trans y x z hyx (ha.least_le refl z hz)
    · exact hb.1 z (List.mem_append_right _ hz)

theorem insert_ordered (x : α) {h : Heap α} (hh : h.Ordered le) : (insert le x h).Ordered le :=
  merge_ordered total trans _ _ ⟨by simp [toList], trivial, trivial⟩ hh

theorem tail_ordered {h : Heap α} (hh : h.Ordered le) : (h.tail le).Ordered le := by
  cases h with
  | leaf => trivial
  | node _ _ left right => exact merge_ordered total trans left right hh.2.1 hh.2.2

end

/-- The head comes before the rest. -/
theorem head_le {h : Heap α} {x : α} (hh : h.Ordered le) (hx : h.head? = some x) :
    ∀ y ∈ (h.tail le).toList, le x y = true := by
  intro y hy
  cases h with
  | leaf => simp [head?] at hx
  | node _ least left right =>
    simp only [head?, Option.some.injEq] at hx
    subst hx
    exact hh.1 y ((merge_perm left right).mem_iff.1 hy)

end Heap

end ProblemSolving
