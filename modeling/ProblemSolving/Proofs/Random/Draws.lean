import Mathlib
import ProblemSolving.Random.Source

/-!
# What comes of every draw

* `Draw.Always` : the outcome has a property, whatever words the source gives.
* `Draw.Always.pure`, `Draw.Always.bind` : one draw after the other.
* `Draw.Can` : the outcome is one that some words lead to.
* `Draw.Always.mapM` : a draw for each member of a list.
* `Draw.below32_always`, `Draw.below64_always`, `Draw.choose_always` : a number below a bound is
  below it, and a member of a list is one.
-/

namespace ProblemSolving
namespace Draw

variable {ρ α β : Type}

/-- The outcome has a property, whatever words the source gives. -/
def Always (act : Draw ρ α) (p : α → Prop) : Prop := ∀ source, p (act source).1

theorem Always.pure {p : α → Prop} {x : α} (h : p x) : Always (pure x : Draw ρ α) p := fun _ => h

theorem Always.bind {act : Draw ρ α} {next : α → Draw ρ β} {p : α → Prop} {q : β → Prop}
    (h : Always act p) (hnext : ∀ x, p x → Always (next x) q) : Always (act >>= next) q :=
  fun source => hnext _ (h source) _

theorem Always.imp {act : Draw ρ α} {p q : α → Prop} (h : Always act p) (hpq : ∀ x, p x → q x) :
    Always act q :=
  fun source => hpq _ (h source)

/-- A draw for each member of a list. -/
theorem Always.mapM {f : α → Draw ρ β} {r : α → β → Prop} {items : List α}
    (h : ∀ x ∈ items, Always (f x) (r x)) : Always (items.mapM f) (List.Forall₂ r items) := by
  induction items with
  | nil => exact .pure .nil
  | cons x items ih =>
    obtain ⟨hx, hitems⟩ := List.forall_mem_cons.1 h
    rw [List.mapM_cons]
    exact hx.bind fun y hy => (ih hitems).bind fun ys hys => .pure (.cons hy hys)

/-- Some words of the source lead to the outcome. -/
def Can (act : Draw ρ α) (x : α) : Prop := ∃ source, (act source).1 = x

theorem Always.of_can {act : Draw ρ α} {p : α → Prop} (h : Always act p) {x : α} (hx : Can act x) :
    p x := by
  obtain ⟨source, rfl⟩ := hx
  exact h source

/-- Of a word of so many bits, times a bound, the upper half is below the bound. -/
theorem belowFrom_always {word : Draw ρ Nat} {width n : Nat} (hword : Always word (· < 2 ^ width))
    (hn : 0 < n) : ∀ refusals, Always (belowFrom word width n refusals) (· < n)
  | 0 => hword.bind fun w hw => .pure (upper_lt hn hw)
  | refusals + 1 => by
    refine hword.bind fun w hw => ?_
    dsimp only
    split
    · exact .pure (upper_lt hn hw)
    · exact belowFrom_always hword hn refusals
where
  upper_lt {width n w : Nat} (hn : 0 < n) (hw : w < 2 ^ width) : w * n / Nat.pow 2 width < n :=
    Nat.div_lt_of_lt_mul (Nat.mul_lt_mul_of_pos_right hw hn)

section
variable [RandomSource ρ]

theorem word32_always : Always (word32 : Draw ρ Nat) (· < 2 ^ 32) :=
  fun source => (RandomSource.word32 source).1.toNat_lt

theorem word64_always : Always (word64 : Draw ρ Nat) (· < 2 ^ 64) :=
  fun source => (RandomSource.word64 source).1.toNat_lt

theorem below32_always {n : Nat} (hn : 0 < n) : Always (below32 n : Draw ρ Nat) (· < n) :=
  belowFrom_always word32_always hn maxRefusals

theorem below64_always {n : Nat} (hn : 0 < n) : Always (below64 n : Draw ρ Nat) (· < n) :=
  belowFrom_always word64_always hn maxRefusals

/-- A choice from a list is a member of it; there is none only from the empty list. -/
theorem choose_always (items : List α) :
    Always (choose items : Draw ρ (Option α)) fun
      | none => items = []
      | some x => x ∈ items := by
  cases items with
  | nil => exact .pure rfl
  | cons first rest =>
    refine (below32_always (List.length_pos_of_mem List.mem_cons_self)).bind fun i hi => .pure ?_
    rw [List.getElem?_eq_getElem hi]
    exact List.getElem_mem hi

end

end Draw
end ProblemSolving
