import Mathlib.Data.Finset.Card
import ProblemSolving.Proofs.Planning.Calls

/-!
# What the guards of a planner cut off

* `SameUnless` : two results are the same, unless the first is a failure of some kind.
* `achieve_sameUnless`, `plan_sameUnless` : a planner with looser guards does the same, unless it was
  a guard that stopped the first.
* `length_stack_le` : goals that must not come up below themselves are nested at most as deep as
  there are facts to add.
* `goalCycles_conservative` : what the check for goals below themselves changes.
-/

namespace ProblemSolving

/-! ## The same, unless cut off -/

/-- The second result is the first, unless that one is a failure of the kind `cut`. -/
inductive SameUnless {ε α : Type} (cut : ε → Prop) : Except ε α → Except ε α → Prop
  | same (x : Except ε α) : SameUnless cut x x
  | cutOff {e : ε} (he : cut e) (y : Except ε α) : SameUnless cut (.error e) y

namespace SameUnless

variable {ε α β : Type} {cut : ε → Prop}

theorem eq {x y : Except ε α} (h : SameUnless cut x y) (hx : ∀ e, cut e → x ≠ .error e) :
    y = x := by
  cases h with
  | same => rfl
  | cutOff he => exact absurd rfl (hx _ he)

theorem bind {x y : Except ε α} {f g : α → Except ε β} (h : SameUnless cut x y)
    (hfg : ∀ a, SameUnless cut (f a) (g a)) : SameUnless cut (x >>= f) (y >>= g) := by
  cases h with
  | same =>
    cases x with
    | error e => exact .same _
    | ok a => exact hfg a
  | cutOff he => exact .cutOff he _

theorem foldlM {f g : β → α → Except ε β} (hfg : ∀ b item, SameUnless cut (f b item) (g b item))
    (items : List α) (b : β) : SameUnless cut (items.foldlM f b) (items.foldlM g b) := by
  induction items generalizing b with
  | nil => exact .same _
  | cons item rest ih =>
    rw [List.foldlM_cons, List.foldlM_cons]
    exact (hfg b item).bind ih

end SameUnless

/-! ## Looser guards -/

section
variable {cut : PlanFailure → Prop} {detect detect' : Bool}
  (hcycles : detect' = detect ∨ detect' = false ∧ ∀ goal, cut (.goalCycle goal))
include hcycles

theorem sameUnless_fresh {x y : Except PlanFailure Plan} (h : SameUnless cut x y)
    (stack : List String) (goal : String) :
    SameUnless cut (if detect && stack.contains goal then .error (.goalCycle goal) else x)
      (if detect' && stack.contains goal then .error (.goalCycle goal) else y) := by
  rcases hcycles with rfl | ⟨rfl, hcut⟩
  · split
    · exact .same _
    · exact h
  · rw [Bool.false_and, if_neg Bool.false_ne_true]
    split
    · exact .cutOff (hcut goal) y
    · exact h

/-- A planner that may nest deeper, or does not look for goals below themselves, achieves a goal in
the same way, unless the first is stopped by the guard that is looser in the second. -/
theorem achieve_sameUnless (schemas : List Schema) {remaining remaining' : Nat}
    (hdepth : remaining' = remaining ∨
      remaining ≤ remaining' ∧ ∀ depth, cut (.depthExceeded depth))
    (stack : List String) (p : Plan) (goal : String) :
    SameUnless cut (achieve schemas detect remaining stack p goal)
      (achieve schemas detect' remaining' stack p goal) := by
  induction remaining generalizing remaining' stack p goal with
  | zero =>
    unfold achieve
    split
    · exact .same _
    apply sameUnless_fresh hcycles
    -- no level is left to the first: the second has none either, or may do anything
    rcases hdepth with rfl | ⟨-, hcut⟩
    · exact .same _
    · exact .cutOff (hcut _) _
  | succ remaining ih =>
    obtain ⟨left, rfl⟩ : ∃ left, remaining' = left + 1 := ⟨remaining' - 1, by omega⟩
    have hleft : left = remaining ∨ remaining ≤ left ∧ ∀ depth, cut (.depthExceeded depth) := by
      rcases hdepth with h | ⟨h, hcut⟩
      · exact .inl (by omega)
      · exact .inr ⟨by omega, hcut⟩
    unfold achieve
    split
    · exact .same _
    apply sameUnless_fresh hcycles
    dsimp only
    split
    · exact .same _
    · exact (SameUnless.foldlM (ih hleft (goal :: stack)) _ p).bind fun _ => .same _

/-- What holds of achieving a goal holds of planning. -/
theorem plan_sameUnless (initial : FactState) (goals : List String) (schemas : List Schema)
    {maxDepth maxDepth' : Nat}
    (hdepth : maxDepth' = maxDepth ∨ maxDepth ≤ maxDepth' ∧ ∀ depth, cut (.depthExceeded depth)) :
    SameUnless cut (plan initial goals schemas ⟨maxDepth, detect⟩)
      (plan initial goals schemas ⟨maxDepth', detect'⟩) :=
  (SameUnless.foldlM (achieve_sameUnless hcycles schemas hdepth []) goals _).bind fun _ => .same _

end

/-! ## Goals below themselves -/

/-- Different goals that schemas add are nested at most as deep as there are facts to add. -/
theorem length_stack_le {schemas : List Schema} {stack : List String} (hnodup : stack.Nodup)
    (hadded : ∀ goal ∈ stack, ∃ schema ∈ schemas, schema.adds goal = true) :
    stack.length ≤ (schemas.flatMap (·.add)).toFinset.card := by
  rw [← List.toFinset_card_of_nodup hnodup]
  apply Finset.card_le_card
  intro goal hgoal
  obtain ⟨schema, hschema, hadds⟩ := hadded goal (List.mem_toFinset.1 hgoal)
  rw [List.mem_toFinset, List.mem_flatMap]
  exact ⟨schema, hschema, List.contains_iff_mem.1 hadds⟩

/-- **Looking for goals below themselves is conservative, and makes the depth guard redundant.** If a
planner that looks for them does not find one, a planner that does not look for them does the same;
and if goals may be nested deeper than there are facts to add, a planner that looks for them never
nests too deep. -/
theorem goalCycles_conservative (initial : FactState) (goals : List String)
    (schemas : List Schema) (maxDepth : Nat) :
    ((∀ goal, plan initial goals schemas ⟨maxDepth, true⟩ ≠ .error (.goalCycle goal)) →
      plan initial goals schemas ⟨maxDepth, false⟩ = plan initial goals schemas ⟨maxDepth, true⟩) ∧
    ((schemas.flatMap (·.add)).toFinset.card < maxDepth →
      ∀ depth, plan initial goals schemas ⟨maxDepth, true⟩ ≠ .error (.depthExceeded depth)) := by
  constructor
  · intro hfound
    have hsame : SameUnless (fun e => ∃ goal, e = .goalCycle goal)
        (plan initial goals schemas ⟨maxDepth, true⟩)
        (plan initial goals schemas ⟨maxDepth, false⟩) :=
      plan_sameUnless (.inr ⟨rfl, fun goal => ⟨goal, rfl⟩⟩) initial goals schemas (.inl rfl)
    apply hsame.eq
    rintro e ⟨goal, rfl⟩
    exact hfound goal
  · intro hfacts depth hplan
    rcases plan_error hplan with ⟨c, hasked, hraises⟩ | ⟨p, goal, -, -, hclobbered⟩
    · cases hraises with
      | depthExceeded hspent =>
        have hlength := length_stack_le (hasked.nodup rfl) hasked.added
        have hdepth := hasked.depth_eq
        simp only at hdepth
        omega
    · cases hclobbered

/-- As deep as there are facts to add, it may be too deep. -/
example : plan ⟨[]⟩ ["egg"] [⟨"lay", ["hen"], ["egg"], []⟩, ⟨"raise", ["chick"], ["hen"], []⟩]
    ⟨2, true⟩ = .error (.depthExceeded 2) := rfl

/-- An egg needs a chicken, and a chicken an egg. -/
def eggAndChicken : List Schema :=
  [⟨"make egg", ["chicken"], ["egg"], []⟩, ⟨"make chicken", ["egg"], ["chicken"], []⟩]

/-- Two facts can be added, so three goals are not nested while an egg is looked for below itself. The
monkey's plan is found without looking. -/
theorem eggAndChicken_conservative :
    (eggAndChicken.flatMap (·.add)).toFinset.card < 3 ∧
    (∀ depth, plan ⟨[]⟩ ["egg"] eggAndChicken ⟨3, true⟩ ≠ .error (.depthExceeded depth)) ∧
    plan ⟨[]⟩ ["egg"] eggAndChicken ⟨3, false⟩ = .error (.depthExceeded 3) ∧
    plan monkey.initial monkey.goals monkey.schemas ⟨64, true⟩ = .ok monkeyPlan ∧
    plan monkey.initial monkey.goals monkey.schemas ⟨64, false⟩ = .ok monkeyPlan := by
  have hfacts : (eggAndChicken.flatMap (·.add)).toFinset.card < 3 := by decide
  have hmonkey : plan monkey.initial monkey.goals monkey.schemas ⟨64, true⟩ = .ok monkeyPlan := rfl
  obtain ⟨-, hdepth⟩ := goalCycles_conservative ⟨[]⟩ ["egg"] eggAndChicken 3
  obtain ⟨hsame, -⟩ := goalCycles_conservative monkey.initial monkey.goals monkey.schemas 64
  refine ⟨hfacts, hdepth hfacts, rfl, hmonkey, ?_⟩
  rw [hsame fun goal => by rw [hmonkey]; exact nofun]
  exact hmonkey

end ProblemSolving
