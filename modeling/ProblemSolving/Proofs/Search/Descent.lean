import ProblemSolving.Proofs.Search.Deepening
import ProblemSolving.Proofs.StateSpace.Lineage

/-!
# What a depth-limited search leaves in its tree

* `Problem.GoalWithin` : a goal can be reached by a number of actions.
* `Leaves` : a search below a node finds a goal, or gives the tree back and there is none.
* `descend_leaves` : so it is for every subtree.
* `pass_ends`, `deepen_ends` : so it is for passes with growing limits.
-/

namespace ProblemSolving

variable {σ α κ : Type}

/-! ## Goals within a number of actions -/

/-- At most so many legal actions lead from the state to a goal. -/
def Problem.GoalWithin (P : Problem σ α κ) (n : Nat) (s : σ) : Prop :=
  ∃ as t, P.Path s as t ∧ as.length ≤ n ∧ P.isGoal t = true

namespace Problem

variable {P : Problem σ α κ} {n : Nat} {s : σ}

theorem goalWithin_of_isGoal (h : P.isGoal s = true) : P.GoalWithin n s :=
  ⟨[], s, .nil s, Nat.zero_le n, h⟩

theorem goalWithin_zero : P.GoalWithin 0 s ↔ P.isGoal s = true := by
  refine ⟨?_, goalWithin_of_isGoal⟩
  rintro ⟨as, t, hp, hlen, ht⟩
  cases hp with
  | nil => exact ht
  | cons => simp at hlen

theorem goalWithin_succ :
    P.GoalWithin (n + 1) s ↔
      P.isGoal s = true ∨ ∃ a ∈ P.actions s, P.GoalWithin n (P.result s a) := by
  constructor
  · rintro ⟨as, t, hp, hlen, ht⟩
    cases hp with
    | nil => exact .inl ht
    | @cons _ _ a as legal later => exact .inr ⟨a, legal, as, t, later, by simpa using hlen, ht⟩
  · rintro (hs | ⟨a, ha, as, t, hp, hlen, ht⟩)
    · exact goalWithin_of_isGoal hs
    · exact ⟨a :: as, t, .cons ha hp, by simpa using hlen, ht⟩

end Problem

/-! ## Subtrees -/

/-- Neither a goal was found, nor was the search stopped. -/
def Verdict.Fruitless : Verdict κ → Prop
  | .cutoff | .failure => True
  | _ => False

variable [Scalar κ] {P : Problem σ α κ} {bound : Nat} {t t' : SearchTree σ α κ}
  {here : Placed σ α κ} {kids : List (Placed σ α κ)} {r : Run σ α κ × Verdict κ}

/-- What a search leaves behind that was given a tree: the tree as it was, if there is no goal to be
found, or a tree with a goal in it. -/
structure Leaves (P : Problem σ α κ) (bound : Nat) (t : SearchTree σ α κ) (within : Prop)
    (r : Run σ α κ × Verdict κ) : Prop where
  restored : r.2.Fruitless → r.1.tree = t
  absent : r.2.Fruitless → ¬ within
  found : ∀ id, r.2 = .found id → r.1.tree.Reaches P bound id
  stopped : ∀ termination, r.2 = .stopped termination → termination.GivenUp

theorem Leaves.of_iff {within within' : Prop} (h : Leaves P bound t within r)
    (hiff : within ↔ within') : Leaves P bound t within' r := by
  rwa [← propext hiff]

theorem leaves_found {within : Prop} {run : Run σ α κ} {id : Nat}
    (h : run.tree.Reaches P bound id) : Leaves P bound t within (run, .found id) := by
  refine ⟨False.elim, False.elim, ?_, by simp⟩
  intro id' hid
  cases hid
  exact h

theorem leaves_stopped {within : Prop} {run : Run σ α κ} {termination : Termination κ}
    (h : termination.GivenUp) : Leaves P bound t within (run, .stopped termination) := by
  refine ⟨False.elim, False.elim, by simp, ?_⟩
  intro e he
  cases he
  exact h

/-- Subtrees searched one after the other: each one is given the tree as it was. -/
theorem visitEach_leaves {within : Placed σ α κ → Prop}
    {visit : Run σ α κ → Placed σ α κ → Run σ α κ × Verdict κ}
    (hvisit : ∀ run : Run σ α κ, run.tree = t → ∀ kid ∈ kids,
      Leaves P bound t (within kid) (visit run kid))
    (run : Run σ α κ) (hrun : run.tree = t) (cut : Bool) :
    Leaves P bound t (∃ kid ∈ kids, within kid) (visitEach visit run kids cut) := by
  induction kids generalizing run cut with
  | nil => cases cut <;> exact ⟨fun _ => hrun, by simp, by simp [visitEach], by simp [visitEach]⟩
  | cons kid rest ih =>
    have hkid := hvisit run hrun kid (List.mem_cons_self ..)
    have hrest := ih fun run hrun n hn => hvisit run hrun n (List.mem_cons_of_mem _ hn)
    -- a fruitless subtree leaves the question to the rest
    have hlater : ∀ run' v cut', visit run kid = (run', v) → v.Fruitless →
        Leaves P bound t (∃ n ∈ kid :: rest, within n) (visitEach visit run' rest cut') := by
      intro run' v cut' hr hv
      rw [hr] at hkid
      have hnot : ¬ within kid := hkid.absent hv
      refine (hrest run' (hkid.restored hv) cut').of_iff ?_
      simp [hnot]
    unfold visitEach
    split
    next run' hcutoff => exact hlater run' _ true hcutoff trivial
    next run' hfailure => exact hlater run' _ cut hfailure trivial
    next hcutoff hfailure =>
      generalize visit run kid = r at hkid hcutoff hfailure ⊢
      obtain ⟨run', v⟩ := r
      cases v with
      | found id => exact leaves_found (hkid.found id rfl)
      | stopped termination => exact leaves_stopped (hkid.stopped termination rfl)
      | cutoff => exact (hcutoff run' rfl).elim
      | failure => exact (hfailure run' rfl).elim

/-- When the children of a node are dropped, from the first of them on, the tree is as it was before
they were made. -/
theorem Leaves.dropFailed {within : Prop} (h : Leaves P bound t' within r)
    (hexpands : SearchTree.Expands P t here t' kids) :
    Leaves P bound t within (Run.dropFailed kids r) := by
  obtain ⟨run, v⟩ := r
  have hdropped : v.Fruitless → (Run.dropFailed kids (run, v)).1.tree = t := by
    intro hv
    have hrun : run.tree = t.pushAll (SearchTree.children P here) :=
      (h.restored hv).trans hexpands.tree
    have hkids := hexpands.kids.symm
    cases kids with
    | nil => exact hrun.trans (SearchTree.pushAll_of_numbered_eq_nil hkids)
    | cons first rest =>
      have htruncate : run.tree.truncate first.id = t := by
        rw [hrun]
        exact SearchTree.truncate_of_numbered_eq_cons hkids
      cases v <;> first | exact htruncate | exact hv.elim
  have hverdict : (Run.dropFailed kids (run, v)).2 = v := verdict_dropFailed kids (run, v)
  have hkept : ¬ v.Fruitless → Run.dropFailed kids (run, v) = (run, v) := by
    intro hv
    cases v <;> first | exact absurd trivial hv | (cases kids <;> rfl)
  constructor
  case restored => rw [hverdict]; exact hdropped
  case absent => rw [hverdict]; exact h.absent
  case found =>
    intro id hid
    rw [hverdict] at hid
    rw [hkept (by simp [show v = .found id from hid, Verdict.Fruitless])]
    exact h.found id hid
  case stopped => rw [hverdict]; exact h.stopped

/-- A search below a node finds a goal there, or gives the tree back and there is none as near. -/
theorem descend_leaves (policy : TimedPolicy) (remaining : Nat) (run : Run σ α κ) (here : Placed σ α κ)
    (hgrown : run.tree.Grown P) (hfair : run.tree.Fair) (hheld : run.tree.Holds here) :
    Leaves P (here.node.depth + remaining) run.tree (P.GoalWithin remaining here.node.state)
      (descend P policy remaining run here) := by
  induction remaining generalizing run here with
  | zero =>
    unfold descend
    split
    next hgoal => exact leaves_found ⟨hgrown, hfair, here.node, hheld, hgoal, Nat.le_add_right ..⟩
    next hgoal => exact ⟨fun _ => rfl, fun _ => by rwa [Problem.goalWithin_zero], by simp, by simp⟩
  | succ remaining ih =>
    unfold descend
    split
    next hgoal => exact leaves_found ⟨hgrown, hfair, here.node, hheld, hgoal, Nat.le_add_right ..⟩
    next hgoal =>
    dsimp only
    split
    next hstop => exact leaves_stopped (givenUp_of_stop? hstop)
    split
    next => exact leaves_stopped trivial
    next expanded kids hexpand =>
    obtain ⟨hexpands, -⟩ := Run.expand_ok hexpand
    have hvisit : ∀ run' : Run σ α κ, run'.tree = expanded.tree → ∀ kid ∈ kids,
        Leaves P (here.node.depth + (remaining + 1)) expanded.tree
          (P.GoalWithin remaining kid.node.state) (descend P policy remaining run' kid) := by
      intro run' hrun kid hkid
      have hbelow := ih run' kid (hrun ▸ hgrown.expands hheld hexpands)
        (hrun ▸ hfair.expands hheld hexpands) (hrun ▸ hexpands.holds kid hkid)
      rwa [hexpands.depth_eq hkid, Nat.add_assoc, Nat.add_comm 1, hrun] at hbelow
    have hkids := visitEach_leaves hvisit (expanded.noteHighWater expanded.tree.size) rfl false
    refine (hkids.dropFailed hexpands).of_iff ?_
    rw [Problem.goalWithin_succ, hexpands.exists_state_iff (p := P.GoalWithin remaining),
      or_iff_right hgoal]

/-! ## Passes -/

variable (P) (policy : TimedPolicy)

theorem pass_ends (limit : Nat) (run : Run σ α κ) :
    (∀ id, (run.pass P policy limit).2 = .goalReached id →
      (run.pass P policy limit).1.tree.Reaches P limit id) ∧
    ((run.pass P policy limit).2 = .cutoff → ¬ P.GoalWithin limit P.initial) ∧
    (run.pass P policy limit).2 ≠ .depthBudgetExceeded := by
  have hleaves := descend_leaves (P := P) policy limit
    { run with tree := (SearchTree.empty.addRoot P.initial).1 }
    (SearchTree.empty.addRoot P.initial).2 SearchTree.grown_root SearchTree.fair_root rfl
  have hdepth : (SearchTree.empty.addRoot P.initial : _ × Placed σ α κ).2.node.depth = 0 := rfl
  unfold Run.pass
  dsimp only
  rw [hdepth, Nat.zero_add] at hleaves
  split
  next hfound =>
    rw [hfound] at hleaves
    refine ⟨?_, by simp, by simp⟩
    intro id hid
    cases hid
    exact hleaves.found _ rfl
  next hcutoff =>
    rw [hcutoff] at hleaves
    exact ⟨by simp, fun _ => hleaves.absent trivial, by simp⟩
  next => exact ⟨by simp, by simp, by simp⟩
  next hstopped =>
    rw [hstopped] at hleaves
    obtain ⟨-, hcutoff, hdeep, hgoal⟩ := (hleaves.stopped _ rfl).ne
    exact ⟨fun id hid => absurd hid (hgoal id), fun h => absurd h hcutoff, hdeep⟩

/-- Passes with the limits from `limit` on: a goal is found by the first one that is not cut off. -/
theorem deepen_ends (passes limit : Nat) (run : Run σ α κ) :
    (∀ id, (run.deepen P policy passes limit).2 = .goalReached id →
      ∃ depth, depth < limit + passes ∧
        (run.deepen P policy passes limit).1.tree.Reaches P depth id ∧
        ∀ n, limit ≤ n → n < depth → ¬ P.GoalWithin n P.initial) ∧
    ((run.deepen P policy passes limit).2 = .depthBudgetExceeded →
      ∀ n, limit ≤ n → n < limit + passes → ¬ P.GoalWithin n P.initial) := by
  induction passes generalizing limit run with
  | zero => exact ⟨by simp [Run.deepen], fun _ n hlow hhigh => by omega⟩
  | succ passes ih =>
    obtain ⟨hfound, hcutoff, hdeep⟩ := pass_ends P policy limit run
    unfold Run.deepen
    split
    next run' hpass =>
      rw [hpass] at hcutoff
      have hnone := hcutoff rfl
      obtain ⟨hlater, hlast⟩ := ih (limit + 1) run'
      -- the limit itself is settled by this pass
      have hfrom : ∀ {n}, limit ≤ n → (limit + 1 ≤ n → ¬ P.GoalWithin n P.initial) →
          ¬ P.GoalWithin n P.initial := by
        intro n hlow hnext
        rcases Nat.eq_or_lt_of_le hlow with rfl | hlt
        · exact hnone
        · exact hnext hlt
      refine ⟨fun id hid => ?_, fun hend n hlow hhigh => ?_⟩
      · obtain ⟨depth, hdepth, hreaches, hbefore⟩ := hlater id hid
        refine ⟨depth, by omega, hreaches, fun n hlow hhigh => ?_⟩
        exact hfrom hlow fun hnext => hbefore n hnext hhigh
      · exact hfrom hlow fun hnext => hlast hend n hnext (by omega)
    next =>
      refine ⟨fun id hid => ?_, fun hend => absurd hend hdeep⟩
      exact ⟨limit, by omega, hfound id hid, fun n hlow hhigh => by omega⟩

end ProblemSolving
