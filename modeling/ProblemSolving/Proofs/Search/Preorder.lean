import Mathlib
import ProblemSolving.Proofs.Search.Budgets
import ProblemSolving.Proofs.Search.Descent

/-!
# What a depth-limited search finds

* `Problem.Spells` : the places of actions, each among those of the state that it is applied to.
* `Problem.FirstWithin` : the actions that lead to a goal and come first in pre-order, where a list
  of actions comes before those that go on from it.
* `Problem.GoesOn` : some number of actions can be applied in a row.
* `Tells`, `descend_tells` : the verdict on a node tells which actions below it come first, or
  whether any were cut off.
* `depthLimitedSearch_exact` : so the search reports exactly what lies within its limit.
-/

namespace ProblemSolving

variable {σ α κ : Type}

namespace Problem

/-! ## Pre-order -/

/-- The actions lead from the first state to the second, each one standing at its place among the
actions of the state that it is applied to. -/
inductive Spells (P : Problem σ α κ) : σ → (places : List Nat) → List α → σ → Prop
  | nil (s : σ) : Spells P s [] [] s
  | cons {s t : σ} {i : Nat} {a : α} {places : List Nat} {actions : List α}
      (here : (P.actions s)[i]? = some a) (rest : Spells P (P.result s a) places actions t) :
      Spells P s (i :: places) (a :: actions) t

/-- The actions at these places lead to a goal, are no more than `n`, and come first among all that
do: at the first place that differs, theirs is the earlier one, and a list of actions comes before
those that go on from it. -/
structure FirstWithin (P : Problem σ α κ) (n : Nat) (s : σ) (places : List Nat)
    (actions : List α) : Prop where
  spells : ∃ t, P.Spells s places actions t ∧ P.isGoal t = true
  within : actions.length ≤ n
  first : ∀ places' actions' t, P.Spells s places' actions' t → P.isGoal t = true →
    actions'.length ≤ n → places = places' ∨ List.Lex (· < ·) places places'

variable {P : Problem σ α κ} {n : Nat} {s t : σ} {a : α} {places : List Nat} {actions : List α}

theorem path_iff_spells : P.Path s actions t ↔ ∃ places, P.Spells s places actions t := by
  constructor
  · intro h
    induction h with
    | nil s => exact ⟨[], .nil s⟩
    | cons legal _ ih =>
      obtain ⟨i, hi⟩ := List.mem_iff_getElem?.1 legal
      obtain ⟨places, hplaces⟩ := ih
      exact ⟨i :: places, .cons hi hplaces⟩
  · rintro ⟨places, h⟩
    induction h with
    | nil s => exact .nil s
    | cons here _ ih => exact .cons (List.mem_of_getElem? here) ih

theorem Spells.goalWithin (h : P.Spells s places actions t) (ht : P.isGoal t = true)
    (hlen : actions.length ≤ n) : P.GoalWithin n s :=
  ⟨actions, t, path_iff_spells.2 ⟨places, h⟩, hlen, ht⟩

theorem firstWithin_of_isGoal (h : P.isGoal s = true) : P.FirstWithin n s [] [] where
  spells := ⟨s, .nil s, h⟩
  within := Nat.zero_le n
  first places' _ _ _ _ _ := by
    cases places' with
    | nil => exact .inl rfl
    | cons i places' => exact .inr .nil

/-- If no goal is as near behind the actions before this one, what comes first behind it comes first
from here. -/
theorem FirstWithin.cons {before after : List α}
    (h : P.FirstWithin n (P.result s a) places actions) (hgoal : ¬ P.isGoal s = true)
    (hactions : P.actions s = before ++ a :: after)
    (hbefore : ∀ b ∈ before, ¬ P.GoalWithin n (P.result s b)) :
    P.FirstWithin (n + 1) s (before.length :: places) (a :: actions) := by
  have hplace : (P.actions s)[before.length]? = some a := by
    rw [hactions, List.getElem?_append_right (Nat.le_refl _), Nat.sub_self]
    rfl
  obtain ⟨t, hspells, ht⟩ := h.spells
  refine ⟨⟨t, .cons hplace hspells, ht⟩, Nat.succ_le_succ h.within, ?_⟩
  intro places' actions' t' hspells' ht' hlen
  cases hspells' with
  | nil => exact absurd ht' hgoal
  | @cons _ _ i b places' actions' here rest =>
    have hlen' : actions'.length ≤ n := Nat.le_of_succ_le_succ hlen
    rcases Nat.lt_trichotomy i before.length with hlt | rfl | hgt
    · rw [hactions, List.getElem?_append_left hlt] at here
      exact absurd (rest.goalWithin ht' hlen') (hbefore b (List.mem_of_getElem? here))
    · cases Option.some.inj (here.symm.trans hplace)
      rcases h.first places' actions' t' rest ht' hlen' with rfl | hlex
      · exact .inl rfl
      · exact .inr (.cons hlex)
    · exact .inr (.rel hgt)

/-! ## Lists of actions that go on -/

/-- So many legal actions can be applied in a row. -/
def GoesOn (P : Problem σ α κ) (n : Nat) (s : σ) : Prop :=
  ∃ actions t, P.Path s actions t ∧ actions.length = n

theorem goesOn_zero : P.GoesOn 0 s := ⟨[], s, .nil s, rfl⟩

theorem goesOn_succ : P.GoesOn (n + 1) s ↔ ∃ a ∈ P.actions s, P.GoesOn n (P.result s a) := by
  constructor
  · rintro ⟨actions, t, hp, hlen⟩
    cases hp with
    | nil => simp at hlen
    | @cons _ _ a actions legal later =>
      exact ⟨a, legal, actions, t, later, Nat.succ.inj hlen⟩
  · rintro ⟨a, ha, actions, t, hp, rfl⟩
    exact ⟨a :: actions, t, .cons ha hp, rfl⟩

end Problem

/-! ## Verdicts -/

variable {P : Problem σ α κ} {t t' : SearchTree σ α κ} {n : Nat} {here : Placed σ α κ}
  {kids : List (Placed σ α κ)} {r : Run σ α κ × Verdict κ}

/-- What the verdict on a node tells: a cut-off that some actions go on for the whole limit, a
failure that none do, and a goal that it is the first one within the limit. -/
structure Tells (P : Problem σ α κ) (t : SearchTree σ α κ) (n : Nat) (here : Placed σ α κ)
    (r : Run σ α κ × Verdict κ) : Prop where
  cutoff : r.2 = .cutoff → P.GoesOn n here.node.state
  failure : r.2 = .failure → ¬ P.GoesOn n here.node.state
  keeps : ∀ id, r.2 = .found id → t.Keeps r.1.tree
  first : ∀ id, r.2 = .found id → ∃ places actions,
    P.FirstWithin n here.node.state places actions ∧
      r.1.tree.solution id = r.1.tree.solution here.id ++ actions

/-- What the verdict on some children tells, visited in turn after a part of which it is known
whether it was cut off: the first goal lies below a child before which there is none. -/
structure TellsOfAll (P : Problem σ α κ) (t : SearchTree σ α κ) (n : Nat)
    (kids : List (Placed σ α κ)) (cut : Bool) (r : Run σ α κ × Verdict κ) : Prop where
  cutoff : r.2 = .cutoff → cut = true ∨ ∃ kid ∈ kids, P.GoesOn n kid.node.state
  failure : r.2 = .failure → cut = false ∧ ∀ kid ∈ kids, ¬ P.GoesOn n kid.node.state
  keeps : ∀ id, r.2 = .found id → t.Keeps r.1.tree
  first : ∀ id, r.2 = .found id → ∃ before kid after, kids = before ++ kid :: after ∧
    (∀ m ∈ before, ¬ P.GoalWithin n m.node.state) ∧
      ∃ places actions, P.FirstWithin n kid.node.state places actions ∧
        r.1.tree.solution id = r.1.tree.solution kid.id ++ actions

theorem tells_goal {run : Run σ α κ} (hgoal : P.isGoal here.node.state = true) :
    Tells P run.tree n here (run, .found here.id) where
  cutoff := nofun
  failure := nofun
  keeps _ _ := .refl _
  first id hid := by
    cases hid
    exact ⟨[], [], Problem.firstWithin_of_isGoal hgoal, (List.append_nil _).symm⟩

theorem tells_stopped {run : Run σ α κ} (termination : Termination κ) :
    Tells P t n here (run, .stopped termination) :=
  ⟨nofun, nofun, nofun, nofun⟩

theorem tells_cutoff {run : Run σ α κ} : Tells P t 0 here (run, .cutoff) :=
  ⟨fun _ => Problem.goesOn_zero, nofun, nofun, nofun⟩

theorem TellsOfAll.cons {kid : Placed σ α κ} {rest : List (Placed σ α κ)} {cut cut' : Bool}
    (h : TellsOfAll P t n rest cut' r) (habsent : ¬ P.GoalWithin n kid.node.state)
    (hcut : cut' = true ↔ cut = true ∨ P.GoesOn n kid.node.state) :
    TellsOfAll P t n (kid :: rest) cut r where
  cutoff hr := by
    rcases h.cutoff hr with hcut' | ⟨m, hm, hgoes⟩
    · exact (hcut.1 hcut').imp_right fun hgoes => ⟨kid, List.mem_cons_self .., hgoes⟩
    · exact .inr ⟨m, List.mem_cons_of_mem _ hm, hgoes⟩
  failure hr := by
    obtain ⟨hcut', hrest⟩ := h.failure hr
    have hnone : ¬ (cut = true ∨ P.GoesOn n kid.node.state) := by simp [← hcut, hcut']
    refine ⟨eq_false_of_ne_true fun hc => hnone (.inl hc), fun m hm => ?_⟩
    rcases List.mem_cons.1 hm with rfl | hm
    · exact fun hgoes => hnone (.inr hgoes)
    · exact hrest m hm
  keeps := h.keeps
  first id hid := by
    obtain ⟨before, first, after, rfl, hbefore, hfirst⟩ := h.first id hid
    refine ⟨kid :: before, first, after, rfl, ?_, hfirst⟩
    intro m hm
    rcases List.mem_cons.1 hm with rfl | hm
    · exact habsent
    · exact hbefore m hm

theorem Tells.all {kid : Placed σ α κ} {rest : List (Placed σ α κ)} {cut : Bool}
    (h : Tells P t n kid r) (hdecided : ¬ r.2.Fruitless) : TellsOfAll P t n (kid :: rest) cut r where
  cutoff hr := absurd (show r.2.Fruitless by rw [hr]; trivial) hdecided
  failure hr := absurd (show r.2.Fruitless by rw [hr]; trivial) hdecided
  keeps := h.keeps
  first id hid := ⟨[], kid, rest, rfl, by simp, h.first id hid⟩

variable [Scalar κ]

/-- Children visited one after the other: each one is given the tree as it was. -/
theorem visitEach_tells {bound : Nat}
    {visit : Run σ α κ → Placed σ α κ → Run σ α κ × Verdict κ}
    (hvisit : ∀ run : Run σ α κ, run.tree = t → ∀ kid ∈ kids,
      Leaves P bound t (P.GoalWithin n kid.node.state) (visit run kid) ∧
        Tells P t n kid (visit run kid))
    (run : Run σ α κ) (hrun : run.tree = t) (cut : Bool) :
    TellsOfAll P t n kids cut (visitEach visit run kids cut) := by
  induction kids generalizing run cut with
  | nil =>
    cases cut with
    | true => exact ⟨fun _ => .inl rfl, nofun, nofun, nofun⟩
    | false => exact ⟨nofun, fun _ => ⟨rfl, by simp⟩, nofun, nofun⟩
  | cons kid rest ih =>
    obtain ⟨hleaves, htells⟩ := hvisit run hrun kid (List.mem_cons_self ..)
    have hrest := ih fun run hrun m hm => hvisit run hrun m (List.mem_cons_of_mem _ hm)
    unfold visitEach
    split
    next run' hcutoff =>
      rw [hcutoff] at hleaves htells
      have hgoes : P.GoesOn n kid.node.state := htells.cutoff rfl
      exact (hrest run' (hleaves.restored trivial) true).cons (hleaves.absent trivial)
        (by simp [hgoes])
    next run' hfailure =>
      rw [hfailure] at hleaves htells
      have hstops : ¬ P.GoesOn n kid.node.state := htells.failure rfl
      exact (hrest run' (hleaves.restored trivial) cut).cons (hleaves.absent trivial)
        (by simp [hstops])
    next hcutoff hfailure =>
      apply htells.all
      generalize visit run kid = r at hcutoff hfailure
      obtain ⟨run', v⟩ := r
      cases v with
      | cutoff => exact (hcutoff run' rfl).elim
      | failure => exact (hfailure run' rfl).elim
      | found => exact id
      | stopped => exact id

/-! ## Descents -/

theorem SearchTree.Expands.exists_split {before after : List (Placed σ α κ)} {kid : Placed σ α κ}
    (h : Expands P t here t' (before ++ kid :: after)) :
    ∃ acts a later, P.actions here.node.state = acts ++ a :: later ∧
      (∀ b ∈ acts, ∃ m ∈ before, m.node = child P here b) ∧ kid.node = child P here a := by
  have hnodes := h.map_node
  rw [List.map_append, List.map_cons, eq_comm, List.map_eq_append_iff] at hnodes
  obtain ⟨acts, others, hactions, hacts, hothers⟩ := hnodes
  obtain ⟨a, later, rfl, hnode, -⟩ := List.map_eq_cons_iff.1 hothers
  refine ⟨acts, a, later, hactions, ?_, hnode.symm⟩
  intro b hb
  have hmem : child P here b ∈ before.map (·.node) := hacts ▸ List.mem_map_of_mem hb
  exact List.mem_map.1 hmem

/-- What was found below a child is found below its parent, by one action more. -/
theorem TellsOfAll.parent (h : TellsOfAll P t' n kids false r)
    (hexpands : SearchTree.Expands P t here t' kids) (hheld : t.Holds here)
    (hgoal : ¬ P.isGoal here.node.state = true) :
    Tells P t (n + 1) here (Run.dropFailed kids r) := by
  have hverdict : (Run.dropFailed kids r).2 = r.2 := verdict_dropFailed kids r
  have hkept : ∀ id, r.2 = .found id → Run.dropFailed kids r = r := by
    intro id hid
    obtain ⟨run, v⟩ := r
    cases hid
    cases kids <;> rfl
  constructor
  case cutoff =>
    intro hr
    rw [hverdict] at hr
    rw [Problem.goesOn_succ, ← hexpands.exists_state_iff (p := P.GoesOn n)]
    exact (h.cutoff hr).resolve_left (by simp)
  case failure =>
    intro hr
    rw [hverdict] at hr
    rw [Problem.goesOn_succ, ← hexpands.exists_state_iff (p := P.GoesOn n)]
    rintro ⟨kid, hkid, hgoes⟩
    exact (h.failure hr).2 kid hkid hgoes
  case keeps =>
    intro id hid
    rw [hverdict] at hid
    rw [hkept id hid]
    exact hexpands.keeps.trans (h.keeps id hid)
  case first =>
    intro id hid
    rw [hverdict] at hid
    rw [hkept id hid]
    obtain ⟨before, kid, after, rfl, hbefore, places, actions, hfirst, hsolution⟩ := h.first id hid
    obtain ⟨acts, a, later, hactions, hacts, hnode⟩ := hexpands.exists_split
    have hkid : kid ∈ before ++ kid :: after := by simp
    have hstands : r.1.tree.get? kid.id = some (SearchTree.child P here a) := by
      rw [← hnode]
      exact h.keeps id hid _ _ (hexpands.holds kid hkid)
    have hlt : here.id < kid.id := (SearchTree.get?_lt hheld).trans_le (hexpands.size_le_id hkid)
    have hway : r.1.tree.solution kid.id = r.1.tree.solution here.id ++ [a] :=
      SearchTree.solution_child hstands rfl hlt
    refine ⟨acts.length :: places, a :: actions, ?_, ?_⟩
    · have hstate : kid.node.state = P.result here.node.state a := congrArg Node.state hnode
      rw [hstate] at hfirst
      apply hfirst.cons hgoal hactions
      intro b hb
      obtain ⟨m, hm, hchild⟩ := hacts b hb
      have habsent := hbefore m hm
      rwa [hchild] at habsent
    · rw [hsolution, hway, List.append_assoc]
      rfl

/-- The verdict on a node tells what lies below it. -/
theorem descend_tells (policy : TimedPolicy) (remaining : Nat) (run : Run σ α κ) (here : Placed σ α κ)
    (hgrown : run.tree.Grown P) (hfair : run.tree.Fair) (hheld : run.tree.Holds here) :
    Tells P run.tree remaining here (descend P policy remaining run here) := by
  induction remaining generalizing run here with
  | zero =>
    unfold descend
    split
    next hgoal => exact tells_goal hgoal
    next => exact tells_cutoff
  | succ remaining ih =>
    unfold descend
    split
    next hgoal => exact tells_goal hgoal
    next hgoal =>
    dsimp only
    split
    next => exact tells_stopped _
    split
    next => exact tells_stopped _
    next expanded kids hexpand =>
    obtain ⟨hexpands, -⟩ := Run.expand_ok hexpand
    have hvisit : ∀ run' : Run σ α κ, run'.tree = expanded.tree → ∀ kid ∈ kids,
        Leaves P ((here.node.depth + 1) + remaining) expanded.tree
            (P.GoalWithin remaining kid.node.state) (descend P policy remaining run' kid) ∧
          Tells P expanded.tree remaining kid (descend P policy remaining run' kid) := by
      intro run' hrun kid hkid
      have hgrown' : run'.tree.Grown P := hrun ▸ hgrown.expands hheld hexpands
      have hfair' : run'.tree.Fair := hrun ▸ hfair.expands hheld hexpands
      have hheld' : run'.tree.Holds kid := hrun ▸ hexpands.holds kid hkid
      have hleaves := descend_leaves policy remaining run' kid hgrown' hfair' hheld'
      have htells := ih run' kid hgrown' hfair' hheld'
      rw [hexpands.depth_eq hkid, hrun] at hleaves
      rw [hrun] at htells
      exact ⟨hleaves, htells⟩
    have hkids := visitEach_tells hvisit (expanded.noteHighWater expanded.tree.size) rfl false
    exact hkids.parent hexpands hheld hgoal

/-! ## The search -/

/-- What the end of a pass tells, unless it is given up. -/
structure Termination.Exact (P : Problem σ α κ) (limit : Nat) (t : SearchTree σ α κ)
    (termination : Termination κ) : Prop where
  cutoff : termination = .cutoff → ¬ P.GoalWithin limit P.initial ∧ P.GoesOn limit P.initial
  exhausted : termination = .frontierExhausted →
    ¬ P.GoalWithin limit P.initial ∧ ¬ P.GoesOn limit P.initial
  first : ∀ id, termination = .goalReached id → ∃ places actions,
    P.FirstWithin limit P.initial places actions ∧ t.solution id = actions
  bounded : termination ≠ .depthBudgetExceeded

theorem pass_exact (P : Problem σ α κ) (policy : TimedPolicy) (limit : Nat) (run : Run σ α κ) :
    (run.pass P policy limit).2.Exact P limit (run.pass P policy limit).1.tree := by
  let root := (SearchTree.empty : SearchTree σ α κ).addRoot P.initial
  have hleaves := descend_leaves (P := P) policy limit { run with tree := root.1 } root.2
    SearchTree.grown_root SearchTree.fair_root rfl
  have htells := descend_tells (P := P) policy limit { run with tree := root.1 } root.2
    SearchTree.grown_root SearchTree.fair_root rfl
  rw [pass_eq]
  show (descend P policy limit { run with tree := root.1 } root.2).2.outcome.Exact P limit
    (descend P policy limit { run with tree := root.1 } root.2).1.tree
  generalize descend P policy limit { run with tree := root.1 } root.2 = r at hleaves htells
  obtain ⟨run', v⟩ := r
  cases v with
  | found id =>
    refine ⟨nofun, nofun, ?_, nofun⟩
    intro id' hid
    cases hid
    obtain ⟨places, actions, hfirst, hsolution⟩ := htells.first id rfl
    have hroot : run'.tree.solution root.2.id = [] :=
      SearchTree.solution_root (htells.keeps id rfl _ _ rfl) rfl
    rw [hroot, List.nil_append] at hsolution
    exact ⟨places, actions, hfirst, hsolution⟩
  | cutoff => exact ⟨fun _ => ⟨hleaves.absent trivial, htells.cutoff rfl⟩, nofun, nofun, nofun⟩
  | failure => exact ⟨nofun, fun _ => ⟨hleaves.absent trivial, htells.failure rfl⟩, nofun, nofun⟩
  | stopped termination =>
    obtain ⟨hexhausted, hcutoff, hdeep, hgoal⟩ := (hleaves.stopped termination rfl).ne
    exact ⟨fun h => absurd h hcutoff, fun h => absurd h hexhausted,
      fun id h => absurd h (hgoal id), hdeep⟩

/-- **Depth-limited search reports exactly what lies within its limit.** If it is not given up for a
budget or a violation, it reaches a goal just if one lies within the limit, and then it reports the
first way to one in pre-order; it is cut off just if there is none, and some actions go on for the
whole limit; and it is exhausted otherwise. -/
theorem depthLimitedSearch_exact (P : Problem σ α κ) (limit : Nat) (policy : TimedPolicy)
    (h : ¬ (depthLimitedSearch P limit policy).termination.GivenUp) :
    let r := depthLimitedSearch P limit policy
    (r.isGoalReached = true ↔ P.GoalWithin limit P.initial) ∧
    (r.isGoalReached = true → ∃ places actions, P.FirstWithin limit P.initial places actions ∧
      r.solution? = some actions) ∧
    (r.termination = .cutoff ↔ ¬ P.GoalWithin limit P.initial ∧ P.GoesOn limit P.initial) ∧
    (r.termination = .frontierExhausted ↔
      ¬ P.GoalWithin limit P.initial ∧ ¬ P.GoesOn limit P.initial) := by
  intro r
  have hexact : r.termination.Exact P limit r.tree :=
    pass_exact P policy limit (.empty policy)
  have hgiven : ¬ r.termination.GivenUp := h
  simp only [Result.isGoalReached_iff, Result.solution?_eq_some]
  cases hr : r.termination with
  | goalReached id =>
    obtain ⟨places, actions, hfirst, hsolution⟩ := hexact.first id hr
    obtain ⟨t, hspells, ht⟩ := hfirst.spells
    have hwithin : P.GoalWithin limit P.initial := hspells.goalWithin ht hfirst.within
    refine ⟨by simp [hwithin], fun _ => ⟨places, actions, hfirst, id, rfl, hsolution⟩, ?_, ?_⟩
    · simp [hwithin]
    · simp [hwithin]
  | cutoff =>
    obtain ⟨habsent, hgoes⟩ := hexact.cutoff hr
    refine ⟨by simp [habsent], by simp, by simp [habsent, hgoes], by simp [hgoes]⟩
  | frontierExhausted =>
    obtain ⟨habsent, hstops⟩ := hexact.exhausted hr
    refine ⟨by simp [habsent], by simp, by simp [hstops], by simp [habsent, hstops]⟩
  | depthBudgetExceeded => exact absurd hr hexact.bounded
  | expansionBudgetExceeded =>
    exact absurd (show r.termination.GivenUp by rw [hr]; trivial) hgiven
  | timeBudgetExceeded =>
    exact absurd (show r.termination.GivenUp by rw [hr]; trivial) hgiven
  | contractViolation violation =>
    exact absurd (show r.termination.GivenUp by rw [hr]; trivial) hgiven

/-- Up the stairs within three actions, one step at a time comes before every other way; within one
action there is no way, but there are more stairs. -/
theorem stairs_exact :
    (¬ (depthLimitedSearch stairs 3 {}).termination.GivenUp ∧
      ∃ places, stairs.FirstWithin 3 0 places [1, 1, 1]) ∧
    ¬ (depthLimitedSearch stairs 1 {}).termination.GivenUp ∧
      ¬ stairs.GoalWithin 1 0 ∧ stairs.GoesOn 1 0 := by
  have hthree : (depthLimitedSearch stairs 3 {}).termination = .goalReached 5 := by cbv
  have hone : (depthLimitedSearch stairs 1 {}).termination = .cutoff := by cbv
  have hfound : ¬ (depthLimitedSearch stairs 3 {}).termination.GivenUp := by
    rw [hthree]
    exact id
  have hcut : ¬ (depthLimitedSearch stairs 1 {}).termination.GivenUp := by
    rw [hone]
    exact id
  obtain ⟨-, hfirst, -, -⟩ := depthLimitedSearch_exact stairs 3 {} hfound
  obtain ⟨-, -, hcutoff, -⟩ := depthLimitedSearch_exact stairs 1 {} hcut
  obtain ⟨places, actions, hplaces, hsolution⟩ :=
    hfirst (Result.isGoalReached_iff.2 ⟨5, hthree⟩)
  have hactions : (depthLimitedSearch stairs 3 {}).solution? = some [1, 1, 1] := by cbv
  cases Option.some.inj (hsolution.symm.trans hactions)
  exact ⟨⟨hfound, places, hplaces⟩, hcut, hcutoff.1 hone⟩

end ProblemSolving
