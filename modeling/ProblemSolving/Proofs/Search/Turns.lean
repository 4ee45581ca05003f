import ProblemSolving.Proofs.Search.Progress
import ProblemSolving.Search.BestFirst

/-!
# The turns of best-first search

* `BestFirst.Turn` : one turn that goes on, from the node that is taken to the children offered.
* `BestFirst.Ends` : the last turn, by the way in which it ends the search.
* `BestFirst.sameWork_offerAll` : offers change nothing of the run but its other counts.
* `BestFirst.Ends.goalReached`, `BestFirst.Ends.frontierExhausted` : what the outcome tells.
* `BestFirst.loop_ends`, `BestFirst.bestFirst_ends_of_turns` : what every turn keeps holds when the
  search ends.
-/

namespace ProblemSolving

namespace BestFirst

variable {σ α κ : Type} [Scalar κ] [BEq σ] [Hashable σ]

/-- The search with nothing on its frontier. -/
def fresh (run : Run σ α κ) : BestFirst σ α κ :=
  ⟨run, Frontier.empty κ, Std.HashMap.emptyWithCapacity, Std.HashMap.emptyWithCapacity⟩

/-- The run once it is noted how many nodes waited. -/
def noted (s : BestFirst σ α κ) : Run σ α κ := s.run.noteHighWater s.frontier.highWater

/-- The node to take next, the value it waits with, and the frontier without it. -/
def next? (s : BestFirst σ α κ) :
    Option (Placed σ α κ × κ × Frontier (Ranked κ) (Placed σ α κ)) :=
  popLive? s.opened (s.frontier.size κ) s.frontier

/-- The search after a node was taken and expanded; its children are not yet offered. -/
def close (s : BestFirst σ α κ) (here : Placed σ α κ)
    (frontier : Frontier (Ranked κ) (Placed σ α κ)) (run : Run σ α κ) : BestFirst σ α κ :=
  ⟨run, frontier, s.opened.erase here.node.state, s.closed.insert here.node.state here.node.cost⟩

section
variable (P : Problem σ α κ) (eval : Evaluation σ α κ) (reopening : Reopening) (policy : TimedPolicy)

/-- One turn that goes on. -/
structure Turn (s : BestFirst σ α κ) (here : Placed σ α κ) (f : κ)
    (frontier : Frontier (Ranked κ) (Placed σ α κ)) (run : Run σ α κ)
    (kids : List (Placed σ α κ)) (s' : BestFirst σ α κ) : Prop where
  next : s.next? = some (here, f, frontier)
  notGoal : P.isGoal here.node.state = false
  expand : s.noted.expand P here f = (run, .ok kids)
  offers : offerAll eval reopening policy (s.close here frontier run) kids = (s', none)

/-- How a search ends that has come to this point. -/
inductive Ends (s : BestFirst σ α κ) (algorithm : String) : Result σ α κ → Prop
  | emptied (h : s.opened.isEmpty = true ∨ s.next? = none) :
      Ends s algorithm (s.noted.finish algorithm s.noted.exhausted)
  | stopped (termination : Termination κ)
      (h : termination = .expansionBudgetExceeded ∨
        policy.timeIsUp s.run.stats.expansions = true ∧ termination = .timeBudgetExceeded) :
      Ends s algorithm (s.noted.finish algorithm termination)
  | goal {here : Placed σ α κ} {f : κ} {frontier : Frontier (Ranked κ) (Placed σ α κ)}
      (next : s.next? = some (here, f, frontier)) (isGoal : P.isGoal here.node.state = true) :
      Ends s algorithm (s.noted.finish algorithm (.goalReached here.id))
  | expansion {here : Placed σ α κ} {f : κ} {frontier : Frontier (Ranked κ) (Placed σ α κ)}
      {run : Run σ α κ} {violation : Violation κ}
      (next : s.next? = some (here, f, frontier))
      (expand : s.noted.expand P here f = (run, .error violation)) :
      Ends s algorithm (run.finish algorithm (.contractViolation violation))
  | evaluation {here : Placed σ α κ} {f : κ} {frontier : Frontier (Ranked κ) (Placed σ α κ)}
      {run : Run σ α κ} {kids : List (Placed σ α κ)} {s' : BestFirst σ α κ}
      {violation : Violation κ}
      (next : s.next? = some (here, f, frontier))
      (expand : s.noted.expand P here f = (run, .ok kids))
      (offers : offerAll eval reopening policy (s.close here frontier run) kids =
        (s', some violation)) :
      Ends s algorithm (s'.run.finish algorithm (.contractViolation violation))

end

variable {P : Problem σ α κ} {eval : Evaluation σ α κ} {reopening : Reopening} {policy : TimedPolicy}

/-- One round of the loop either ends the search or is a turn after which the loop goes on. -/
theorem loop_cases (algorithm : String) (left : Nat) (s : BestFirst σ α κ) :
    Ends P eval reopening policy s algorithm (loop P eval reopening policy algorithm left s) ∨
      ∃ here f frontier run kids s' left',
        Turn P eval reopening policy s here f frontier run kids s' ∧ left = left' + 1 ∧
        loop P eval reopening policy algorithm left s =
          loop P eval reopening policy algorithm left' s' := by
  obtain ⟨r, hr⟩ : ∃ r, r = loop P eval reopening policy algorithm left s := ⟨_, rfl⟩
  rw [← hr]
  unfold loop at hr
  split at hr
  · exact .inl (hr ▸ .emptied (.inl ‹_›))
  rcases left with _ | left
  · exact .inl (hr ▸ .stopped _ (.inl rfl))
  dsimp only at hr
  split at hr
  · exact .inl (hr ▸ .stopped _ (.inr ⟨‹_›, rfl⟩))
  split at hr
  · exact .inl (hr ▸ .emptied (.inr ‹_›))
  next here f frontier hnext =>
  split at hr
  · exact .inl (hr ▸ .goal hnext ‹_›)
  next hgoal =>
  split at hr
  · exact .inl (hr ▸ .expansion hnext ‹_›)
  next run kids hexpand =>
  split at hr
  · exact .inl (hr ▸ .evaluation hnext hexpand ‹_›)
  next s' hoffers =>
  exact .inr ⟨here, f, frontier, run, kids, s', left,
    ⟨hnext, eq_false_of_ne_true hgoal, hexpand, hoffers⟩, rfl, hr⟩

/-- What holds at first and is kept by every turn holds when the search ends. -/
theorem loop_ends {I : BestFirst σ α κ → Prop}
    (keep : ∀ {s here f frontier run kids s'}, I s →
      Turn P eval reopening policy s here f frontier run kids s' → I s')
    (algorithm : String) (left : Nat) {s : BestFirst σ α κ} (hs : I s) :
    ∃ s', I s' ∧ Ends P eval reopening policy s' algorithm
      (loop P eval reopening policy algorithm left s) := by
  induction left generalizing s with
  | zero =>
    rcases loop_cases algorithm 0 s with h | ⟨_, _, _, _, _, _, _, _, hleft, _⟩
    · exact ⟨s, hs, h⟩
    · omega
  | succ left ih =>
    rcases loop_cases algorithm (left + 1) s with h | ⟨_, _, _, _, _, s', left', ht, hleft, hloop⟩
    · exact ⟨s, hs, h⟩
    · obtain rfl : left = left' := by omega
      rw [hloop]
      exact ih (keep hs ht)

theorem bestFirst_eq_loop {f : κ} (algorithm : String)
    (heval : eval (SearchTree.rootNode P.initial) = .ok f) :
    bestFirst P eval reopening policy algorithm = loop P eval reopening policy algorithm
      policy.maxExpansions ((fresh (Run.start P policy).1).enter (Run.start P policy).2 f) := by
  simp [bestFirst, Run.start, SearchTree.addRoot, heval, fresh]

theorem bestFirst_of_error {violation : Violation κ} (algorithm : String)
    (heval : eval (SearchTree.rootNode P.initial) = .error violation) :
    bestFirst P eval reopening policy algorithm =
      (Run.start P policy).1.finish algorithm (.contractViolation violation) := by
  simp [bestFirst, Run.start, SearchTree.addRoot, heval]

/-- What holds at first and is kept by every turn holds when the search from the root ends, unless
the root already shows a violation. -/
theorem bestFirst_ends_of_turns {I : BestFirst σ α κ → Prop} (algorithm : String)
    (start : ∀ f, eval (SearchTree.rootNode P.initial) = .ok f →
      I ((fresh (Run.start P policy).1).enter (Run.start P policy).2 f))
    (keep : ∀ {s here f rest run kids s'}, I s →
      Turn P eval reopening policy s here f rest run kids s' → I s') :
    (∃ violation, eval (SearchTree.rootNode P.initial) = .error violation ∧
        bestFirst P eval reopening policy algorithm =
          (Run.start P policy).1.finish algorithm (.contractViolation violation)) ∨
      ∃ s, I s ∧
        Ends P eval reopening policy s algorithm (bestFirst P eval reopening policy algorithm) := by
  cases heval : eval (SearchTree.rootNode P.initial) with
  | error violation =>
    exact .inl ⟨violation, rfl, bestFirst_of_error algorithm heval⟩
  | ok f =>
    right
    rw [bestFirst_eq_loop algorithm heval]
    exact loop_ends keep algorithm policy.maxExpansions (start f heval)

/-! ## What offers leave alone -/

theorem sameWork_enterOpen (s : BestFirst σ α κ) (child : Placed σ α κ) (f : κ) :
    s.run.SameWork (s.enterOpen child f).run := by
  unfold enterOpen
  split
  · split
    · exact .of_stats ⟨rfl, rfl⟩
    · exact .refl _
  · exact .refl _

theorem sameWork_offer (reopening : Reopening) (s : BestFirst σ α κ) (child : Placed σ α κ) (f : κ) :
    s.run.SameWork (s.offer reopening child f).run := by
  unfold BestFirst.offer
  split
  · split
    · have hreopen : s.run.SameWork (s.reopen child.node.state).run := .of_stats ⟨rfl, rfl⟩
      exact hreopen.trans (sameWork_enterOpen (s.reopen child.node.state) child f)
    · exact .of_stats ⟨rfl, rfl⟩
  · exact sameWork_enterOpen s child f

section
variable (eval : Evaluation σ α κ) (reopening : Reopening) (policy : TimedPolicy) (s : BestFirst σ α κ)
  (kids : List (Placed σ α κ))

/-- Offers only count. -/
theorem sameWork_offerAll : s.run.SameWork (offerAll eval reopening policy s kids).1.run := by
  induction kids generalizing s with
  | nil => exact .refl _
  | cons child rest ih =>
    unfold offerAll
    split
    · have hskip : s.run.SameWork s.skipDeep.run := .of_stats ⟨rfl, rfl⟩
      exact hskip.trans (ih s.skipDeep)
    split
    · exact .refl _
    next f _ => exact (sameWork_offer reopening s child f).trans (ih (s.offer reopening child f))

theorem tree_offerAll : (offerAll eval reopening policy s kids).1.run.tree = s.run.tree :=
  (sameWork_offerAll eval reopening policy s kids).tree

theorem log_offerAll : (offerAll eval reopening policy s kids).1.run.log = s.run.log :=
  (sameWork_offerAll eval reopening policy s kids).log

theorem progress_offerAll :
    (offerAll eval reopening policy s kids).1.run.progress = s.run.progress :=
  (sameWork_offerAll eval reopening policy s kids).progress

end

variable {s s' : BestFirst σ α κ} {algorithm : String} {r : Result σ α κ}

theorem Turn.keeps {here : Placed σ α κ} {f : κ} {frontier : Frontier (Ranked κ) (Placed σ α κ)}
    {run : Run σ α κ} {kids : List (Placed σ α κ)}
    (ht : Turn P eval reopening policy s here f frontier run kids s') :
    s.run.tree.Keeps s'.run.tree := by
  have hkeeps := s.noted.keeps_expand P here f
  have htree := tree_offerAll eval reopening policy (s.close here frontier run) kids
  rw [ht.offers] at htree
  rw [ht.expand] at hkeeps
  rw [htree]
  exact hkeeps

/-! ## The last turn -/

theorem Ends.keeps (hends : Ends P eval reopening policy s algorithm r) :
    s.run.tree.Keeps r.tree := by
  cases hends with
  | emptied => exact .refl _
  | stopped => exact .refl _
  | goal => exact .refl _
  | @expansion here f _ _ _ _ expand =>
    have hkeeps := s.noted.keeps_expand P here f
    rwa [expand] at hkeeps
  | @evaluation here f rest run kids _ _ _ expand offers =>
    have hkeeps := s.noted.keeps_expand P here f
    have htree := tree_offerAll eval reopening policy (s.close here rest run) kids
    rw [offers] at htree
    rw [expand] at hkeeps
    rw [Run.tree_finish, htree]
    exact hkeeps

theorem Ends.goalReached (hends : Ends P eval reopening policy s algorithm r)
    (hr : r.isGoalReached = true) :
    ∃ here f rest, s.next? = some (here, f, rest) ∧ P.isGoal here.node.state = true ∧
      r.termination = .goalReached here.id ∧ r.tree = s.run.tree ∧
      r.stats.depthSkipped = s.run.stats.depthSkipped := by
  obtain ⟨id, hid⟩ := Result.isGoalReached_iff.1 hr
  cases hends with
  | goal next isGoal => exact ⟨_, _, _, next, isGoal, rfl, rfl, rfl⟩
  | emptied => exact absurd hid Run.exhausted_ne_goalReached
  | stopped termination hstop => rcases hstop with rfl | ⟨-, rfl⟩ <;> cases hid
  | expansion => cases hid
  | evaluation => cases hid

theorem Ends.frontierExhausted (hends : Ends P eval reopening policy s algorithm r)
    (hr : r.termination = .frontierExhausted) :
    (s.opened.isEmpty = true ∨ s.next? = none) ∧ s.run.stats.depthSkipped = 0 := by
  cases hends with
  | emptied hempty => exact ⟨hempty, Run.exhausted_eq_frontierExhausted.1 hr⟩
  | stopped termination hstop => rcases hstop with rfl | ⟨-, rfl⟩ <;> cases hr
  | goal => cases hr
  | expansion => cases hr
  | evaluation => cases hr

theorem keeps_loop (algorithm : String) (left : Nat) (s : BestFirst σ α κ) :
    s.run.tree.Keeps (loop P eval reopening policy algorithm left s).tree := by
  have hkeep : ∀ {s₁ here f rest run kids s₂}, s.run.tree.Keeps s₁.run.tree →
      Turn P eval reopening policy s₁ here f rest run kids s₂ → s.run.tree.Keeps s₂.run.tree :=
    fun hs ht => hs.trans ht.keeps
  obtain ⟨s', hkeeps, hends⟩ := loop_ends hkeep algorithm left (.refl s.run.tree)
  exact hkeeps.trans hends.keeps

/-- The recorded values are those chosen before the last turn, or one more. -/
theorem Ends.chosen (hends : Ends P eval reopening policy s algorithm r) {trace : Trace κ}
    (hr : r.trace = some trace) : trace.events.map (·.f) = s.run.chosen ∨
      ∃ here f rest run kids, s.next? = some (here, f, rest) ∧
        s.noted.expand P here f = (run, .ok kids) ∧ trace.events.map (·.f) = run.chosen := by
  have hlog : ∀ {run run' : Run σ α κ}, run.log = run'.log → run.chosen = run'.chosen := by
    intro run run' h
    unfold Run.chosen
    rw [h]
  cases hends with
  | emptied => exact .inl (Run.map_f_events hr)
  | stopped => exact .inl (Run.map_f_events hr)
  | goal => exact .inl (Run.map_f_events hr)
  | expansion _ expand =>
    exact .inl ((Run.map_f_events hr).trans (hlog (Run.expand_error expand).2))
  | @evaluation here f rest run kids s' _ next expand offers =>
    refine .inr ⟨here, f, rest, run, kids, next, expand, ?_⟩
    have hoffers := log_offerAll eval reopening policy (s.close here rest run) kids
    rw [offers] at hoffers
    exact (Run.map_f_events hr).trans (hlog hoffers)

end BestFirst

end ProblemSolving
