import ProblemSolving.Proofs.Frontier.Contents
import ProblemSolving.Proofs.Search.Runs
import ProblemSolving.Search.Explore

/-!
# The rounds of tree and graph search

* `Exploration` : the search between two rounds.
* `Exploration.Round` : one round that goes on, from the node that is taken to the children offered.
* `Exploration.Ends` : the last round, by the way in which it ends the search.
* `Exploration.explore_ends` : what every round keeps holds when the search ends.
* `Horizon.frontier_offer` : what offers put on the frontier.
-/

namespace ProblemSolving

variable {σ α κ μ : Type} {δ : Type → Type}

/-- A tree or graph search between two rounds. -/
structure Exploration (σ α κ μ : Type) (δ : Type → Type) where
  run : Run σ α κ
  frontier : Frontier δ (Placed σ α κ)
  memory : μ

variable [Discipline δ κ]

namespace Exploration

/-- The run once it is noted how many nodes waited. -/
def noted (s : Exploration σ α κ μ δ) : Run σ α κ := s.run.noteHighWater s.frontier.highWater

/-- The search after an expansion, once its children were offered. -/
def afterOffers (run : Run σ α κ) (h : Horizon σ α κ μ δ) : Exploration σ α κ μ δ :=
  ⟨⟨run.tree, h.stats, run.log⟩, h.frontier, h.memory⟩

variable [Scalar κ]

/-- The search at its start: the root waits. -/
def start (δ : Type → Type) [Discipline δ κ] (P : Problem σ α κ) (policy : TimedPolicy)
    (memory : Memory σ μ) : Exploration σ α κ μ δ :=
  ⟨(Run.start P policy).1, (Frontier.empty κ).push (Run.start P policy).2 (0 : κ),
    memory.initial P.initial⟩

section
variable (P : Problem σ α κ) (policy : TimedPolicy) (memory : Memory σ μ)

/-- One round that goes on. -/
structure Round (s : Exploration σ α κ μ δ) (here : Placed σ α κ)
    (rest : Frontier δ (Placed σ α κ)) (run : Run σ α κ) (kids : List (Placed σ α κ))
    (s' : Exploration σ α κ μ δ) : Prop where
  pop : s.frontier.pop? κ = some (here, rest)
  notGoal : P.isGoal here.node.state = false
  expand : s.noted.expand P here here.node.cost = (run, .ok kids)
  offers : s' = afterOffers run (Horizon.offer policy memory kids ⟨run.stats, rest, s.memory⟩)

/-- How a search ends that has come to this point. -/
inductive Ends (s : Exploration σ α κ μ δ) (algorithm : String) : Result σ α κ → Prop
  | emptied (h : s.frontier.size κ = 0 ∨ s.frontier.pop? κ = none) :
      Ends s algorithm (s.noted.finish algorithm s.noted.exhausted)
  | stopped (termination : Termination κ)
      (h : termination = .expansionBudgetExceeded ∨ termination = .timeBudgetExceeded) :
      Ends s algorithm (s.noted.finish algorithm termination)
  | goal {here : Placed σ α κ} {rest : Frontier δ (Placed σ α κ)}
      (pop : s.frontier.pop? κ = some (here, rest)) (isGoal : P.isGoal here.node.state = true) :
      Ends s algorithm (s.noted.finish algorithm (.goalReached here.id))
  | expansion {here : Placed σ α κ} {rest : Frontier δ (Placed σ α κ)} {run : Run σ α κ}
      {violation : Violation κ} (pop : s.frontier.pop? κ = some (here, rest))
      (expand : s.noted.expand P here here.node.cost = (run, .error violation)) :
      Ends s algorithm (run.finish algorithm (.contractViolation violation))

end

variable {P : Problem σ α κ} {policy : TimedPolicy} {memory : Memory σ μ}

/-- One pass of the loop either ends the search or is a round after which the loop goes on. -/
theorem explore_cases (algorithm : String) (left : Nat) (s : Exploration σ α κ μ δ) :
    Ends P s algorithm (explore P policy memory algorithm left s.run s.frontier s.memory) ∨
      ∃ here rest run kids s' left', Round P policy memory s here rest run kids s' ∧
        left = left' + 1 ∧
        explore P policy memory algorithm left s.run s.frontier s.memory =
          explore P policy memory algorithm left' s'.run s'.frontier s'.memory := by
  obtain ⟨r, hr⟩ : ∃ r, r = explore P policy memory algorithm left s.run s.frontier s.memory :=
    ⟨_, rfl⟩
  rw [← hr]
  unfold explore at hr
  dsimp only at hr
  split at hr
  · exact .inl (hr ▸ .emptied (.inl ‹_›))
  rcases left with _ | left
  · exact .inl (hr ▸ .stopped _ (.inl rfl))
  dsimp only at hr
  split at hr
  · exact .inl (hr ▸ .stopped _ (.inr rfl))
  split at hr
  · exact .inl (hr ▸ .emptied (.inr ‹_›))
  next here rest hpop =>
  split at hr
  · exact .inl (hr ▸ .goal hpop ‹_›)
  next hgoal =>
  split at hr
  · exact .inl (hr ▸ .expansion hpop ‹_›)
  next tree stats log kids hexpand =>
  exact .inr ⟨here, rest, ⟨tree, stats, log⟩, kids, _, left,
    ⟨hpop, eq_false_of_ne_true hgoal, hexpand, rfl⟩, rfl, hr⟩

/-- What holds at first and is kept by every round holds when the search ends. -/
theorem explore_ends {I : Exploration σ α κ μ δ → Prop}
    (keep : ∀ {s here rest run kids s'}, I s → Round P policy memory s here rest run kids s' → I s')
    (algorithm : String) (left : Nat) {s : Exploration σ α κ μ δ} (hs : I s) :
    ∃ s', I s' ∧
      Ends P s' algorithm (explore P policy memory algorithm left s.run s.frontier s.memory) := by
  induction left generalizing s with
  | zero =>
    rcases explore_cases algorithm 0 s with h | ⟨_, _, _, _, _, _, _, hleft, _⟩
    · exact ⟨s, hs, h⟩
    · omega
  | succ left ih =>
    rcases explore_cases algorithm (left + 1) s with h | ⟨_, _, _, _, s', left', ht, hleft, hloop⟩
    · exact ⟨s, hs, h⟩
    · obtain rfl : left = left' := by omega
      rw [hloop]
      exact ih (keep hs ht)

theorem exploreFromRoot_ends {I : Exploration σ α κ μ δ → Prop}
    (keep : ∀ {s here rest run kids s'}, I s → Round P policy memory s here rest run kids s' → I s')
    (algorithm : String) (hstart : I (start δ P policy memory)) :
    ∃ s, I s ∧ Ends P s algorithm (exploreFromRoot δ P policy memory algorithm) :=
  explore_ends keep algorithm policy.maxExpansions hstart

/-! ## The last round -/

variable {s : Exploration σ α κ μ δ} {algorithm : String} {r : Result σ α κ} {id : Nat}

theorem Ends.goalReached (hends : Ends P s algorithm r) (hr : r.termination = .goalReached id) :
    ∃ here rest, s.frontier.pop? κ = some (here, rest) ∧ P.isGoal here.node.state = true ∧
      id = here.id ∧ r.tree = s.run.tree := by
  cases hends with
  | goal pop isGoal =>
    cases hr
    exact ⟨_, _, pop, isGoal, rfl, rfl⟩
  | emptied => exact absurd hr Run.exhausted_ne_goalReached
  | stopped termination hstop => rcases hstop with rfl | rfl <;> cases hr
  | expansion => cases hr

theorem Ends.exhausted (hends : Ends P s algorithm r)
    (hr : r.termination = .frontierExhausted ∨ r.termination = .depthBudgetExceeded) :
    (s.frontier.size κ = 0 ∨ s.frontier.pop? κ = none) ∧ r.termination = s.noted.exhausted := by
  cases hends with
  | emptied hempty => exact ⟨hempty, rfl⟩
  | stopped termination hstop => rcases hstop with rfl | rfl <;> simp at hr
  | goal => simp at hr
  | expansion => simp at hr

end Exploration

/-! ## What waits after offers -/

/-- Offers put some of the children on the frontier, none of which is too deep. -/
theorem Horizon.frontier_offer (policy : TimedPolicy) (memory : Memory σ μ)
    (kids : List (Placed σ α κ)) (h : Horizon σ α κ μ δ) :
    ∃ admitted, (Horizon.offer policy memory kids h).frontier =
        h.frontier.pushAll (fun n => n.node.cost) admitted ∧
      ∀ n ∈ admitted, n ∈ kids ∧ n.node.depth ≤ policy.maxDepth := by
  induction kids generalizing h with
  | nil => exact ⟨[], rfl, by simp⟩
  | cons kid rest ih =>
    have hrest : ∀ {n : Placed σ α κ}, n ∈ rest ∧ n.node.depth ≤ policy.maxDepth →
        n ∈ kid :: rest ∧ n.node.depth ≤ policy.maxDepth :=
      fun hn => ⟨List.mem_cons_of_mem _ hn.1, hn.2⟩
    obtain ⟨stats, frontier, seen⟩ := h
    unfold Horizon.offer
    split
    · obtain ⟨admitted, hfrontier, hadmitted⟩ :=
        ih ⟨{ stats with depthSkipped := stats.depthSkipped + 1 }, frontier, seen⟩
      exact ⟨admitted, hfrontier, fun n hn => hrest (hadmitted n hn)⟩
    next hdepth =>
    split
    next seen' _ =>
      obtain ⟨admitted, hfrontier, hadmitted⟩ :=
        ih ⟨stats, frontier.push kid kid.node.cost, seen'⟩
      refine ⟨kid :: admitted, hfrontier, ?_⟩
      intro n hn
      rcases List.mem_cons.1 hn with rfl | hn
      · exact ⟨List.mem_cons_self .., Nat.le_of_not_lt hdepth⟩
      · exact hrest (hadmitted n hn)
    next seen' _ =>
      obtain ⟨admitted, hfrontier, hadmitted⟩ :=
        ih ⟨{ stats with duplicates := stats.duplicates + 1 }, frontier, seen'⟩
      exact ⟨admitted, hfrontier, fun n hn => hrest (hadmitted n hn)⟩

end ProblemSolving
