import Mathlib
import ProblemSolving.Proofs.Search.Descent
import ProblemSolving.Proofs.Search.EveryStrategy
import ProblemSolving.Proofs.Search.OpenClosed
import ProblemSolving.Proofs.Search.Rounds

/-!
# Every reported goal can be replayed

* `SearchTree.Supports` : what waits stands in a tree of legal steps that lower no cost.
* `exploreFromRoot_reaches`, `bestFirst_reaches`, `depthLimitedSearch_reaches`,
  `iterativeDeepeningSearch_reaches` : a goal that a search reaches stands in such a tree.
* `Result.Replays` : a reported path is a legal one, with its states, its length and its costs.
* `goalReached_replays` : so is the path that any strategy reports.
-/

namespace ProblemSolving

variable {σ α κ : Type} [Scalar κ]

/-! ## What waits -/

namespace SearchTree

variable {P : Problem σ α κ} {bound : Nat} {t t' : SearchTree σ α κ}
  {waits waits' : Placed σ α κ → Prop} {here : Placed σ α κ} {kids : List (Placed σ α κ)}

/-- What waits stands in a tree of legal steps that lower no cost, at most this deep. -/
structure Supports (P : Problem σ α κ) (bound : Nat) (t : SearchTree σ α κ)
    (waits : Placed σ α κ → Prop) : Prop where
  grown : t.Grown P
  fair : t.Fair
  held : ∀ n, waits n → t.Holds n
  shallow : ∀ n, waits n → n.node.depth ≤ bound

theorem supports_root (h : ∀ n, waits n → n = ⟨0, rootNode P.initial⟩) :
    Supports P bound ((SearchTree.empty : SearchTree σ α κ).addRoot P.initial).1 waits where
  grown := grown_root
  fair := fair_root
  held n hn := by
    rw [h n hn]
    rfl
  shallow n hn := by
    rw [h n hn]
    exact Nat.zero_le bound

theorem Supports.expands (h : Supports P bound t waits) (hhere : waits here)
    (hexpands : Expands P t here t' kids)
    (hwaits : ∀ n, waits' n → waits n ∨ n ∈ kids ∧ n.node.depth ≤ bound) :
    Supports P bound t' waits' where
  grown := h.grown.expands (h.held here hhere) hexpands
  fair := h.fair.expands (h.held here hhere) hexpands
  held n hn := by
    rcases hwaits n hn with hold | ⟨hkid, -⟩
    · exact (h.held n hold).keeps hexpands.keeps
    · exact hexpands.holds n hkid
  shallow n hn := by
    rcases hwaits n hn with hold | ⟨-, hdepth⟩
    · exact h.shallow n hold
    · exact hdepth

theorem Supports.reaches (h : Supports P bound t waits) (hhere : waits here)
    (hgoal : P.isGoal here.node.state = true) : t.Reaches P bound here.id :=
  ⟨h.grown, h.fair, here.node, h.held here hhere, hgoal, h.shallow here hhere⟩

end SearchTree

/-! ## Tree and graph search -/

section
variable {μ : Type} {δ : Type → Type} [Discipline δ κ] [LawfulDiscipline δ κ]

/-- What is on the frontier is supported by the tree. -/
def Exploration.Supported (P : Problem σ α κ) (policy : TimedPolicy) (s : Exploration σ α κ μ δ) :
    Prop :=
  s.frontier.Sound κ ∧
    SearchTree.Supports P policy.maxDepth s.run.tree (· ∈ s.frontier.items κ)

theorem Exploration.supported_start (P : Problem σ α κ) (policy : TimedPolicy) (memory : Memory σ μ) :
    (start δ P policy memory).Supported P policy := by
  have hempty : (Frontier.empty κ : Frontier δ (Placed σ α κ)).Sound κ := Frontier.sound_empty
  have hitems := hempty.items_push (Run.start P policy).2 (0 : κ)
  rw [Frontier.items_empty] at hitems
  refine ⟨hempty.push _ _, SearchTree.supports_root fun n hn => ?_⟩
  exact List.mem_singleton.1 (hitems.mem_iff.1 hn)

theorem Exploration.Supported.holds {P : Problem σ α κ} {policy : TimedPolicy}
    {s : Exploration σ α κ μ δ} {here : Placed σ α κ} {rest : Frontier δ (Placed σ α κ)}
    (h : s.Supported P policy) (hpop : s.frontier.pop? κ = some (here, rest)) :
    s.run.tree.Holds here :=
  h.2.held here ((h.1.pop? hpop).2.mem_iff.2 (List.mem_cons_self ..))

theorem Exploration.Supported.round {P : Problem σ α κ} {policy : TimedPolicy} {memory : Memory σ μ}
    {s s' : Exploration σ α κ μ δ} {here : Placed σ α κ} {rest : Frontier δ (Placed σ α κ)}
    {run : Run σ α κ} {kids : List (Placed σ α κ)} (h : s.Supported P policy)
    (hr : Round P policy memory s here rest run kids s') : s'.Supported P policy := by
  obtain ⟨hsound, hsupports⟩ := h
  obtain ⟨hrest, hitems⟩ := hsound.pop? hr.pop
  obtain ⟨admitted, hfrontier, hadmitted⟩ :=
    Horizon.frontier_offer policy memory kids ⟨run.stats, rest, s.memory⟩
  obtain ⟨hsound', hitems'⟩ := hrest.pushAll (fun n => n.node.cost) admitted
  rw [← hfrontier] at hsound' hitems'
  rw [hr.offers]
  refine ⟨hsound', ?_⟩
  refine hsupports.expands (hitems.mem_iff.2 (List.mem_cons_self ..)) (Run.expand_ok hr.expand).1 ?_
  intro n hn
  rcases List.mem_append.1 (hitems'.mem_iff.1 hn) with hold | hnew
  · exact .inl (hitems.mem_iff.2 (List.mem_cons_of_mem _ hold))
  · exact .inr (hadmitted n hnew)

theorem exploreFromRoot_reaches (P : Problem σ α κ) (policy : TimedPolicy) (memory : Memory σ μ)
    (algorithm : String) {id : Nat}
    (hid : (exploreFromRoot δ P policy memory algorithm).termination = .goalReached id) :
    (exploreFromRoot δ P policy memory algorithm).tree.Reaches P policy.maxDepth id := by
  obtain ⟨s, ⟨hsound, hsupports⟩, hends⟩ := Exploration.exploreFromRoot_ends
    (I := fun s : Exploration σ α κ μ δ => s.Supported P policy)
    Exploration.Supported.round algorithm (Exploration.supported_start P policy memory)
  obtain ⟨here, rest, hpop, hgoal, rfl, htree⟩ := hends.goalReached hid
  have hhere := (hsound.pop? hpop).2.mem_iff.2 (List.mem_cons_self ..)
  rw [htree]
  exact hsupports.reaches hhere hgoal

end

/-! ## Best-first search -/

section
variable [BEq σ] [Hashable σ]

/-- What is on the frontier, also where it is stale, is supported by the tree. -/
def BestFirst.Supported (P : Problem σ α κ) (policy : TimedPolicy) (s : BestFirst σ α κ) : Prop :=
  SearchTree.Supports P policy.maxDepth s.run.tree
    fun n => ∃ x ∈ s.frontier.waiting.entries, x.item = n

theorem BestFirst.Supported.turn {P : Problem σ α κ} {eval : Evaluation σ α κ}
    {reopening : Reopening} {policy : TimedPolicy} {s s' : BestFirst σ α κ} {here : Placed σ α κ} {f : κ}
    {rest : Frontier (Ranked κ) (Placed σ α κ)} {run : Run σ α κ} {kids : List (Placed σ α κ)}
    (h : s.Supported P policy) (ht : Turn P eval reopening policy s here f rest run kids s') :
    s'.Supported P policy := by
  obtain ⟨skipped, key, hentries, -⟩ := (pops_of_next? ht.next).entries
  have hoffered := entries_offerAll eval reopening policy (s.close here rest run) kids
  have htree := tree_offerAll eval reopening policy (s.close here rest run) kids
  rw [ht.offers] at hoffered htree
  unfold Supported
  rw [htree]
  refine h.expands ⟨⟨key, here⟩, hentries.mem_iff.2 (by simp), rfl⟩ ht.expands ?_
  rintro n ⟨x, hx, rfl⟩
  refine (hoffered x hx).imp_left fun hrest => ⟨x, ?_, rfl⟩
  exact hentries.mem_iff.2 (List.mem_append_right _ (List.mem_cons_of_mem _ hrest))

theorem BestFirst.supported_start (P : Problem σ α κ) (policy : TimedPolicy) (f : κ) :
    ((fresh (Run.start P policy).1).enter (Run.start P policy).2 f).Supported P policy := by
  obtain ⟨arrival, hentries⟩ := entries_enter (fresh (Run.start P policy).1) (Run.start P policy).2 f
  refine SearchTree.supports_root ?_
  rintro n ⟨x, hx, rfl⟩
  rw [List.mem_singleton.1 (hentries.mem_iff.1 hx)]
  rfl

theorem BestFirst.Supported.holds {P : Problem σ α κ} {policy : TimedPolicy} {s : BestFirst σ α κ}
    {here : Placed σ α κ} {f : κ} {rest : Frontier (Ranked κ) (Placed σ α κ)}
    (h : s.Supported P policy) (hnext : s.next? = some (here, f, rest)) :
    s.run.tree.Holds here := by
  obtain ⟨skipped, key, hentries, -⟩ := (pops_of_next? hnext).entries
  exact h.held here ⟨⟨key, here⟩, hentries.mem_iff.2 (by simp), rfl⟩

theorem bestFirst_reaches (P : Problem σ α κ) (eval : Evaluation σ α κ) (reopening : Reopening)
    (policy : TimedPolicy) (algorithm : String) {id : Nat}
    (hid : (bestFirst P eval reopening policy algorithm).termination = .goalReached id) :
    (bestFirst P eval reopening policy algorithm).tree.Reaches P policy.maxDepth id := by
  have hkeep : ∀ {s : BestFirst σ α κ} {here f rest run kids s'}, s.Supported P policy →
      BestFirst.Turn P eval reopening policy s here f rest run kids s' → s'.Supported P policy :=
    fun h ht => h.turn ht
  rcases BestFirst.bestFirst_ends_of_turns algorithm
    (fun f _ => BestFirst.supported_start P policy f) hkeep with
    ⟨violation, -, hrun⟩ | ⟨s, hsupports, hends⟩
  · rw [hrun] at hid
    cases hid
  · obtain ⟨here, f, rest, hnext, hgoal, hr, htree, -⟩ :=
      hends.goalReached (Result.isGoalReached_iff.2 ⟨id, hid⟩)
    obtain ⟨skipped, key, hentries, -⟩ := (BestFirst.pops_of_next? hnext).entries
    cases hid.symm.trans hr
    rw [htree]
    exact hsupports.reaches ⟨⟨key, here⟩, hentries.mem_iff.2 (by simp), rfl⟩ hgoal

end

/-! ## Depth-limited search -/

theorem depthLimitedSearch_reaches (P : Problem σ α κ) (limit : Nat) (policy : TimedPolicy) {id : Nat}
    (hid : (depthLimitedSearch P limit policy).termination = .goalReached id) :
    (depthLimitedSearch P limit policy).tree.Reaches P limit id :=
  (pass_ends P policy limit (.empty policy)).1 id hid

theorem iterativeDeepeningSearch_reaches (P : Problem σ α κ) (policy : TimedPolicy) {id : Nat}
    (hid : (iterativeDeepeningSearch P policy).termination = .goalReached id) :
    (iterativeDeepeningSearch P policy).tree.Reaches P policy.maxDepth id := by
  obtain ⟨depth, hdepth, hreaches, -⟩ :=
    (deepen_ends P policy (policy.maxDepth + 1) 0 (.empty policy)).1 id hid
  exact hreaches.mono (by omega)

/-! ## Replays -/

/-- What a result reports of its goal: the path is a legal one that leads there through these states,
and the node tells its length and its cost, which no step lowers. -/
structure Result.Replays (P : Problem σ α κ) (deepest : Nat) (r : Result σ α κ) (goal : Node σ α κ)
    (actions : List α) (states : List σ) : Prop where
  reached : r.goal? = some goal
  solution : r.solution? = some actions
  pathStates : r.pathStates? = some states
  first : states.head? = some P.initial
  length : states.length = actions.length + 1
  step : ∀ i s a, states[i]? = some s → actions[i]? = some a →
    a ∈ P.actions s ∧ states[i + 1]? = some (P.result s a)
  last : states.getLast? = some goal.state
  replay : P.replay actions = goal.state
  isGoal : P.isGoal goal.state = true
  depth : goal.depth = actions.length
  shallow : goal.depth ≤ deepest
  cost : r.pathCost? = some (P.totalCost actions)
  ascends : P.CostAscends actions

theorem SearchTree.Reaches.replays [DifferenceScalar κ] {P : Problem σ α κ} {deepest id : Nat}
    {r : Result σ α κ} (h : r.tree.Reaches P deepest id) (hid : r.termination = .goalReached id) :
    ∃ goal actions states, r.Replays P deepest goal actions states := by
  obtain ⟨goal, hnode, hgoal, hdepth⟩ := h.goal
  have htraced := h.grown.traced hnode
  refine ⟨goal, r.tree.solution id, r.tree.pathStates id, ?_⟩
  constructor
  case reached => simp [Result.goal?, Result.goalId?, hid, hnode]
  case solution => simp [Result.solution?, Result.goalId?, hid]
  case pathStates => simp [Result.pathStates?, Result.goalId?, hid]
  case first => rw [htraced.states, List.head?_scanl]
  case length => rw [htraced.states, List.length_scanl]
  case step =>
    intro i s a hs ha
    rw [htraced.states] at hs ⊢
    refine ⟨htraced.path.legal hs ha, ?_⟩
    rw [List.getElem?_succ_scanl, hs, ha]
    rfl
  case last => rw [htraced.states, List.getLast?_scanl, htraced.path.foldl_result]
  case replay => exact htraced.path.replay
  case isGoal => exact hgoal
  case depth => exact htraced.depth
  case shallow => exact hdepth
  case cost => rw [Result.pathCost?_of_goalReached (n := ⟨id, goal⟩) hid hnode, htraced.cost]
  case ascends => exact h.fair.ascends h.grown hnode

/-! ## All strategies -/

variable [BEq σ] [Hashable σ]

/-- The greatest depth at which a strategy may report a goal. -/
def Strategy.deepest : Strategy σ α κ → TimedPolicy → Nat
  | depthLimited limit, _ => limit
  | _, policy => policy.maxDepth

theorem Strategy.reaches (strategy : Strategy σ α κ) (P : Problem σ α κ) (policy : TimedPolicy) {id : Nat}
    (hid : (strategy.run P policy).termination = .goalReached id) :
    (strategy.run P policy).tree.Reaches P (strategy.deepest policy) id := by
  cases strategy with
  | tree waiting => cases waiting <;> exact exploreFromRoot_reaches P policy _ _ hid
  | graph waiting => cases waiting <;> exact exploreFromRoot_reaches P policy _ _ hid
  | breadthFirstTree => exact exploreFromRoot_reaches P policy _ _ hid
  | breadthFirstGraph => exact exploreFromRoot_reaches P policy _ _ hid
  | depthFirstTree => exact exploreFromRoot_reaches P policy _ _ hid
  | depthFirstGraph => exact exploreFromRoot_reaches P policy _ _ hid
  | cappedBreadthFirstTree => exact exploreFromRoot_reaches P _ _ _ hid
  | bestFirst eval reopening => exact bestFirst_reaches P _ _ policy _ hid
  | uniformCost => exact bestFirst_reaches P _ _ policy _ hid
  | greedy => exact bestFirst_reaches P _ _ policy _ hid
  | astar => exact bestFirst_reaches P _ _ policy _ hid
  | depthLimited limit => exact depthLimitedSearch_reaches P limit policy hid
  | iterativeDeepening => exact iterativeDeepeningSearch_reaches P policy hid

/-- Whatever strategy reaches a goal, the path that it reports can be replayed. -/
theorem goalReached_replays [DifferenceScalar κ] (P : Problem σ α κ) (strategy : Strategy σ α κ)
    (policy : TimedPolicy) (h : (strategy.run P policy).isGoalReached = true) :
    ∃ goal actions states,
      (strategy.run P policy).Replays P (strategy.deepest policy) goal actions states := by
  obtain ⟨id, hid⟩ := Result.isGoalReached_iff.1 h
  exact (strategy.reaches P policy hid).replays hid

/-- Stairs of three steps, climbed by one or two at a time. -/
def stairs : Problem Nat Nat ℚ where
  initial := 0
  actions _ := [1, 2]
  result s steps := s + steps
  isGoal s := s == 3
  pathCost cost _ steps _ := cost + steps
  heuristic _ := 0

theorem stairs_replays :
    ((Strategy.depthLimited 2).run stairs {}).isGoalReached = true ∧
      ∃ goal actions states, ((Strategy.depthLimited 2).run stairs {}).Replays stairs 2 goal actions
        states := by
  have hreached : ((Strategy.depthLimited 2).run stairs {}).isGoalReached = true := by cbv
  exact ⟨hreached, goalReached_replays stairs (.depthLimited 2) {} hreached⟩

end ProblemSolving
