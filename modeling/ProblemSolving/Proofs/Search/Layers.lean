import Mathlib
import ProblemSolving.Proofs.Search.Exploration
import ProblemSolving.Proofs.Search.Replay

/-!
# Shortest paths

* `Exploration.Layered` : a breadth-first search expands the states layer by layer.
* `Exploration.Layered.round` : every round keeps to that; it puts the node that it takes into the
  last layer and its children into the next one.
* `Exploration.Layered.waits_before_goal` : some node on the way to every goal waits.
* `Result.Nearest` : a goal that is reached is as near as any.
* `nearestFirst_shortest` : breadth-first search and iterative deepening find shortest paths.
-/

namespace ProblemSolving

variable {σ α κ μ : Type}

/-! ## States at a depth -/

/-- Some node on the frontier has this state and this depth. -/
def ListsAt (frontier : Frontier Queue (Placed σ α κ)) (s : σ) (depth : Nat) : Prop :=
  ∃ n ∈ frontier.items κ, n.node.state = s ∧ n.node.depth = depth

theorem ListsAt.pop? {frontier rest : Frontier Queue (Placed σ α κ)} {here : Placed σ α κ} {s : σ}
    {depth : Nat} (h : ListsAt frontier s depth) (hpop : frontier.pop? κ = some (here, rest)) :
    (s = here.node.state ∧ depth = here.node.depth) ∨ ListsAt rest s depth := by
  obtain ⟨n, hn, rfl, rfl⟩ := h
  rw [Frontier.items_pop?_queue hpop] at hn
  rcases List.mem_cons.1 hn with rfl | hn
  · exact .inl ⟨rfl, rfl⟩
  · exact .inr ⟨n, hn, rfl, rfl⟩

/-! ## Layers -/

variable [Scalar κ]

namespace Exploration

/-- The states are expanded layer by layer: `E` holds of those that are expanded at some depth, what
waits lies in the last layer or the next one, and every step out of an expanded state leads, at most
one layer on, to an expanded state or to one that waits. -/
structure Layered (P : Problem σ α κ) (policy : TimedPolicy) (knows : μ → σ → Prop)
    (E : σ → Nat → Prop) (layer : Nat) (s : Exploration σ α κ μ Queue) : Prop where
  sound : s.frontier.Sound κ
  ascending : (s.frontier.items κ).Pairwise fun m n => m.node.depth ≤ n.node.depth
  span : ∀ n ∈ s.frontier.items κ, layer ≤ n.node.depth ∧ n.node.depth ≤ layer + 1
  behind : ∀ state k, E state k → k ≤ layer
  notGoal : ∀ state k, E state k → P.isGoal state = false
  known : ∀ state, knows s.memory state → (∃ k, E state k) ∨ Lists s.frontier state
  initial : E P.initial 0 ∨ ListsAt s.frontier P.initial 0
  step : ∀ state k, E state k → k < policy.maxDepth → ∀ a ∈ P.actions state,
    ∃ k' ≤ k + 1, E (P.result state a) k' ∨ ListsAt s.frontier (P.result state a) k'

variable {P : Problem σ α κ} {policy : TimedPolicy} {memory : Memory σ μ} {knows : μ → σ → Prop}
  {E : σ → Nat → Prop} {layer : Nat} {s s' : Exploration σ α κ μ Queue} {here : Placed σ α κ}
  {rest : Frontier Queue (Placed σ α κ)} {run : Run σ α κ} {kids : List (Placed σ α κ)}

theorem layered_start (lawful : memory.Lawful knows) (P : Problem σ α κ) (policy : TimedPolicy) :
    Layered P policy knows (fun _ _ => False) 0 (start Queue P policy memory) := by
  have hempty : (Frontier.empty κ : Frontier Queue (Placed σ α κ)).Sound κ := Frontier.sound_empty
  have hitems : (start Queue P policy memory).frontier.items κ = [(Run.start P policy).2] := by
    show ((Frontier.empty κ).push (Run.start P policy).2 (0 : κ)).items κ = _
    rw [Frontier.items_push_queue hempty, Frontier.items_empty]
    rfl
  have hroot : ∀ n ∈ (start Queue P policy memory).frontier.items κ, n = (Run.start P policy).2 := by
    simp [hitems]
  have hinitial : (Run.start P policy).2 ∈ (start Queue P policy memory).frontier.items κ := by
    simp [hitems]
  constructor
  case sound => exact hempty.push _ _
  case ascending => rw [hitems]; exact List.pairwise_singleton _ _
  case span =>
    intro n hn
    rw [hroot n hn]
    exact ⟨Nat.le_refl 0, Nat.zero_le 1⟩
  case behind => exact fun _ _ h => h.elim
  case notGoal => exact fun _ _ h => h.elim
  case known =>
    intro state hknown
    rw [lawful.initial _ _ hknown]
    exact .inr ⟨_, hinitial, rfl⟩
  case initial => exact .inr ⟨_, hinitial, rfl, rfl⟩
  case step => exact fun _ _ h => h.elim

omit [Scalar κ] in
/-- What is expanded once a node is. -/
def WithExpanded (E : σ → Nat → Prop) (here : Placed σ α κ) (state : σ) (k : Nat) : Prop :=
  E state k ∨ state = here.node.state ∧ k = here.node.depth

omit [Scalar κ] in
/-- The node that is taken is of the last layer or begins the next one, and what is left lies in its
layer or the one after that. -/
theorem Layered.taken (h : Layered P policy knows E layer s)
    (hpop : s.frontier.pop? κ = some (here, rest)) :
    layer ≤ here.node.depth ∧
      (rest.items κ).Pairwise (fun m n => m.node.depth ≤ n.node.depth) ∧
      ∀ n ∈ rest.items κ, here.node.depth ≤ n.node.depth ∧ n.node.depth ≤ here.node.depth + 1 := by
  have hspan := h.span
  have hascending := h.ascending
  rw [Frontier.items_pop?_queue hpop] at hspan hascending
  obtain ⟨hfirst, hascending⟩ := List.pairwise_cons.1 hascending
  obtain ⟨hlow, -⟩ := hspan here (List.mem_cons_self ..)
  refine ⟨hlow, hascending, fun n hn => ⟨hfirst n hn, ?_⟩⟩
  have := (hspan n (List.mem_cons_of_mem _ hn)).2
  omega

theorem Round.items_queue (hr : Round P policy memory s here rest run kids s')
    (sound : s.frontier.Sound κ) : ∃ admitted, s'.frontier.items κ = rest.items κ ++ admitted ∧
      ∀ n ∈ admitted, n.node.depth = here.node.depth + 1 := by
  obtain ⟨hexpands, -⟩ := Run.expand_ok hr.expand
  obtain ⟨hsound, -⟩ := sound.pop? hr.pop
  obtain ⟨admitted, hfrontier, hadmitted⟩ :=
    Horizon.frontier_offer policy memory kids ⟨run.stats, rest, s.memory⟩
  have hitems := Frontier.items_pushAll_queue hsound (fun n => n.node.cost) admitted
  rw [← hfrontier] at hitems
  rw [hr.offers]
  exact ⟨admitted, hitems, fun n hn => hexpands.depth_eq (hadmitted n hn).1⟩

theorem Layered.round (lawful : memory.Lawful knows) (h : Layered P policy knows E layer s)
    (hr : Round P policy memory s here rest run kids s') :
    Layered P policy knows (WithExpanded E here) here.node.depth s' := by
  obtain ⟨hexpands, -⟩ := Run.expand_ok hr.expand
  obtain ⟨hlayer, hascending, hrest⟩ := h.taken hr.pop
  obtain ⟨admitted, hitems, hadmitted⟩ := hr.items_queue h.sound
  obtain ⟨hsound, -⟩ := h.sound.pop? hr.pop
  have hlists : ∀ state, (∃ k, E state k) ∨ Lists s.frontier state →
      (∃ k, WithExpanded E here state k) ∨ Lists rest state := by
    rintro state (⟨k, hk⟩ | hs)
    · exact .inl ⟨k, .inl hk⟩
    · exact (hs.pop? h.sound hr.pop).imp_left fun hstate => ⟨_, .inr ⟨hstate, rfl⟩⟩
  have hoffered := Horizon.offer_offered (E := fun state => ∃ k, WithExpanded E here state k)
    policy lawful kids ⟨run.stats, rest, s.memory⟩ hsound
    fun state hs => hlists state (h.known state hs)
  have hfrontier : s'.frontier =
      (Horizon.offer policy memory kids ⟨run.stats, rest, s.memory⟩).frontier := by
    rw [hr.offers]
    rfl
  have hstill : ∀ state k, E state k ∨ ListsAt s.frontier state k →
      WithExpanded E here state k ∨ ListsAt s'.frontier state k := by
    rintro state k (hk | hs)
    · exact .inl (.inl hk)
    · refine (hs.pop? hr.pop).imp .inr fun ⟨n, hn, hat⟩ => ⟨n, ?_, hat⟩
      rw [hitems]
      exact List.mem_append_left _ hn
  have hbehind : ∀ state k, WithExpanded E here state k → k ≤ here.node.depth := by
    rintro state k (hk | ⟨-, rfl⟩)
    · exact (h.behind state k hk).trans hlayer
    · exact Nat.le_refl _
  have hspan : ∀ n ∈ s'.frontier.items κ,
      here.node.depth ≤ n.node.depth ∧ n.node.depth ≤ here.node.depth + 1 := by
    intro n hn
    rw [hitems] at hn
    rcases List.mem_append.1 hn with hn | hn
    · exact hrest n hn
    · have := hadmitted n hn
      omega
  constructor
  case behind => exact hbehind
  case span => exact hspan
  case initial => exact hstill _ _ h.initial
  case sound =>
    rw [hfrontier]
    exact hoffered.sound
  case known =>
    rw [hr.offers]
    exact hoffered.known
  case ascending =>
    rw [hitems, List.pairwise_append]
    refine ⟨hascending, ?_, ?_⟩
    · exact List.pairwise_of_forall_mem_list fun m hm n hn => by
        rw [hadmitted m hm, hadmitted n hn]
    · intro m hm n hn
      rw [hadmitted n hn]
      exact (hrest m hm).2
  case notGoal =>
    rintro state k (hk | ⟨rfl, -⟩)
    · exact h.notGoal state k hk
    · exact hr.notGoal
  case step =>
    rintro state k (hk | ⟨rfl, rfl⟩) hdepth a ha
    · obtain ⟨k', hle, hk'⟩ := h.step state k hk hdepth a ha
      exact ⟨k', hle, hstill _ _ hk'⟩
    · -- the child by this action is expanded or listed, and nothing lies deeper than the next layer
      obtain ⟨kid, hkid, hnode⟩ := hexpands.exists_kid ha
      have hshallow : kid.node.depth ≤ policy.maxDepth := by
        rw [hexpands.depth_eq hkid]
        exact hdepth
      have hlisted := hoffered.listed kid hkid hshallow
      rw [hnode, ← hfrontier] at hlisted
      rcases hlisted with ⟨k', hk'⟩ | ⟨n, hn, hstate⟩
      · exact ⟨k', (hbehind _ _ hk').trans (Nat.le_succ _), .inl hk'⟩
      · exact ⟨n.node.depth, (hspan n hn).2, .inr ⟨n, hn, hstate, rfl⟩⟩

/-! ## The way to a goal -/

omit [Scalar κ] in
/-- Some node on the way from an expanded or a waiting state to a goal waits, if the way is not too
long for the policy. -/
theorem Layered.follow (h : Layered P policy knows E layer s) {state t : σ} {as : List α}
    (hp : P.Path state as t) (hgoal : P.isGoal t = true) {k : Nat}
    (hat : E state k ∨ ListsAt s.frontier state k) (hdepth : k + as.length ≤ policy.maxDepth) :
    ∃ n ∈ s.frontier.items κ, n.node.depth ≤ k + as.length := by
  induction hp generalizing k with
  | nil state =>
    rcases hat with hk | ⟨n, hn, -, rfl⟩
    · rw [h.notGoal state k hk] at hgoal
      contradiction
    · exact ⟨n, hn, Nat.le_add_right ..⟩
  | @cons state t a as legal _ ih =>
    rw [List.length_cons] at hdepth ⊢
    rcases hat with hk | ⟨n, hn, -, rfl⟩
    · obtain ⟨k', hle, hat⟩ := h.step state k hk (by omega) a legal
      obtain ⟨n, hn, hlen⟩ := ih hgoal hat (by omega)
      exact ⟨n, hn, by omega⟩
    · exact ⟨n, hn, Nat.le_add_right ..⟩

omit [Scalar κ] in
theorem Layered.waits_before_goal (h : Layered P policy knows E layer s) {actions : List α}
    (hs : P.Solution actions) (hlen : actions.length ≤ policy.maxDepth) :
    ∃ n ∈ s.frontier.items κ, n.node.depth ≤ actions.length := by
  obtain ⟨t, hp, hgoal⟩ := hs
  obtain ⟨n, hn, hdepth⟩ := h.follow hp hgoal h.initial (by omega)
  exact ⟨n, hn, by omega⟩

end Exploration

/-! ## Nearest goals -/

/-- A goal that is reached is as near as any, and if the depth is exceeded, every goal lies deeper. -/
structure Result.Nearest (P : Problem σ α κ) (deepest : Nat) (r : Result σ α κ) : Prop where
  reached : ∀ id, r.termination = .goalReached id → ∃ node, r.tree.get? id = some node ∧
    ∀ actions, P.Solution actions → node.depth ≤ actions.length
  exceeded : r.termination = .depthBudgetExceeded →
    ∀ actions, P.Solution actions → deepest < actions.length

open Exploration in
theorem exploreFromRoot_nearest {memory : Memory σ μ} {knows : μ → σ → Prop}
    (lawful : memory.Lawful knows) (P : Problem σ α κ) (policy : TimedPolicy) (algorithm : String) :
    (exploreFromRoot Queue P policy memory algorithm).Nearest P policy.maxDepth := by
  obtain ⟨s, ⟨hsupported, E, layer, h⟩, hends⟩ := exploreFromRoot_ends
    (I := fun s : Exploration σ α κ μ Queue =>
      s.Supported P policy ∧ ∃ E layer, Layered P policy knows E layer s)
    (fun ⟨hs, _, _, h⟩ hr => ⟨hs.round hr, _, _, h.round lawful hr⟩) algorithm
    ⟨supported_start P policy memory, _, _, layered_start lawful P policy⟩
  constructor
  · intro id hid
    obtain ⟨here, rest, hpop, -, rfl, htree⟩ := hends.goalReached hid
    have hitems : s.frontier.items κ = here :: rest.items κ := Frontier.items_pop?_queue hpop
    have hhere : here ∈ s.frontier.items κ := by simp [hitems]
    refine ⟨here.node, htree ▸ hsupported.2.held here hhere, ?_⟩
    intro actions hs
    rcases Nat.lt_or_ge policy.maxDepth actions.length with hlong | hshort
    · exact (hsupported.2.shallow here hhere).trans hlong.le
    · obtain ⟨n, hn, hlen⟩ := h.waits_before_goal hs hshort
      have hascending := h.ascending
      rw [hitems] at hn hascending
      rcases List.mem_cons.1 hn with rfl | hn
      · exact hlen
      · exact ((List.pairwise_cons.1 hascending).1 n hn).trans hlen
  · intro hexceeded actions hs
    by_contra hshort
    obtain ⟨n, hn, -⟩ := h.waits_before_goal hs (Nat.le_of_not_lt hshort)
    rw [h.sound.items_eq_nil (hends.exhausted (.inr hexceeded)).1] at hn
    cases hn

theorem iterativeDeepeningSearch_nearest (P : Problem σ α κ) (policy : TimedPolicy) :
    (iterativeDeepeningSearch P policy).Nearest P policy.maxDepth := by
  obtain ⟨hreached, hexceeded⟩ := deepen_ends P policy (policy.maxDepth + 1) 0 (.empty policy)
  have hwithin : ∀ {actions}, P.Solution actions → P.GoalWithin actions.length P.initial :=
    fun ⟨t, hp, hgoal⟩ => ⟨_, t, hp, Nat.le_refl _, hgoal⟩
  constructor
  · intro id hid
    obtain ⟨depth, -, hreaches, hbefore⟩ := hreached id hid
    obtain ⟨node, hnode, -, hdepth⟩ := hreaches.goal
    refine ⟨node, hnode, ?_⟩
    intro actions hs
    by_contra hshort
    exact hbefore _ (Nat.zero_le _) (by omega) (hwithin hs)
  · intro hid actions hs
    by_contra hshort
    exact hexceeded hid _ (Nat.zero_le _) (by omega) (hwithin hs)

/-! ## Shortest paths -/

variable [BEq σ] [Hashable σ]

/-- The strategies that come to nearer goals first. -/
def Strategy.IsNearestFirst : Strategy σ α κ → Prop
  | tree .queue | graph .queue | breadthFirstTree | breadthFirstGraph | cappedBreadthFirstTree
  | iterativeDeepening => True
  | _ => False

/-- The actions are a solution, and none has fewer. -/
def Problem.Shortest (P : Problem σ α κ) (actions : List α) : Prop :=
  P.Solution actions ∧ ∀ other, P.Solution other → actions.length ≤ other.length

omit [BEq σ] [Hashable σ] in
theorem SearchTree.Reaches.shortest {P : Problem σ α κ} {t : SearchTree σ α κ} {bound id : Nat}
    {node : Node σ α κ} (h : t.Reaches P bound id) (hnode : t.get? id = some node)
    (nearest : ∀ actions, P.Solution actions → node.depth ≤ actions.length) :
    P.Shortest (t.solution id) := by
  obtain ⟨_, hsame, hgoal, -⟩ := h.goal
  cases Option.some.inj (hsame.symm.trans hnode)
  have htraced := h.grown.traced hnode
  refine ⟨⟨node.state, htraced.path, hgoal⟩, ?_⟩
  rw [← htraced.depth]
  exact nearest

theorem Strategy.nearest [LawfulBEq σ] {strategy : Strategy σ α κ} (h : strategy.IsNearestFirst)
    (P : Problem σ α κ) (policy : TimedPolicy) :
    (strategy.run P policy).Nearest P policy.maxDepth := by
  cases strategy with
  | tree waiting =>
    cases waiting with
    | queue => exact exploreFromRoot_nearest Memory.lawful_forgetful P policy _
    | _ => exact h.elim
  | graph waiting =>
    cases waiting with
    | queue => exact exploreFromRoot_nearest Memory.lawful_seen P policy _
    | _ => exact h.elim
  | breadthFirstTree => exact exploreFromRoot_nearest Memory.lawful_forgetful P policy _
  | breadthFirstGraph => exact exploreFromRoot_nearest Memory.lawful_seen P policy _
  | cappedBreadthFirstTree =>
    exact exploreFromRoot_nearest Memory.lawful_forgetful P
      { policy with maxExpansions := min policy.maxExpansions treeSearchCap } _
  | iterativeDeepening => exact iterativeDeepeningSearch_nearest P policy
  | _ => exact h.elim

theorem Strategy.solution_shortest [LawfulBEq σ] {strategy : Strategy σ α κ}
    (h : strategy.IsNearestFirst) (P : Problem σ α κ) (policy : TimedPolicy) {actions : List α}
    (hs : (strategy.run P policy).solution? = some actions) : P.Shortest actions := by
  obtain ⟨id, hid, rfl⟩ := Result.solution?_eq_some.1 hs
  obtain ⟨node, hnode, hnearest⟩ := (Strategy.nearest h P policy).reached id hid
  exact (strategy.reaches P policy hid).shortest hnode hnearest

/-- Breadth-first search and iterative deepening reach goals by shortest paths, under every policy,
and only exceed its depth if all goals lie deeper; so they agree on the length. -/
theorem nearestFirst_shortest [LawfulBEq σ] (P : Problem σ α κ) (strategy : Strategy σ α κ)
    (h : strategy.IsNearestFirst) (policy : TimedPolicy) :
    ((strategy.run P policy).isGoalReached = true →
      ∃ actions, (strategy.run P policy).solution? = some actions ∧ P.Shortest actions) ∧
    ((strategy.run P policy).termination = .depthBudgetExceeded →
      ∀ actions, P.Solution actions → policy.maxDepth < actions.length) ∧
    ∀ other : Strategy σ α κ, other.IsNearestFirst → ∀ policy' actions actions',
      (strategy.run P policy).solution? = some actions →
      (other.run P policy').solution? = some actions' → actions.length = actions'.length := by
  refine ⟨?_, (Strategy.nearest h P policy).exceeded, ?_⟩
  · intro hreached
    obtain ⟨id, hid⟩ := Result.isGoalReached_iff.1 hreached
    have hs := Result.solution?_eq_some.2 ⟨id, hid, rfl⟩
    exact ⟨_, hs, Strategy.solution_shortest h P policy hs⟩
  · intro other hother policy' actions actions' hs hs'
    obtain ⟨hsolution, hshortest⟩ := Strategy.solution_shortest h P policy hs
    obtain ⟨hsolution', hshortest'⟩ := Strategy.solution_shortest hother P policy' hs'
    exact (hshortest _ hsolution').antisymm (hshortest' _ hsolution)

/-- Two actions climb the stairs, as breadth-first search finds, and iterative deepening finds no
fewer; within one action neither finds any. -/
theorem stairs_shortest :
    ((Strategy.breadthFirstGraph.run stairs {}).solution? = some [1, 2] ∧
      stairs.Shortest [1, 2]) ∧
    ((Strategy.breadthFirstTree.run stairs { maxDepth := 1 }).termination = .depthBudgetExceeded ∧
      ∀ actions, stairs.Solution actions → 1 < actions.length) ∧
    ∀ actions, (Strategy.iterativeDeepening.run stairs {}).solution? = some actions →
      actions.length = 2 := by
  have hgraph : (Strategy.breadthFirstGraph.run stairs {}).solution? = some [1, 2] := by cbv
  have hreached : (Strategy.breadthFirstGraph.run stairs {}).isGoalReached = true := by cbv
  have htree : (Strategy.breadthFirstTree.run stairs { maxDepth := 1 }).termination =
      .depthBudgetExceeded := by cbv
  obtain ⟨hshortest, -, hagree⟩ :=
    nearestFirst_shortest stairs .breadthFirstGraph trivial {}
  obtain ⟨actions, hactions, hfewest⟩ := hshortest hreached
  cases Option.some.inj (hactions.symm.trans hgraph)
  refine ⟨⟨hgraph, hfewest⟩, ⟨htree, ?_⟩, ?_⟩
  · exact (nearestFirst_shortest stairs .breadthFirstTree trivial { maxDepth := 1 }).2.1 htree
  · intro actions hs
    exact (hagree .iterativeDeepening trivial {} _ _ hgraph hs).symm

end ProblemSolving
