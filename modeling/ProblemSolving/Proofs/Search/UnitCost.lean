import Mathlib
import ProblemSolving.Proofs.Frontier.Arrivals
import ProblemSolving.Proofs.Number.Counting
import ProblemSolving.Proofs.Search.Iteration
import ProblemSolving.Proofs.Search.Layers
import ProblemSolving.Proofs.Search.UniformCost

/-!
# Uniform-cost search over unit costs

* `SearchTree.Grown.cost_eq_count` : if every action costs one, a node costs as much as it is deep.
* `InStep` : a best-first search by cost and a breadth-first graph search between two rounds.
* `InStep.offers`, `InStep.pop` : both offer the same children to the end of the line, and take its
  first node.
* `uniformCostSearch_breadthFirst` : the two searches are the same one.
-/

namespace ProblemSolving

open Scalar (count)
open BestFirst (byCost offerAll)

variable {σ α κ : Type} [Scalar κ]

/-- If every action costs one, a node costs as much as it is deep. -/
theorem SearchTree.Grown.cost_eq_count {P : Problem σ α κ} (unit : P.pathCost = Problem.unitCost)
    {t : SearchTree σ α κ} (hg : t.Grown P) {id : Nat} {node : Node σ α κ}
    (h : t.get? id = some node) : node.cost = count node.depth := by
  induction id using Nat.strongRecOn generalizing node with
  | _ id ih =>
    rcases hg id node h with rfl | ⟨parent, hlt, hparent, a, -, rfl⟩
    · rfl
    · have hcost := ih parent.id hlt hparent
      simp only [child, unit, Problem.unitCost, hcost]
      rfl

variable [BEq σ] [Hashable σ]

/-- The two searches have come equally far: the queue is the line in which the ranking waits, by
arrival, and the states that were seen are those that are open or closed. -/
structure InStep (s : BestFirst σ α κ) (e : Exploration σ α κ (Std.HashSet σ) Queue) : Prop where
  run : s.run = e.run
  highWater : s.frontier.highWater = e.frontier.highWater
  sound : e.frontier.Sound κ
  line : ∃ line, s.frontier.waiting.Lines line ∧ line.map (·.item) = e.frontier.items κ ∧
    ∀ x ∈ line, x.key.priority = x.item.node.cost
  opened : ∀ (state : σ) entry, s.opened[state]? = some entry ↔
    ∃ n ∈ e.frontier.items κ, n.node.state = state ∧ entry = ⟨n.id, n.node.cost⟩
  distinct : (e.frontier.items κ).Pairwise fun m n => m.node.state ≠ n.node.state
  seen : ∀ state : σ, state ∈ e.memory ↔
    (∃ g, s.closed[state]? = some g) ∨ ∃ n ∈ e.frontier.items κ, n.node.state = state

variable {P : Problem σ α κ} {policy : TimedPolicy} {s : BestFirst σ α κ}
  {e : Exploration σ α κ (Std.HashSet σ) Queue} {here kid : Placed σ α κ}
  {rest : Frontier Queue (Placed σ α κ)} {kids : List (Placed σ α κ)}

namespace InStep

theorem size_eq (h : InStep s e) : s.frontier.waiting.size = e.frontier.size κ := by
  obtain ⟨line, hline, hitems, -⟩ := h.line
  rw [hline.size_eq, h.sound.size_eq, ← hitems, List.length_map]

theorem noted (h : InStep s e) : s.noted = e.noted := by
  unfold BestFirst.noted Exploration.noted
  rw [h.run, h.highWater]

theorem isEmpty_iff [LawfulBEq σ] (h : InStep s e) :
    s.opened.isEmpty = true ↔ e.frontier.size κ = 0 := by
  rw [h.sound.size_eq, List.length_eq_zero_iff]
  constructor
  · intro hempty
    refine List.eq_nil_iff_forall_not_mem.2 fun n hn => ?_
    have hentry := (h.opened _ _).2 ⟨n, hn, rfl, rfl⟩
    cases hentry.symm.trans (Std.HashMap.getElem?_of_isEmpty hempty)
  · intro hnil
    refine Std.HashMap.isEmpty_iff_forall_not_mem.2 fun state hmem => ?_
    have hentry := Std.HashMap.getElem?_eq_some_getElem hmem
    obtain ⟨n, hn, -⟩ := (h.opened _ _).1 hentry
    rw [hnil] at hn
    cases hn

theorem skipDeep (h : InStep s e) : InStep s.skipDeep
    ⟨{ e.run with stats := { e.run.stats with depthSkipped := e.run.stats.depthSkipped + 1 } },
      e.frontier, e.memory⟩ :=
  ⟨by rw [BestFirst.skipDeep, h.run], h.highWater, h.sound, h.line, h.opened, h.distinct, h.seen⟩

theorem suppress (h : InStep s e) : InStep s.suppress
    ⟨{ e.run with stats := { e.run.stats with duplicates := e.run.stats.duplicates + 1 } },
      e.frontier, e.memory⟩ :=
  ⟨by rw [BestFirst.suppress, h.run], h.highWater, h.sound, h.line, h.opened, h.distinct, h.seen⟩

/-- A state that was seen is closed, or it waits at no greater cost; so its node is dropped. -/
theorem offer_of_mem (h : InStep s e) (hknown : kid.node.state ∈ e.memory)
    (hlast : ∀ n ∈ e.frontier.items κ, Scalar.le n.node.cost kid.node.cost = true) :
    s.offer .never kid kid.node.cost = s.suppress := by
  unfold BestFirst.offer
  rw [Std.HashMap.get?_eq_getElem?]
  rcases (h.seen _).1 hknown with ⟨g, hg⟩ | ⟨n, hn, hstate⟩
  · rw [hg]
    rfl
  · cases hclosed : s.closed[kid.node.state]? with
    | some g => rfl
    | none =>
      have hentry := (h.opened _ _).2 ⟨n, hn, hstate, rfl⟩
      dsimp only
      rw [BestFirst.enterOpen_of_some hentry, if_pos (hlast n hn)]

theorem offer_of_not_mem (h : InStep s e) (hnew : kid.node.state ∉ e.memory) :
    s.offer .never kid kid.node.cost = s.enter kid kid.node.cost := by
  have hunknown := mt (h.seen _).2 hnew
  unfold BestFirst.offer
  rw [Std.HashMap.get?_eq_getElem?]
  cases hclosed : s.closed[kid.node.state]? with
  | some g => exact absurd (.inl ⟨g, hclosed⟩) hunknown
  | none =>
    cases hopened : s.opened[kid.node.state]? with
    | none => exact BestFirst.enterOpen_of_none hopened
    | some entry =>
      obtain ⟨n, hn, hstate, -⟩ := (h.opened _ _).1 hopened
      exact absurd (.inr ⟨n, hn, hstate⟩) hunknown

variable [OrderedScalar κ] [LawfulBEq σ]

/-- A node of a new state that costs no less than what waits goes to the end of both lines. -/
theorem enter (h : InStep s e) (hnew : kid.node.state ∉ e.memory)
    (hlast : ∀ n ∈ e.frontier.items κ, (Scalar.rank n.node.cost kid.node.cost).isLE) :
    InStep (s.enter kid kid.node.cost)
      ⟨e.run, e.frontier.push kid kid.node.cost, e.memory.insert kid.node.state⟩ := by
  have hitems : (e.frontier.push kid kid.node.cost).items κ = e.frontier.items κ ++ [kid] :=
    Frontier.items_push_queue h.sound kid kid.node.cost
  have hfresh : ∀ n ∈ e.frontier.items κ, n.node.state ≠ kid.node.state :=
    fun n hn hstate => hnew ((h.seen _).2 (.inr ⟨n, hn, hstate⟩))
  have hsize := h.size_eq
  obtain ⟨line, hline, hmap, hpriority⟩ := h.line
  have hrank : ∀ y ∈ line, (Scalar.rank y.key.priority kid.node.cost).isLE := by
    intro y hy
    rw [hpriority y hy]
    exact hlast _ (hmap ▸ List.mem_map_of_mem hy)
  constructor
  case run => exact h.run
  case sound => exact h.sound.push _ _
  case highWater =>
    have hpush := (h.sound.push kid kid.node.cost).size_eq
    rw [hitems, List.length_append, ← h.sound.size_eq, ← hsize] at hpush
    show max s.frontier.highWater (s.frontier.waiting.size + 1) =
      max e.frontier.highWater ((e.frontier.push kid kid.node.cost).size κ)
    rw [hpush, h.highWater]
    rfl
  case line =>
    refine ⟨_, hline.add_last kid hrank, ?_, ?_⟩
    · rw [hitems, List.map_append, hmap]
      rfl
    · intro x hx
      rcases List.mem_append.1 hx with hold | hnew
      · exact hpriority x hold
      · rw [List.mem_singleton.1 hnew]
  case opened =>
    intro state entry
    rw [BestFirst.getElem?_enter, hitems]
    split
    next hstate =>
      obtain rfl := eq_of_beq hstate
      constructor
      · intro hentry
        exact ⟨kid, by simp, rfl, (Option.some.inj hentry).symm⟩
      · rintro ⟨n, hn, hstate, rfl⟩
        rcases List.mem_append.1 hn with hold | hnew
        · exact absurd hstate (hfresh n hold)
        · rw [List.mem_singleton.1 hnew]
    next hne =>
      rw [h.opened]
      constructor
      · rintro ⟨n, hn, hn'⟩
        exact ⟨n, List.mem_append_left _ hn, hn'⟩
      · rintro ⟨n, hn, hstate, hentry⟩
        rcases List.mem_append.1 hn with hold | hnew
        · exact ⟨n, hold, hstate, hentry⟩
        · rw [List.mem_singleton.1 hnew] at hstate
          exact absurd (beq_iff_eq.2 hstate) hne
  case distinct =>
    rw [hitems]
    refine List.pairwise_append.2 ⟨h.distinct, List.pairwise_singleton _ _, ?_⟩
    intro m hm n hn
    rw [List.mem_singleton.1 hn]
    exact hfresh m hm
  case seen =>
    intro state
    rw [Std.HashSet.mem_insert, h.seen, hitems]
    have hclosed : (s.enter kid kid.node.cost).closed = s.closed := rfl
    rw [hclosed]
    simp only [beq_iff_eq, List.mem_append, List.mem_singleton]
    constructor
    · rintro (rfl | hg | ⟨n, hn, hstate⟩)
      · exact .inr ⟨kid, .inr rfl, rfl⟩
      · exact .inl hg
      · exact .inr ⟨n, .inl hn, hstate⟩
    · rintro (hg | ⟨n, hn | rfl, hstate⟩)
      · exact .inr (.inl hg)
      · exact .inr (.inr ⟨n, hn, hstate⟩)
      · exact .inl hstate

/-- The first in line is live, and both searches take it. -/
theorem pop (h : InStep s e) (hpop : e.frontier.pop? κ = some (here, rest)) :
    ∃ frontier, s.next? = some (here, here.node.cost, frontier) ∧
      ∀ run, InStep (s.close here frontier run) ⟨run, rest, e.memory⟩ := by
  have hitems : e.frontier.items κ = here :: rest.items κ := Frontier.items_pop?_queue hpop
  obtain ⟨hsound, -⟩ := h.sound.pop? hpop
  have hentry : s.opened[here.node.state]? = some ⟨here.id, here.node.cost⟩ :=
    (h.opened _ _).2 ⟨here, by simp [hitems], rfl, rfl⟩
  have hdistinct := h.distinct
  rw [hitems] at hdistinct
  obtain ⟨hothers, hlater⟩ := List.pairwise_cons.1 hdistinct
  obtain ⟨line, hline, hmap, hpriority⟩ := h.line
  rw [hitems] at hmap
  obtain ⟨first, later, rfl, rfl, hrest⟩ := List.map_eq_cons_iff.1 hmap
  obtain ⟨waiting, hnext, hline'⟩ := hline.next?
  have hpop' : s.frontier.pop? κ = some (first.item, { s.frontier with waiting }) := by
    unfold Frontier.pop?
    show (s.frontier.waiting.next?).map _ = _
    rw [hnext]
    rfl
  have hlive : s.next? = some (first.item, first.item.node.cost, { s.frontier with waiting }) := by
    have hsize : s.frontier.size κ = later.length + 1 := hline.size_eq
    unfold BestFirst.next?
    rw [hsize, BestFirst.popLive?_of_entry hpop' hentry]
  refine ⟨_, hlive, fun run => ?_⟩
  constructor
  case run => rfl
  case highWater =>
    obtain ⟨_, _, hpair⟩ := Option.map_eq_some_iff.1 hpop
    obtain ⟨-, rfl⟩ := Prod.mk.inj hpair
    exact h.highWater
  case sound => exact hsound
  case line =>
    exact ⟨later, hline', hrest, fun x hx => hpriority x (List.mem_cons_of_mem _ hx)⟩
  case distinct => exact hlater
  case opened =>
    intro state entry
    show (s.opened.erase first.item.node.state)[state]? = some entry ↔ _
    rw [Std.HashMap.getElem?_erase]
    split
    next hstate =>
      obtain rfl := eq_of_beq hstate
      refine ⟨nofun, ?_⟩
      rintro ⟨n, hn, hsame, -⟩
      exact absurd hsame.symm (hothers n hn)
    next hne =>
      rw [h.opened, hitems]
      simp only [List.mem_cons, exists_eq_or_imp]
      refine or_iff_right ?_
      rintro ⟨hsame, -⟩
      exact hne (beq_iff_eq.2 hsame)
  case seen =>
    intro state
    show state ∈ e.memory ↔
      (∃ g, (s.closed.insert first.item.node.state first.item.node.cost)[state]? = some g) ∨ _
    rw [h.seen, hitems, Std.HashMap.getElem?_insert]
    simp only [List.mem_cons, exists_eq_or_imp]
    split
    next hstate => simp [eq_of_beq hstate]
    next hne =>
      have hne' : first.item.node.state ≠ state := fun hsame => hne (beq_iff_eq.2 hsame)
      simp [hne']

omit [OrderedScalar κ] in
theorem fresh (run : Run σ α κ) :
    InStep (BestFirst.fresh run) ⟨run, Frontier.empty κ, Std.HashSet.emptyWithCapacity⟩ := by
  have hitems : (Frontier.empty κ : Frontier Queue (Placed σ α κ)).items κ = [] :=
    Frontier.items_empty
  constructor
  case run => rfl
  case highWater => rfl
  case sound => exact Frontier.sound_empty
  case line => exact ⟨[], Ranked.lines_empty, hitems.symm, by simp⟩
  case opened => simp [BestFirst.fresh, hitems]
  case distinct => rw [hitems]; exact .nil
  case seen => simp [BestFirst.fresh, hitems]

end InStep

/-! ## Rounds in step -/

variable [CountingScalar κ] [LawfulBEq σ]

/-- Children that all lie one layer below what waits are offered alike. -/
theorem InStep.offers (policy : TimedPolicy) {depth : Nat} (h : InStep s e)
    (hitems : ∀ n ∈ e.frontier.items κ, n.node.cost = count n.node.depth ∧ n.node.depth ≤ depth)
    (hkids : ∀ kid ∈ kids, kid.node.cost = count kid.node.depth ∧ kid.node.depth = depth) :
    ∃ s', offerAll byCost .never policy s kids = (s', none) ∧
      InStep s' (Exploration.afterOffers e.run
        (Horizon.offer policy .seen kids ⟨e.run.stats, e.frontier, e.memory⟩)) := by
  induction kids generalizing s e with
  | nil => exact ⟨s, rfl, h⟩
  | cons kid rest ih =>
    obtain ⟨hcost, hdepth⟩ := hkids kid (List.mem_cons_self ..)
    have hrest := fun n hn => hkids n (List.mem_cons_of_mem kid hn)
    rw [offerAll, Horizon.offer]
    by_cases hdeep : policy.maxDepth < kid.node.depth
    · rw [if_pos hdeep, if_pos hdeep]
      exact ih h.skipDeep hitems hrest
    rw [if_neg hdeep, if_neg hdeep]
    dsimp only [byCost]
    by_cases hknown : kid.node.state ∈ e.memory
    · have htake : Memory.seen.take e.memory kid.node.state = (false, e.memory) :=
        if_pos (Std.HashSet.mem_iff_contains.1 hknown)
      have hle : ∀ n ∈ e.frontier.items κ, Scalar.le n.node.cost kid.node.cost = true := by
        intro n hn
        rw [(hitems n hn).1, hcost, hdepth]
        exact CountingScalar.count_le_count (hitems n hn).2
      rw [htake, h.offer_of_mem hknown hle]
      exact ih h.suppress hitems hrest
    · have htake : Memory.seen.take e.memory kid.node.state =
          (true, e.memory.insert kid.node.state) :=
        if_neg fun hcontains => hknown (Std.HashSet.mem_iff_contains.2 hcontains)
      have hrank : ∀ n ∈ e.frontier.items κ,
          (Scalar.rank n.node.cost kid.node.cost).isLE := by
        intro n hn
        rw [(hitems n hn).1, hcost, hdepth]
        exact CountingScalar.rank_count_count (hitems n hn).2
      rw [htake, h.offer_of_not_mem hknown]
      refine ih (h.enter hknown hrank) ?_ hrest
      intro n hn
      rw [Frontier.items_push_queue h.sound] at hn
      rcases List.mem_append.1 hn with hold | hnew
      · exact hitems n hold
      · rw [List.mem_singleton.1 hnew]
        exact ⟨hcost, hdepth.le⟩

/-- Two searches in step, of which the second one goes layer by layer. -/
def Marching (P : Problem σ α κ) (policy : TimedPolicy) (s : BestFirst σ α κ)
    (e : Exploration σ α κ (Std.HashSet σ) Queue) : Prop :=
  InStep s e ∧ e.Supported P policy ∧
    ∃ E layer, Exploration.Layered P policy (fun seen state => state ∈ seen) E layer e

theorem marching_start (P : Problem σ α κ) (policy : TimedPolicy) :
    Marching P policy ((BestFirst.fresh (Run.start P policy).1).enter (Run.start P policy).2 0)
      (Exploration.start Queue P policy .seen) := by
  refine ⟨?_, Exploration.supported_start P policy .seen, _, _,
    Exploration.layered_start Memory.lawful_seen P policy⟩
  have hnone : ∀ n, n ∉ (Frontier.empty κ : Frontier Queue (Placed σ α κ)).items κ := by
    rw [Frontier.items_empty]
    simp
  exact (InStep.fresh (Run.start P policy).1).enter Std.HashSet.not_mem_emptyWithCapacity
    fun n hn => absurd hn (hnone n)

theorem Marching.advance (unit : P.pathCost = Problem.unitCost) (h : Marching P policy s e)
    (hopen : s.opened.isEmpty = false) (algorithm algorithm' : String) :
    Sum.LiftRel Result.Agree (Marching P policy)
      ((BestFirst.iteration P byCost .never policy algorithm).advance s)
      ((Exploration.iteration P policy .seen algorithm').advance e) := by
  obtain ⟨hstep, hsupported, E, layer, hlayered⟩ := h
  have hnoted := hstep.noted
  cases hpop : e.frontier.pop? κ with
  | none =>
    have hempty := hstep.isEmpty_iff.2 (hstep.sound.size_eq.trans
      (congrArg List.length (hstep.sound.pop?_none hpop)))
    rw [hempty] at hopen
    contradiction
  | some popped =>
    obtain ⟨here, rest⟩ := popped
    obtain ⟨frontier, hnext, hclose⟩ := hstep.pop hpop
    dsimp only [BestFirst.iteration, Exploration.iteration]
    rw [hnext, hpop, hnoted]
    split
    · exact .inl (Run.agree_finish ..)
    dsimp only
    split
    · exact .inl (Run.agree_finish ..)
    next hgoal =>
    cases hexpand : e.noted.expand P here here.node.cost with
    | mk run outcome =>
      cases outcome with
      | error violation => exact .inl (Run.agree_finish ..)
      | ok kids =>
        have hround : Exploration.Round P policy .seen e here rest run kids _ :=
          ⟨hpop, eq_false_of_ne_true hgoal, hexpand, rfl⟩
        obtain ⟨hexpands, -⟩ := Run.expand_ok hexpand
        have hsupported' := hsupported.round hround
        obtain ⟨-, -, hspan⟩ := hlayered.taken hpop
        have hrest : ∀ n ∈ rest.items κ,
            n.node.cost = count n.node.depth ∧ n.node.depth ≤ here.node.depth + 1 := by
          intro n hn
          have hwaits : n ∈ e.frontier.items κ := by
            rw [Frontier.items_pop?_queue hpop]
            exact List.mem_cons_of_mem _ hn
          exact ⟨hsupported.2.grown.cost_eq_count unit (hsupported.2.held n hwaits),
            (hspan n hn).2⟩
        have hkids : ∀ kid ∈ kids,
            kid.node.cost = count kid.node.depth ∧ kid.node.depth = here.node.depth + 1 :=
          fun kid hkid => ⟨hsupported'.2.grown.cost_eq_count unit (hexpands.holds kid hkid),
            hexpands.depth_eq hkid⟩
        obtain ⟨s', hoffers, hstep'⟩ := (hclose run).offers policy hrest hkids
        dsimp only
        rw [hoffers]
        exact .inr ⟨hstep', hsupported', _, _, hlayered.round Memory.lawful_seen hround⟩

/-- Over unit costs, uniform-cost search is breadth-first search: it ends alike, at the same node,
with the same tree and the same counts, after the same expansions. -/
theorem uniformCostSearch_breadthFirst (P : Problem σ α κ)
    (unit : P.pathCost = Problem.unitCost) (policy : TimedPolicy) :
    (uniformCostSearch P policy).Agree (breadthFirstGraphSearch P policy) := by
  have hcheap : uniformCostSearch P policy =
      (BestFirst.iteration P byCost .never policy _).run policy.maxExpansions _ :=
    BestFirst.bestFirst_eq_run "uniform_cost_search" rfl policy.maxExpansions
  have hnear : breadthFirstGraphSearch P policy =
      (Exploration.iteration P policy .seen _).run policy.maxExpansions _ :=
    exploreFromRoot_eq_run P policy .seen "breadth_first_graph_search" policy.maxExpansions
  rw [hcheap, hnear]
  refine Iteration.run_related (fun _ => Marching P policy) ?_ ?_ ?_ _ (marching_start P policy)
  · intro _ s e ⟨hstep, _⟩
    dsimp only [BestFirst.iteration, Exploration.iteration]
    by_cases hempty : s.opened.isEmpty = true
    · rw [if_pos hempty, if_pos (hstep.isEmpty_iff.1 hempty), hstep.noted]
      exact .some (Run.agree_finish ..)
    · rw [if_neg hempty, if_neg fun hsize => hempty (hstep.isEmpty_iff.2 hsize)]
      exact .none
  · intro s e ⟨hstep, _⟩
    dsimp only [BestFirst.iteration, Exploration.iteration]
    rw [hstep.noted]
    exact Run.agree_finish ..
  · intro _ s e h hopen
    refine h.advance unit (eq_false_of_ne_true fun hempty => ?_) _ _
    rw [show (BestFirst.iteration P byCost .never policy _).ended? s = _ from if_pos hempty]
      at hopen
    cases hopen

/-- Seven places in a ring, the goal being the third one. -/
def ringOfSeven (κ : Type) [Scalar κ] : Problem Nat Bool κ where
  initial := 0
  actions _ := [true, false]
  result s forward := if forward then (s + 1) % 7 else (s + 6) % 7
  isGoal s := s == 3
  pathCost := Problem.unitCost
  heuristic := Problem.noEstimate

theorem ringOfSeven_breadthFirst :
    (ringOfSeven Double).pathCost = Problem.unitCost ∧
      (uniformCostSearch (ringOfSeven Double) { recordTrace := true }).Agree
        (breadthFirstGraphSearch (ringOfSeven Double) { recordTrace := true }) ∧
      (uniformCostSearch (ringOfSeven ℚ) {}).termination = .goalReached 7 := by
  have hreached : (breadthFirstGraphSearch (ringOfSeven ℚ) {}).termination = .goalReached 7 := by
    cbv
  have hagree := uniformCostSearch_breadthFirst (ringOfSeven ℚ) rfl {}
  exact ⟨rfl, uniformCostSearch_breadthFirst (ringOfSeven Double) rfl { recordTrace := true },
    hagree.termination.trans hreached⟩

end ProblemSolving
