import Mathlib.Data.List.Basic
import ProblemSolving.Proofs.Search.Budgets
import ProblemSolving.Proofs.Search.Recording
import ProblemSolving.Proofs.Search.Replay

/-!
# The record is a log of the search tree

* `Logs` : what a list of expansions tells of a tree and of the counts.
* `Logs.expands`, `Run.Logged.expand` : one more expansion is told behind those before.
* `Run.Logged.sameWork` : offers change neither the number of the expansions nor that of the children,
  so a run that is logged stays so.
* `Result.Faithful` : the outcome of a search, as its record tells it.
* `Strategy.growsOneTree` : the tree, graph and best-first searches.
* `trace_faithful` : each of them keeps a faithful record if it is asked to, and does the same by the
  same clock if it is not.
-/

namespace ProblemSolving

variable {σ α κ : Type}

/-! ## Logs of a tree -/

/-- The events are the expansions of nodes of the tree, in their order, with the depths of the nodes,
and their children are the nodes after the root, in the order in which they were made. -/
structure Logs (t : SearchTree σ α κ) (stats : Stats) (events : List (ExpandEvent κ)) : Prop where
  count : events.length = stats.expansions
  order : events.map (·.order) = List.range stats.expansions
  depth : ∀ e ∈ events, ∃ node, t.get? e.node = some node ∧ node.depth = e.depth
  children : ∀ e ∈ events, ∀ id ∈ e.children, e.node < id ∧
    ∃ child action, t.get? id = some child ∧ child.origin = some (e.node, action)
  generated : events.flatMap (·.children) = List.range' 1 stats.generated

namespace Logs

variable {t t' : SearchTree σ α κ} {stats stats' : Stats} {events : List (ExpandEvent κ)}

theorem nil (t : SearchTree σ α κ) : Logs t {} [] where
  count := rfl
  order := rfl
  depth := by simp
  children := by simp
  generated := rfl

theorem keeps (h : Logs t stats events) (hk : t.Keeps t') : Logs t' stats events where
  count := h.count
  order := h.order
  generated := h.generated
  depth e he := by
    obtain ⟨node, hnode, hdepth⟩ := h.depth e he
    exact ⟨node, hk _ _ hnode, hdepth⟩
  children e he id hid := by
    obtain ⟨hlt, child, action, hchild, horigin⟩ := h.children e he id hid
    exact ⟨hlt, child, action, hk _ _ hchild, horigin⟩

theorem congr (h : Logs t stats events) (hsame : stats.SameWork stats') : Logs t stats' events where
  count := h.count.trans hsame.expansions.symm
  order := by rw [hsame.expansions, h.order]
  depth := h.depth
  children := h.children
  generated := by rw [hsame.generated, h.generated]

variable [Scalar κ] {P : Problem σ α κ} {parent : Placed σ α κ} {kids : List (Placed σ α κ)}

/-- One more expansion of a node of the tree is told behind those before. -/
theorem expands (h : Logs t stats events) (hsize : t.size = 1 + stats.generated)
    (hheld : t.Holds parent) (hexpands : SearchTree.Expands P t parent t' kids) (f : κ) :
    Logs t' { stats with
        expansions := stats.expansions + 1
        generated := stats.generated + kids.length }
      (events ++ [⟨events.length, parent.id, parent.node.depth, f, kids.map (·.id)⟩]) := by
  have hbefore := h.keeps hexpands.keeps
  have hids : kids.map (·.id) = List.range' (1 + stats.generated) kids.length := by
    rw [hexpands.map_id, hsize]
  constructor
  case count => simp [h.count]
  case order =>
    rw [List.map_append, h.order, List.range_succ, h.count]
    rfl
  case depth =>
    intro e he
    obtain he | rfl := List.mem_append.1 he |>.imp_right List.mem_singleton.1
    · exact hbefore.depth e he
    · exact ⟨parent.node, hheld.keeps hexpands.keeps, rfl⟩
  case children =>
    intro e he
    obtain he | rfl := List.mem_append.1 he |>.imp_right List.mem_singleton.1
    · exact hbefore.children e he
    intro id hid
    obtain ⟨kid, hkid, rfl⟩ := List.mem_map.1 hid
    obtain ⟨action, -, hchild⟩ := hexpands.exists_action hkid
    have hlt : parent.id < kid.id :=
      Nat.lt_of_lt_of_le (SearchTree.get?_lt hheld) (hexpands.size_le_id hkid)
    refine ⟨hlt, kid.node, action, hexpands.holds kid hkid, ?_⟩
    rw [← hchild]
    rfl
  case generated =>
    rw [List.flatMap_append, h.generated, List.flatMap_singleton, hids, ← List.range'_append_1]

end Logs

/-! ## Logged runs -/

namespace Run

/-- The run keeps a log of its tree, which holds the root and the children that were counted. -/
structure Logged (run : Run σ α κ) : Prop where
  size : run.tree.size = 1 + run.stats.generated
  log : ∃ events, run.log = some events ∧ Logs run.tree run.stats events.toList

variable {run run' : Run σ α κ}

theorem Logged.sameWork (h : run.Logged) (hsame : run.SameWork run') : run'.Logged := by
  obtain ⟨events, hevents, hlogs⟩ := h.log
  constructor
  case size => rw [hsame.tree, hsame.stats.generated, h.size]
  case log =>
    refine ⟨events, hsame.log.trans hevents, ?_⟩
    rw [hsame.tree]
    exact hlogs.congr hsame.stats

theorem Logged.noteHighWater (h : run.Logged) (size : Nat) : (run.noteHighWater size).Logged :=
  h.sameWork (.of_stats ⟨rfl, rfl⟩)

variable [Scalar κ] {P : Problem σ α κ} {policy : TimedPolicy} {parent : Placed σ α κ} {f : κ}

theorem logged_start (P : Problem σ α κ) (hpolicy : policy.recordTrace = true) :
    (start P policy).1.Logged := by
  refine ⟨rfl, #[], ?_, Logs.nil _⟩
  show (if policy.recordTrace then some #[] else none) = some (#[] : Array (ExpandEvent κ))
  rw [if_pos hpolicy]

/-- A run that is logged still is after an expansion. -/
theorem Logged.expand {kids : List (Placed σ α κ)} (h : run.Logged) (hheld : run.tree.Holds parent)
    (hexpand : run.expand P parent f = (run', .ok kids)) : run'.Logged := by
  obtain ⟨events, hevents, hlogs⟩ := h.log
  obtain ⟨hexpands, hrun⟩ := expand_ok hexpand
  have hlogged := hlogs.expands h.size hheld hexpands f
  rw [hrun]
  constructor
  case size =>
    show run'.tree.size = 1 + (run.stats.generated + kids.length)
    rw [hexpands.size_eq, hexpands.length_eq, h.size, Nat.add_assoc]
  case log =>
    refine ⟨_, congrArg (Option.map _) hevents, ?_⟩
    rw [Array.toList_push]
    exact hlogged

end Run

/-! ## Faithful records -/

/-- What a search records is its outcome: the log of its tree and counts, and why it ended. Besides the
root and the counted children there are nodes in the tree only if a step that lowers the cost ended
the search. -/
structure Result.Faithful (r : Result σ α κ) : Prop where
  trace : ∃ trace, r.trace = some trace ∧ Logs r.tree r.stats trace.events ∧
    trace.termination = some r.termination.label
  size_le : 1 + r.stats.generated ≤ r.tree.size
  size_eq : (∀ depth step, r.termination ≠ .contractViolation (.negativeStepCost depth step)) →
    r.tree.size = 1 + r.stats.generated

namespace Run

variable {run run' : Run σ α κ} {algorithm : String}

theorem Logged.finish (h : run.Logged) (algorithm : String) (termination : Termination κ) :
    (run.finish algorithm termination).Faithful := by
  obtain ⟨events, hevents, hlogs⟩ := h.log
  refine ⟨⟨_, congrArg (Option.map _) hevents, hlogs, rfl⟩, ?_, fun _ => h.size⟩
  exact Nat.le_of_eq h.size.symm

variable [Scalar κ] {P : Problem σ α κ} {parent : Placed σ α κ} {f : κ}

/-- The children that a failing expansion leaves in the tree are neither counted nor recorded. -/
theorem Logged.finish_error {violation : Violation κ} (h : run.Logged)
    (hexpand : run.expand P parent f = (run', .error violation)) :
    (run'.finish algorithm (.contractViolation violation)).Faithful := by
  obtain ⟨events, hevents, hlogs⟩ := h.log
  obtain ⟨hstats, hlog⟩ := expand_error hexpand
  obtain ⟨made, -, htree⟩ := tree_expand_error hexpand
  have hkeeps : run.tree.Keeps run'.tree := htree ▸ run.tree.keeps_pushAll made
  constructor
  case trace =>
    refine ⟨_, congrArg (Option.map _) (hlog.trans hevents), ?_, rfl⟩
    show Logs run'.tree run'.stats events.toList
    rw [hstats]
    exact hlogs.keeps hkeeps
  case size_le =>
    show 1 + run'.stats.generated ≤ run'.tree.size
    rw [hstats, htree, SearchTree.size_pushAll, ← h.size]
    exact Nat.le_add_right ..
  case size_eq =>
    intro hviolation
    have hsame : run'.tree = run.tree := by
      refine tree_expand_error_eq hexpand fun depth step hfalls => ?_
      exact hviolation depth step (congrArg Termination.contractViolation hfalls)
    show run'.tree.size = 1 + run'.stats.generated
    rw [hsame, hstats, h.size]

end Run

/-! ## Tree and graph search -/

section
variable [Scalar κ] {μ : Type} {δ : Type → Type} [Discipline δ κ] {P : Problem σ α κ}
  {policy : TimedPolicy} {memory : Memory σ μ} {s s' : Exploration σ α κ μ δ} {here : Placed σ α κ}
  {rest : Frontier δ (Placed σ α κ)} {run : Run σ α κ} {kids : List (Placed σ α κ)}

theorem Exploration.Round.logged (hr : Round P policy memory s here rest run kids s')
    (h : s.run.Logged) (hheld : s.run.tree.Holds here) : s'.run.Logged := by
  have hexpanded : run.Logged := (h.noteHighWater _).expand hheld hr.expand
  rw [hr.offers]
  exact hexpanded.sameWork
    (.of_stats (Horizon.sameWork_offer policy memory kids ⟨run.stats, rest, s.memory⟩))

theorem Exploration.Ends.faithful {algorithm : String} {r : Result σ α κ}
    (hends : Ends P s algorithm r) (h : s.run.Logged) : r.Faithful := by
  have hnoted : s.noted.Logged := h.noteHighWater _
  cases hends with
  | expansion _ expand => exact hnoted.finish_error expand
  | _ => exact hnoted.finish ..

theorem exploreFromRoot_faithful [LawfulDiscipline δ κ] (P : Problem σ α κ)
    (hpolicy : policy.recordTrace = true) (memory : Memory σ μ) (algorithm : String) :
    (exploreFromRoot δ P policy memory algorithm).Faithful := by
  obtain ⟨s, ⟨-, hlogged⟩, hends⟩ := Exploration.exploreFromRoot_ends
    (I := fun s : Exploration σ α κ μ δ => s.Supported P policy ∧ s.run.Logged)
    (fun ⟨hsupported, hlogged⟩ hr =>
      ⟨hsupported.round hr, hr.logged hlogged (hsupported.holds hr.pop)⟩)
    algorithm ⟨Exploration.supported_start P policy memory, Run.logged_start P hpolicy⟩
  exact hends.faithful hlogged

end

/-! ## Best-first search -/

section
variable [Scalar κ] [BEq σ] [Hashable σ] {P : Problem σ α κ} {eval : Evaluation σ α κ}
  {reopening : Reopening} {policy : TimedPolicy} {s s' : BestFirst σ α κ} {here : Placed σ α κ} {f : κ}
  {rest : Frontier (Ranked κ) (Placed σ α κ)} {run : Run σ α κ} {kids : List (Placed σ α κ)}

namespace BestFirst

theorem logged_offers {violation? : Option (Violation κ)} (h : s.run.Logged)
    (hheld : s.run.tree.Holds here) (hexpand : s.noted.expand P here f = (run, .ok kids))
    (hoffers : offerAll eval reopening policy (s.close here rest run) kids = (s', violation?)) :
    s'.run.Logged := by
  have hexpanded : run.Logged := (h.noteHighWater _).expand hheld hexpand
  have hsame := sameWork_offerAll eval reopening policy (s.close here rest run) kids
  rw [hoffers] at hsame
  exact hexpanded.sameWork hsame

theorem Ends.faithful {algorithm : String} {r : Result σ α κ}
    (hends : Ends P eval reopening policy s algorithm r) (h : s.run.Logged)
    (hsupported : s.Supported P policy) : r.Faithful := by
  have hnoted : s.noted.Logged := h.noteHighWater _
  cases hends with
  | expansion _ expand => exact hnoted.finish_error expand
  | evaluation next expand offers =>
    exact (logged_offers h (hsupported.holds next) expand offers).finish ..
  | _ => exact hnoted.finish ..

end BestFirst

theorem bestFirst_faithful (P : Problem σ α κ) (eval : Evaluation σ α κ) (reopening : Reopening)
    (hpolicy : policy.recordTrace = true) (algorithm : String) :
    (bestFirst P eval reopening policy algorithm).Faithful := by
  have hstart : (Run.start P policy).1.Logged := Run.logged_start P hpolicy
  rcases BestFirst.bestFirst_ends_of_turns algorithm
    (I := fun s => s.Supported P policy ∧ s.run.Logged)
    (fun f _ => ⟨BestFirst.supported_start P policy f, hstart⟩)
    (fun ⟨hsupported, hlogged⟩ ht => ⟨hsupported.turn ht,
      BestFirst.logged_offers hlogged (hsupported.holds ht.next) ht.expand ht.offers⟩) with
    ⟨violation, -, hviolation⟩ | ⟨s, ⟨hsupported, hlogged⟩, hends⟩
  · rw [hviolation]
    exact hstart.finish ..
  · exact hends.faithful hlogged hsupported

end

/-! ## All strategies -/

variable [Scalar κ] [BEq σ] [Hashable σ]

/-- Whether a strategy is a tree, graph or best-first search: one that grows a single tree from the
root. -/
def Strategy.growsOneTree : Strategy σ α κ → Bool
  | depthLimited _ => false
  | iterativeDeepening => false
  | _ => true

/-- A search that keeps a faithful record if it is asked to, and does the same without it as long as it
reads the same times from its clock. -/
structure Records (search : TimedPolicy → Result σ α κ) : Prop where
  faithful : ∀ policy, policy.recordTrace = true → (search policy).Faithful
  silent : ∀ policy, search { policy with recordTrace := false } = { search policy with trace := none }

section
variable (P : Problem σ α κ)

omit [BEq σ] [Hashable σ] in
theorem exploreFromRoot_records {μ : Type} (δ : Type → Type) [Discipline δ κ] [LawfulDiscipline δ κ]
    (memory : Memory σ μ) (algorithm : String) :
    Records fun policy => exploreFromRoot δ P policy memory algorithm where
  faithful _ hpolicy := exploreFromRoot_faithful P hpolicy memory algorithm
  silent policy := (exploreFromRoot_silent P policy memory algorithm).symm

theorem bestFirst_records (eval : Evaluation σ α κ) (reopening : Reopening) (algorithm : String) :
    Records fun policy => bestFirst P eval reopening policy algorithm where
  faithful _ hpolicy := bestFirst_faithful P eval reopening hpolicy algorithm
  silent policy := (bestFirst_silent P eval reopening policy algorithm).symm

/-- **The record is a faithful log of the search tree.** Any tree or graph search, with whatever frontier,
and any best-first search that is asked for a record keeps one whose events are its expansions: they
are numbered in order, each has the depth of its node, its children are later nodes that it is the
parent of, and all of them together are the nodes after the root. The record ends with the label of
the termination. By the same clock the search does the same without it, also if its time runs out on
the way. -/
theorem trace_faithful :
    (∀ (δ : Type → Type) [Discipline δ κ] [LawfulDiscipline δ κ],
      Records (treeSearch δ P) ∧ Records (graphSearch δ P)) ∧
    (∀ strategy : Strategy σ α κ, strategy.growsOneTree = true → Records (strategy.run P)) := by
  refine ⟨fun δ _ _ => ⟨exploreFromRoot_records P δ .forgetful "tree_search",
    exploreFromRoot_records P δ .seen "graph_search"⟩, ?_⟩
  intro strategy hstrategy
  cases strategy with
  | tree waiting => cases waiting <;> exact exploreFromRoot_records P _ _ _
  | graph waiting => cases waiting <;> exact exploreFromRoot_records P _ _ _
  | breadthFirstTree => exact exploreFromRoot_records P _ _ _
  | breadthFirstGraph => exact exploreFromRoot_records P _ _ _
  | depthFirstTree => exact exploreFromRoot_records P _ _ _
  | depthFirstGraph => exact exploreFromRoot_records P _ _ _
  | cappedBreadthFirstTree =>
    have hrecords := exploreFromRoot_records P Queue .forgetful "breadth_first_tree_search"
    let capped (policy : TimedPolicy) : TimedPolicy :=
      { policy with maxExpansions := min policy.maxExpansions treeSearchCap }
    exact ⟨fun policy => hrecords.faithful (capped policy), fun policy => hrecords.silent (capped policy)⟩
  | bestFirst eval reopening => exact bestFirst_records P eval reopening _
  | uniformCost => exact bestFirst_records P (fun node => .ok node.cost) .never _
  | greedy => exact bestFirst_records P (checkedHeuristic P) .never _
  | astar => exact bestFirst_records P (fun node => (checkedHeuristic P node).map (node.cost + ·)) _ _
  | depthLimited => cases hstrategy
  | iterativeDeepening => cases hstrategy

end

/-- Two seconds, of which each expansion takes one. -/
def twoSeconds : TimedPolicy :=
  { timeLimit := some ⟨2, 0⟩, recordTrace := true, clock := fun expansions => ⟨expansions, 0⟩ }

/-- The record of a graph search up the stairs tells of the six nodes that it made. A search whose clock
stops it after two expansions is the same without its record. -/
theorem stairs_recorded :
    (Strategy.breadthFirstGraph : Strategy Nat Nat ℚ).growsOneTree = true ∧
      (let r := Strategy.breadthFirstGraph.run stairs { recordTrace := true };
        ∃ trace, r.trace = some trace ∧ trace.events.length = 3 ∧
          trace.events.flatMap (·.children) = [1, 2, 3, 4, 5, 6] ∧
          trace.termination = some "goal_reached" ∧ r.tree.size = 7) ∧
      let r := Strategy.breadthFirstGraph.run stairs twoSeconds;
      r.termination = .timeBudgetExceeded ∧ r.stats.expansions = 2 ∧
        Strategy.breadthFirstGraph.run stairs { twoSeconds with recordTrace := false } =
          { r with trace := none } := by
  have hstrategy : (Strategy.breadthFirstGraph : Strategy Nat Nat ℚ).growsOneTree = true := rfl
  have hfinished : let r := Strategy.breadthFirstGraph.run stairs { recordTrace := true }
      r.termination = .goalReached 4 ∧ r.stats.expansions = 3 ∧ r.stats.generated = 6 := by cbv
  have hstopped : let r := Strategy.breadthFirstGraph.run stairs twoSeconds
      r.termination = .timeBudgetExceeded ∧ r.stats.expansions = 2 := by cbv
  obtain ⟨hreached, hexpansions, hgenerated⟩ := hfinished
  obtain ⟨hlate, htwo⟩ := hstopped
  obtain ⟨-, hrecords⟩ := trace_faithful stairs
  obtain ⟨⟨trace, htrace, hlogs, hend⟩, -, hsize⟩ :=
    (hrecords _ hstrategy).faithful { recordTrace := true } rfl
  refine ⟨hstrategy, ⟨trace, htrace, hlogs.count.trans hexpansions, ?_, ?_, ?_⟩, hlate, htwo,
    (hrecords _ hstrategy).silent twoSeconds⟩
  · rw [hlogs.generated, hgenerated]
    rfl
  · rw [hend, hreached]
    rfl
  · rw [hsize (by simp [hreached]), hgenerated]

end ProblemSolving
