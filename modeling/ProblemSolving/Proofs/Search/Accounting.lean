import Mathlib
import ProblemSolving.Proofs.Search.Budgets
import ProblemSolving.Proofs.Search.Exhaustion

/-!
# What becomes of the nodes of a tree or graph search

* `Exploration.Rounds` : rounds that follow each other, and the nodes that they expand.
* `Exploration.leftWaiting` : what still waits when a search ends.
* `Horizon.Settles` : each child that is offered waits, or is counted as dropped.
* `Exploration.Balanced` : every node was expanded, was dropped, or waits.
* `AdmittedOnce` : in a graph search each state was admitted once.
* `Exploration.Accounts`, `nodes_accounted` : so every node is accounted for, and an exhausted graph
  search expands each reachable state exactly once.
-/

namespace ProblemSolving

variable {σ α κ μ : Type} {δ : Type → Type} [Scalar κ] [Discipline δ κ]

/-! ## Rounds in a row -/

namespace Exploration

section
variable (P : Problem σ α κ) (policy : TimedPolicy) (memory : Memory σ μ)

/-- Rounds that follow each other and expand these nodes, each round one. -/
inductive Rounds : Exploration σ α κ μ δ → List (Placed σ α κ) → Exploration σ α κ μ δ → Prop
  | refl (s : Exploration σ α κ μ δ) : Rounds s [] s
  | tail {s s' s'' : Exploration σ α κ μ δ} {nodes : List (Placed σ α κ)} {here : Placed σ α κ}
      {rest : Frontier δ (Placed σ α κ)} {run : Run σ α κ} {kids : List (Placed σ α κ)}
      (before : Rounds s nodes s') (round : Round P policy memory s' here rest run kids s'') :
      Rounds s (nodes ++ [here]) s''

theorem exists_rounds (algorithm : String) : ∃ nodes s,
    Rounds P policy memory (start δ P policy memory) nodes s ∧
      Ends P s algorithm (exploreFromRoot δ P policy memory algorithm) := by
  obtain ⟨s, ⟨nodes, hrounds⟩, hends⟩ := exploreFromRoot_ends
    (I := fun s => ∃ nodes, Rounds P policy memory (start δ P policy memory) nodes s)
    (fun ⟨_, hrounds⟩ hround => ⟨_, hrounds.tail hround⟩) algorithm ⟨[], .refl _⟩
  exact ⟨nodes, s, hrounds, hends⟩

end

/-- What still waits when a search that has come to this point ends in `r`: what waited before,
without the goal if one was taken. -/
def leftWaiting (s : Exploration σ α κ μ δ) (r : Result σ α κ) : Frontier δ (Placed σ α κ) :=
  match r.isGoalReached, s.frontier.pop? κ with
  | true, some (_, rest) => rest
  | _, _ => s.frontier

variable {s : Exploration σ α κ μ δ} {here : Placed σ α κ} {rest : Frontier δ (Placed σ α κ)}

omit [Scalar κ] in
theorem leftWaiting_of_goal {r : Result σ α κ} (hr : r.isGoalReached = true)
    (hpop : s.frontier.pop? κ = some (here, rest)) : s.leftWaiting r = rest := by
  unfold leftWaiting
  rw [hr, hpop]

omit [Scalar κ] in
theorem leftWaiting_of_not_goal {r : Result σ α κ} (hr : r.isGoalReached = false) :
    s.leftWaiting r = s.frontier := by
  unfold leftWaiting
  rw [hr]

end Exploration

/-! ## Offers -/

variable [LawfulDiscipline δ κ]

/-- So many children were settled: each of them waits, or was counted as dropped. -/
structure Horizon.Settles (n : Nat) (h h' : Horizon σ α κ μ δ) : Prop where
  sound : h'.frontier.Sound κ
  generated : h'.stats.generated = h.stats.generated
  total : h'.stats.duplicates + h'.stats.depthSkipped + h'.frontier.size κ =
    h.stats.duplicates + h.stats.depthSkipped + h.frontier.size κ + n

namespace Horizon

variable {policy : TimedPolicy} {memory : Memory σ μ} {h h₁ h' : Horizon σ α κ μ δ} {m n : Nat}

omit [Scalar κ] in
theorem Settles.trans (hm : Settles m h h₁) (hn : Settles n h₁ h') : Settles (n + m) h h' where
  sound := hn.sound
  generated := hn.generated.trans hm.generated
  total := by
    rw [hn.total, hm.total]
    omega

omit [Scalar κ] in
theorem settles_dropped {stats : Stats} (sound : h.frontier.Sound κ) (seen : μ)
    (hgenerated : stats.generated = h.stats.generated)
    (hdropped : stats.duplicates + stats.depthSkipped =
      h.stats.duplicates + h.stats.depthSkipped + 1) :
    Settles 1 h ⟨stats, h.frontier, seen⟩ where
  sound := sound
  generated := hgenerated
  total := by
    show stats.duplicates + stats.depthSkipped + h.frontier.size κ = _
    rw [hdropped, Nat.add_right_comm]

omit [Scalar κ] in
theorem settles_admitted (sound : h.frontier.Sound κ) (seen : μ) (kid : Placed σ α κ) :
    Settles 1 h ⟨h.stats, h.frontier.push kid kid.node.cost, seen⟩ where
  sound := sound.push kid kid.node.cost
  generated := rfl
  total := by
    rw [sound.size_push]
    rfl

omit [Scalar κ] in
/-- Offers settle all the children. -/
theorem offer_settles (policy : TimedPolicy) (memory : Memory σ μ) (kids : List (Placed σ α κ))
    (h : Horizon σ α κ μ δ) (sound : h.frontier.Sound κ) :
    Settles kids.length h (Horizon.offer policy memory kids h) := by
  induction kids generalizing h with
  | nil => exact ⟨sound, rfl, rfl⟩
  | cons kid rest ih =>
    obtain ⟨stats, frontier, seen⟩ := h
    unfold Horizon.offer
    split
    · have hdeep : Settles 1 ⟨stats, frontier, seen⟩
          ⟨{ stats with depthSkipped := stats.depthSkipped + 1 }, frontier, seen⟩ :=
        settles_dropped sound seen rfl (Nat.add_assoc ..).symm
      exact hdeep.trans (ih _ sound)
    split
    next seen' _ =>
      have hadmitted := settles_admitted sound seen' kid
      exact hadmitted.trans (ih _ hadmitted.sound)
    next seen' _ =>
      have hrefused : Settles 1 ⟨stats, frontier, seen⟩
          ⟨{ stats with duplicates := stats.duplicates + 1 }, frontier, seen'⟩ :=
        settles_dropped sound seen' rfl (Nat.add_right_comm ..)
      exact hrefused.trans (ih _ sound)

omit [Scalar κ] [LawfulDiscipline δ κ] in
theorem duplicates_offer_forgetful (policy : TimedPolicy) (kids : List (Placed σ α κ))
    (h : Horizon σ α κ Unit δ) :
    (Horizon.offer policy .forgetful kids h).stats.duplicates = h.stats.duplicates := by
  induction kids generalizing h with
  | nil => rfl
  | cons kid rest ih =>
    unfold Horizon.offer
    split
    · exact ih _
    split
    · exact ih _
    next hrefused => cases hrefused

end Horizon

/-! ## The balance -/

namespace Exploration

variable {P : Problem σ α κ} {policy : TimedPolicy} {memory : Memory σ μ} {knows : μ → σ → Prop}
  {s s' : Exploration σ α κ μ δ} {here : Placed σ α κ} {rest : Frontier δ (Placed σ α κ)}
  {run : Run σ α κ} {kids nodes : List (Placed σ α κ)} {algorithm : String} {r : Result σ α κ}

/-- The nodes are the root and the children that were made, and each of them was expanded, was
dropped, or waits. -/
structure Balanced (s : Exploration σ α κ μ δ) : Prop where
  sound : s.frontier.Sound κ
  size : s.run.tree.size = 1 + s.run.stats.generated
  balance : 1 + s.run.stats.generated = s.run.stats.expansions +
    (s.run.stats.duplicates + s.run.stats.depthSkipped + s.frontier.size κ)

theorem balanced_start (P : Problem σ α κ) (policy : TimedPolicy) (memory : Memory σ μ) :
    (start δ P policy memory).Balanced where
  sound := Frontier.sound_empty.push _ _
  size := rfl
  balance := by
    have hempty : (Frontier.empty κ : Frontier δ (Placed σ α κ)).size κ = 0 := by
      rw [Frontier.sound_empty.size_eq, Frontier.items_empty]
      rfl
    show 1 + 0 = 0 + (0 + 0 + ((Frontier.empty κ).push (Run.start P policy).2 (0 : κ)).size κ)
    rw [Frontier.sound_empty.size_push, hempty]

/-- A round takes one node from those that wait, and settles its children. -/
theorem Balanced.round (h : s.Balanced) (hr : Round P policy memory s here rest run kids s') :
    s'.Balanced := by
  obtain ⟨hexpands, hrun⟩ := Run.expand_ok hr.expand
  have hone : run.stats.expansions = s.run.stats.expansions + 1 := by rw [hrun]; rfl
  have hmade : run.stats.generated = s.run.stats.generated + kids.length := by rw [hrun]; rfl
  have hdropped : run.stats.duplicates + run.stats.depthSkipped =
      s.run.stats.duplicates + s.run.stats.depthSkipped := by rw [hrun]; rfl
  obtain ⟨hrest, -⟩ := h.sound.pop? hr.pop
  have hpop := h.sound.size_pop? hr.pop
  have hexpansions :=
    (Horizon.sameWork_offer policy memory kids ⟨run.stats, rest, s.memory⟩).expansions
  obtain ⟨hsound, hgenerated, htotal⟩ :=
    Horizon.offer_settles policy memory kids ⟨run.stats, rest, s.memory⟩ hrest
  rw [hr.offers]
  generalize Horizon.offer policy memory kids ⟨run.stats, rest, s.memory⟩ = h' at *
  constructor
  case sound => exact hsound
  case size =>
    have hbefore : s.noted.tree.size = 1 + s.run.stats.generated := h.size
    show run.tree.size = 1 + h'.stats.generated
    rw [hexpands.size_eq, ← hexpands.length_eq, hbefore, hgenerated, hmade, Nat.add_assoc]
  case balance =>
    have hbefore := h.balance
    show 1 + h'.stats.generated = h'.stats.expansions +
      (h'.stats.duplicates + h'.stats.depthSkipped + h'.frontier.size κ)
    dsimp only at hexpansions hgenerated htotal
    omega

theorem Rounds.balanced (h : Rounds P policy memory s nodes s') (hs : s.Balanced) :
    s'.Balanced := by
  induction h with
  | refl => exact hs
  | tail _ hround ih => exact ih.round hround

omit [LawfulDiscipline δ κ] in
theorem Rounds.duplicates {s s' : Exploration σ α κ Unit δ}
    (h : Rounds P policy .forgetful s nodes s') :
    s'.run.stats.duplicates = s.run.stats.duplicates := by
  induction h with
  | refl => rfl
  | @tail before after _ here rest run kids _ hround ih =>
    have hexpand : run.stats.duplicates = before.run.stats.duplicates := by
      rw [(Run.expand_ok hround.expand).2]
      rfl
    rw [hround.offers]
    show (Horizon.offer policy .forgetful kids ⟨run.stats, rest, _⟩).stats.duplicates = _
    rw [Horizon.duplicates_offer_forgetful]
    exact hexpand.trans ih

/-! ## The expanded nodes -/

/-- The rounds from the start on expand the states of their nodes, and every step out of one of them
leads to one of them or to a state that waits. -/
theorem Rounds.explored (lawful : memory.Lawful knows)
    (h : Rounds P policy memory (start δ P policy memory) nodes s) :
    Explored P knows (· ∈ nodes.map (·.node.state)) s := by
  induction h with
  | refl =>
    have hnone : (· ∈ ([] : List (Placed σ α κ)).map (·.node.state)) = fun _ : σ => False := by
      funext state
      simp
    rw [hnone]
    exact explored_start lawful P policy
  | @tail _ _ nodes here _ _ _ _ hround ih =>
    have hone : (· ∈ (nodes ++ [here]).map (·.node.state)) =
        fun state => state ∈ nodes.map (·.node.state) ∨ state = here.node.state := by
      funext state
      simp
    rw [hone]
    exact ih.round lawful hround

theorem Explored.holds {E : σ → Prop} (h : Explored P knows E s)
    (hpop : s.frontier.pop? κ = some (here, rest)) : s.run.tree.Holds here :=
  h.held here ((h.sound.pop? hpop).2.mem_iff.2 (List.mem_cons_self ..))

theorem Rounds.visits (lawful : memory.Lawful knows)
    (h : Rounds P policy memory (start δ P policy memory) nodes s) :
    s.run.progress.Visits s.run.tree (nodes.map (·.node.state)) := by
  induction h with
  | refl => exact Run.visits_start P policy
  | @tail before _ nodes here rest run kids hbefore hround ih =>
    have hnoted : before.noted.progress.Visits before.noted.tree (nodes.map (·.node.state)) := ih
    have hheld : before.noted.tree.Holds here := (hbefore.explored lawful).holds hround.pop
    have hvisits := Run.visits_expand_ok hnoted hheld hround.expand
    have hsame : (afterOffers run (Horizon.offer policy memory kids
        ⟨run.stats, rest, before.memory⟩)).run.progress = run.progress :=
      congrArg (Progress.mk · run.events) (Horizon.sameWork_offer policy memory kids _).expansions
    rw [hround.offers, hsame, List.map_append]
    exact hvisits

omit [LawfulDiscipline δ κ] in
theorem Ends.keeps (hends : Ends P s algorithm r) : s.run.tree.Keeps r.tree := by
  cases hends with
  | @expansion here rest run violation pop expand =>
    have hkeeps := s.noted.keeps_expand P here here.node.cost
    rw [expand] at hkeeps
    exact hkeeps
  | _ => exact .refl _

omit [LawfulDiscipline δ κ] in
theorem Ends.duplicates (hends : Ends P s algorithm r) :
    r.stats.duplicates = s.run.stats.duplicates := by
  cases hends with
  | @expansion here rest run violation pop expand =>
    obtain ⟨hstats, -⟩ := Run.expand_error expand
    show run.stats.duplicates = s.run.stats.duplicates
    rw [hstats]
    rfl
  | _ => rfl

/-! ## The last round -/

/-- When the search ends, no node is lost. -/
theorem Ends.balance (hends : Ends P s algorithm r) (h : s.Balanced)
    (hr : ∀ violation, r.termination ≠ .contractViolation violation) :
    r.tree.size = 1 + r.stats.generated ∧
      1 + r.stats.generated = r.stats.expansions + r.stats.duplicates + r.stats.depthSkipped +
        (s.leftWaiting r).size κ + if r.isGoalReached then 1 else 0 := by
  have hbalance := h.balance
  have hwaits : ∀ termination, (∀ id, termination ≠ .goalReached id) →
      1 + s.run.stats.generated = s.run.stats.expansions + s.run.stats.duplicates +
        s.run.stats.depthSkipped +
        (s.leftWaiting (s.noted.finish algorithm termination)).size κ +
        if (s.noted.finish algorithm termination).isGoalReached then 1 else 0 := by
    intro termination hnot
    have hreached : (s.noted.finish algorithm termination).isGoalReached = false := by
      refine eq_false_of_ne_true fun hgoal => ?_
      obtain ⟨id, hid⟩ := Result.isGoalReached_iff.1 hgoal
      exact hnot id hid
    rw [leftWaiting_of_not_goal hreached, hreached, if_neg Bool.false_ne_true]
    omega
  cases hends with
  | emptied _ => exact ⟨h.size, hwaits _ fun id => Run.exhausted_ne_goalReached⟩
  | stopped termination hstop =>
    refine ⟨h.size, hwaits _ ?_⟩
    rcases hstop with rfl | rfl <;> simp
  | @goal here rest pop isGoal =>
    have hreached : (s.noted.finish algorithm (.goalReached here.id)).isGoalReached = true :=
      Result.isGoalReached_iff.2 ⟨here.id, rfl⟩
    have hpop := h.sound.size_pop? pop
    refine ⟨h.size, ?_⟩
    rw [leftWaiting_of_goal hreached pop, hreached]
    show 1 + s.run.stats.generated = s.run.stats.expansions + s.run.stats.duplicates +
      s.run.stats.depthSkipped + rest.size κ + 1
    omega
  | @expansion here rest run violation pop expand => exact absurd rfl (hr violation)

end Exploration

/-! ## States that are admitted once -/

section
variable [BEq σ] [Hashable σ]

/-- The states of the expanded nodes and of those that wait are distinct, and all of them were seen. -/
structure AdmittedOnce (nodes : List (Placed σ α κ)) (frontier : Frontier δ (Placed σ α κ))
    (seen : Std.HashSet σ) : Prop where
  sound : frontier.Sound κ
  nodup : ((nodes ++ frontier.items κ).map (·.node.state)).Nodup
  known : ∀ n ∈ nodes ++ frontier.items κ, n.node.state ∈ seen

namespace AdmittedOnce

variable {nodes : List (Placed σ α κ)} {frontier rest : Frontier δ (Placed σ α κ)}
  {seen : Std.HashSet σ} {here : Placed σ α κ}

omit [Scalar κ] in
theorem pop? (h : AdmittedOnce nodes frontier seen) (hpop : frontier.pop? κ = some (here, rest)) :
    AdmittedOnce (nodes ++ [here]) rest seen := by
  obtain ⟨hrest, hitems⟩ := h.sound.pop? hpop
  have hperm : (nodes ++ [here] ++ rest.items κ).Perm (nodes ++ frontier.items κ) := by
    rw [List.append_assoc]
    exact hitems.symm.append_left nodes
  refine ⟨hrest, (hperm.map _).nodup_iff.2 h.nodup, ?_⟩
  exact fun n hn => h.known n (hperm.mem_iff.1 hn)

variable [LawfulBEq σ]

omit [Scalar κ] in
theorem push (h : AdmittedOnce nodes frontier seen) (kid : Placed σ α κ) (f : κ)
    (hnew : kid.node.state ∉ seen) :
    AdmittedOnce nodes (frontier.push kid f) (seen.insert kid.node.state) := by
  have hperm : (nodes ++ (frontier.push kid f).items κ).Perm (kid :: (nodes ++ frontier.items κ)) :=
    ((h.sound.items_push kid f).append_left nodes).trans List.perm_middle
  refine ⟨h.sound.push kid f, (hperm.map _).nodup_iff.2 ?_, ?_⟩
  · refine List.nodup_cons.2 ⟨fun hmem => ?_, h.nodup⟩
    obtain ⟨n, hn, hstate⟩ := List.mem_map.1 hmem
    have hknown := h.known n hn
    rw [show n.node.state = kid.node.state from hstate] at hknown
    exact hnew hknown
  · intro n hn
    rw [Std.HashSet.mem_insert]
    rcases List.mem_cons.1 (hperm.mem_iff.1 hn) with rfl | hn
    · exact .inl (beq_self_eq_true _)
    · exact .inr (h.known n hn)

omit [Scalar κ] in
theorem offer (policy : TimedPolicy) (kids : List (Placed σ α κ))
    (waiting : Horizon σ α κ (Std.HashSet σ) δ)
    (h : AdmittedOnce nodes waiting.frontier waiting.memory) :
    AdmittedOnce nodes (Horizon.offer policy .seen kids waiting).frontier
      (Horizon.offer policy .seen kids waiting).memory := by
  induction kids generalizing waiting with
  | nil => exact h
  | cons kid others ih =>
    obtain ⟨stats, frontier, seen⟩ := waiting
    unfold Horizon.offer
    split
    · exact ih _ h
    split
    next seen' htake =>
      obtain ⟨hnew, rfl⟩ := Memory.take_seen_eq_true htake
      exact ih _ (h.push kid kid.node.cost hnew)
    next seen' htake =>
      obtain ⟨-, rfl⟩ := Memory.take_seen_eq_false htake
      exact ih _ h

end AdmittedOnce

namespace Exploration

variable {P : Problem σ α κ} {policy : TimedPolicy} {nodes : List (Placed σ α κ)}
  {s : Exploration σ α κ (Std.HashSet σ) δ}

theorem Rounds.admittedOnce [LawfulBEq σ]
    (h : Rounds P policy .seen (start δ P policy .seen) nodes s) :
    AdmittedOnce nodes s.frontier s.memory := by
  induction h with
  | refl =>
    have hsound : (Frontier.empty κ : Frontier δ (Placed σ α κ)).Sound κ := Frontier.sound_empty
    have hnone : AdmittedOnce [] (Frontier.empty κ : Frontier δ (Placed σ α κ))
        (Std.HashSet.emptyWithCapacity : Std.HashSet σ) := by
      refine ⟨hsound, ?_, ?_⟩
      · rw [Frontier.items_empty]
        exact List.nodup_nil
      · rw [Frontier.items_empty]
        simp
    exact hnone.push (Run.start P policy).2 0 Std.HashSet.not_mem_emptyWithCapacity
  | @tail before _ nodes here rest run kids _ hround ih =>
    rw [hround.offers]
    exact (ih.pop? hround.pop).offer policy kids ⟨run.stats, rest, before.memory⟩

theorem Rounds.nodup [LawfulBEq σ]
    (h : Rounds P policy .seen (start δ P policy .seen) nodes s) :
    (nodes.map (·.node.state)).Nodup := by
  have hall := h.admittedOnce.nodup
  rw [List.map_append] at hall
  exact hall.of_append_left

end Exploration

end

/-! ## Reachable states -/

namespace Exploration

variable {P : Problem σ α κ} {policy : TimedPolicy} {memory : Memory σ μ} {knows : μ → σ → Prop}
  {s : Exploration σ α κ μ δ} {nodes : List (Placed σ α κ)}

theorem Rounds.reachable (lawful : memory.Lawful knows)
    (h : Rounds P policy memory (start δ P policy memory) nodes s) :
    ∀ state ∈ nodes.map (·.node.state), P.Reachable state := by
  induction h with
  | refl => simp
  | @tail before _ nodes here rest run kids hbefore hround ih =>
    intro state hstate
    rw [List.map_append, List.mem_append] at hstate
    rcases hstate with hstate | hstate
    · exact ih state hstate
    · obtain rfl := List.mem_singleton.1 hstate
      have hexplored := hbefore.explored lawful
      exact hexplored.grown.reachable (hexplored.holds hround.pop)

/-- When nothing waits, and nothing was left out, the expanded states are the reachable ones. -/
theorem Rounds.mem_iff_reachable (lawful : memory.Lawful knows)
    (h : Rounds P policy memory (start δ P policy memory) nodes s)
    (hempty : s.frontier.items κ = []) (hskipped : s.run.stats.depthSkipped = 0) (state : σ) :
    state ∈ nodes.map (·.node.state) ↔ P.Reachable state :=
  ⟨h.reachable lawful state, (h.explored lawful).covers hempty hskipped⟩

end Exploration

/-! ## The searches -/

/-- The container that follows a discipline. -/
def Waiting.Container (κ : Type) : Waiting → Type → Type
  | queue => Queue
  | stack => Stack
  | ranked => Ranked κ

instance Waiting.instDiscipline : (waiting : Waiting) → Discipline (waiting.Container κ) κ
  | queue => inferInstanceAs (Discipline Queue κ)
  | stack => inferInstanceAs (Discipline Stack κ)
  | ranked => inferInstanceAs (Discipline (Ranked κ) κ)

instance Waiting.instLawfulDiscipline :
    (waiting : Waiting) → LawfulDiscipline (waiting.Container κ) κ
  | queue => inferInstanceAs (LawfulDiscipline Queue κ)
  | stack => inferInstanceAs (LawfulDiscipline Stack κ)
  | ranked => inferInstanceAs (LawfulDiscipline (Ranked κ) κ)

namespace Exploration

/-- A search from the root on has ended in `r`, after rounds that expanded these nodes and led to
`s`. The tree holds the root and the children that were made, and each of its nodes was expanded, was
dropped for its state or its depth, still waits, or is the goal. -/
structure Accounts (P : Problem σ α κ) (policy : TimedPolicy) (memory : Memory σ μ) (algorithm : String)
    (nodes : List (Placed σ α κ)) (s : Exploration σ α κ μ δ) (r : Result σ α κ) : Prop where
  rounds : Rounds P policy memory (start δ P policy memory) nodes s
  ends : Ends P s algorithm r
  visits : r.progress.Visits r.tree (nodes.map (·.node.state))
  size : r.tree.size = 1 + r.stats.generated
  balance : 1 + r.stats.generated = r.stats.expansions + r.stats.duplicates + r.stats.depthSkipped +
    (s.leftWaiting r).size κ + if r.isGoalReached then 1 else 0

theorem exists_accounts {memory : Memory σ μ} {knows : μ → σ → Prop} (lawful : memory.Lawful knows)
    (P : Problem σ α κ) (policy : TimedPolicy) (algorithm : String)
    (hr : ∀ violation, (exploreFromRoot δ P policy memory algorithm).termination ≠
      .contractViolation violation) :
    ∃ nodes, ∃ s : Exploration σ α κ μ δ,
      Accounts P policy memory algorithm nodes s (exploreFromRoot δ P policy memory algorithm) := by
  obtain ⟨nodes, s, hrounds, hends⟩ := exists_rounds (δ := δ) P policy memory algorithm
  obtain ⟨hsize, hbalance⟩ := hends.balance (hrounds.balanced (balanced_start P policy memory)) hr
  have hvisits := (hrounds.visits lawful).keeps hends.keeps
  rw [← hends.progress] at hvisits
  exact ⟨nodes, s, hrounds, hends, hvisits, hsize, hbalance⟩

end Exploration

theorem encard_setOf_mem {states : List σ} (h : states.Nodup) :
    {state | state ∈ states}.encard = states.length := by
  classical
  rw [← List.coe_toFinset, Set.encard_coe_eq_coe_finsetCard, List.toFinset_card_of_nodup h]

open Exploration in
/-- An exhausted graph search expanded each reachable state, and each of them once. -/
theorem Exploration.Accounts.encard_reachable [BEq σ] [Hashable σ] [LawfulBEq σ]
    {P : Problem σ α κ} {policy : TimedPolicy} {algorithm : String} {nodes : List (Placed σ α κ)}
    {s : Exploration σ α κ (Std.HashSet σ) δ} {r : Result σ α κ}
    (h : Accounts P policy .seen algorithm nodes s r) (hr : r.termination = .frontierExhausted) :
    {state | P.Reachable state}.encard = r.stats.expansions := by
  obtain ⟨hempty, hexhausted⟩ := h.ends.exhausted (.inl hr)
  rw [hr] at hexhausted
  have hskipped : s.run.stats.depthSkipped = 0 :=
    Run.exhausted_eq_frontierExhausted.1 hexhausted.symm
  have hitems : s.frontier.items κ = [] := h.rounds.admittedOnce.sound.items_eq_nil hempty
  have hreachable : {state | P.Reachable state} = {state | state ∈ nodes.map (·.node.state)} := by
    ext state
    exact (h.rounds.mem_iff_reachable Memory.lawful_seen hitems hskipped state).symm
  have hcount : r.stats.expansions = (nodes.map (·.node.state)).length := h.visits.count
  rw [hreachable, encard_setOf_mem h.rounds.nodup, hcount]

section
variable [BEq σ] [Hashable σ] [LawfulBEq σ]

open Exploration in
/-- **Tree and graph search account for every node.** Whatever waits first, and unless they come to a
violation, each node that they made was expanded, was dropped for its state or its depth, still
waits, or is the goal. A tree search drops none for its state, a graph search expands no state twice,
and if it exhausts its frontier, it made as many expansions as there are reachable states. -/
theorem nodes_accounted (P : Problem σ α κ) (policy : TimedPolicy) (waiting : Waiting) :
    (let r := (Strategy.tree waiting).run P policy;
      (∀ violation, r.termination ≠ .contractViolation violation) →
        ∃ nodes, ∃ s : Exploration σ α κ Unit (waiting.Container κ),
          Accounts P policy .forgetful "tree_search" nodes s r ∧ r.stats.duplicates = 0) ∧
    (let r := (Strategy.graph waiting).run P policy;
      (∀ violation, r.termination ≠ .contractViolation violation) →
        ∃ nodes, ∃ s : Exploration σ α κ (Std.HashSet σ) (waiting.Container κ),
          Accounts P policy .seen "graph_search" nodes s r ∧
          (nodes.map (·.node.state)).Nodup ∧
          (r.termination = .frontierExhausted →
            {state | P.Reachable state}.encard = r.stats.expansions)) := by
  have htree : (Strategy.tree waiting).run P policy = treeSearch (waiting.Container κ) P policy := by
    cases waiting <;> rfl
  have hgraph : (Strategy.graph waiting).run P policy =
      graphSearch (waiting.Container κ) P policy := by
    cases waiting <;> rfl
  rw [htree, hgraph]
  constructor
  · intro r hr
    obtain ⟨nodes, s, haccounts⟩ := exists_accounts (δ := waiting.Container κ)
      Memory.lawful_forgetful P policy "tree_search" hr
    exact ⟨nodes, s, haccounts, haccounts.ends.duplicates.trans haccounts.rounds.duplicates⟩
  · intro r hr
    obtain ⟨nodes, s, haccounts⟩ := exists_accounts (δ := waiting.Container κ)
      Memory.lawful_seen P policy "graph_search" hr
    exact ⟨nodes, s, haccounts, haccounts.rounds.nodup, haccounts.encard_reachable⟩

/-- Three states of the ring can be reached, as a graph search with any frontier counts; a tree search
goes on for as long as it may, and counts no duplicates. -/
theorem ring_accounted :
    ((∀ violation, ((Strategy.graph .ranked).run ring {}).termination ≠
        .contractViolation violation) ∧ {state | ring.Reachable state}.encard = (3 : Nat)) ∧
    (∀ violation, ((Strategy.tree .stack).run ring { maxExpansions := 4 }).termination ≠
        .contractViolation violation) ∧
      ((Strategy.tree .stack).run ring { maxExpansions := 4 }).tree.size = 1 + 8 ∧
      ((Strategy.tree .stack).run ring { maxExpansions := 4 }).stats.duplicates = 0 := by
  have hexhausted : ((Strategy.graph .ranked).run ring {}).termination = .frontierExhausted := by
    cbv
  have hexpansions : ((Strategy.graph .ranked).run ring {}).stats.expansions = 3 := by cbv
  have hspent : ((Strategy.tree .stack).run ring { maxExpansions := 4 }).termination =
      .expansionBudgetExceeded := by cbv
  have hgenerated : ((Strategy.tree .stack).run ring { maxExpansions := 4 }).stats.generated = 8 := by
    cbv
  have hgraph : ∀ violation, ((Strategy.graph .ranked).run ring {}).termination ≠
      .contractViolation violation := by simp [hexhausted]
  have htree : ∀ violation, ((Strategy.tree .stack).run ring { maxExpansions := 4 }).termination ≠
      .contractViolation violation := by simp [hspent]
  obtain ⟨-, hranked⟩ := nodes_accounted ring {} .ranked
  obtain ⟨hstack, -⟩ := nodes_accounted ring { maxExpansions := 4 } .stack
  obtain ⟨_, _, -, -, hcount⟩ := hranked hgraph
  obtain ⟨_, _, haccounts, hduplicates⟩ := hstack htree
  refine ⟨⟨hgraph, ?_⟩, htree, ?_, hduplicates⟩
  · rw [hcount hexhausted, hexpansions]
  · rw [haccounts.size, hgenerated]

end

end ProblemSolving
