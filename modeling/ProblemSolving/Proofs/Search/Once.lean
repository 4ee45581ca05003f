import Mathlib.Data.List.Nodup
import ProblemSolving.Proofs.Search.OpenClosed
import ProblemSolving.Proofs.Search.Progress

/-!
# States that are expanded once

A best-first search that never reopens a state expands none twice: a node is taken only while its
state is open, and closes it for good.

* `BestFirst.closed_offerAll_never` : no offer takes an expanded state back.
* `BestFirst.Once` : the expanded states are distinct and closed; `BestFirst.Once.turn` : every turn
  adds one.
* `bestFirst_once` : so it is when the search ends.
-/

namespace ProblemSolving

namespace BestFirst

variable {σ α κ : Type} [Scalar κ] [BEq σ] [Hashable σ]

/-! ## Offers to a search that never reopens -/

theorem closed_enterOpen (s : BestFirst σ α κ) (child : Placed σ α κ) (f : κ) :
    (s.enterOpen child f).closed = s.closed := by
  unfold enterOpen
  split
  · split <;> rfl
  · rfl

theorem reopened_enterOpen (s : BestFirst σ α κ) (child : Placed σ α κ) (f : κ) :
    (s.enterOpen child f).run.stats.reopened = s.run.stats.reopened := by
  unfold enterOpen
  split
  · split <;> rfl
  · rfl

theorem closed_offer_never (s : BestFirst σ α κ) (child : Placed σ α κ) (f : κ) :
    (s.offer .never child f).closed = s.closed := by
  unfold BestFirst.offer
  split
  · rfl
  · exact closed_enterOpen s child f

theorem reopened_offer_never (s : BestFirst σ α κ) (child : Placed σ α κ) (f : κ) :
    (s.offer .never child f).run.stats.reopened = s.run.stats.reopened := by
  unfold BestFirst.offer
  split
  · rfl
  · exact reopened_enterOpen s child f

section
variable (eval : Evaluation σ α κ) (policy : TimedPolicy) (s : BestFirst σ α κ)
  (kids : List (Placed σ α κ))

theorem closed_offerAll_never : (offerAll eval .never policy s kids).1.closed = s.closed := by
  induction kids generalizing s with
  | nil => rfl
  | cons child rest ih =>
    unfold offerAll
    split
    · exact ih s.skipDeep
    split
    · rfl
    · exact (ih _).trans (closed_offer_never s child _)

theorem reopened_offerAll_never :
    (offerAll eval .never policy s kids).1.run.stats.reopened = s.run.stats.reopened := by
  induction kids generalizing s with
  | nil => rfl
  | cons child rest ih =>
    unfold offerAll
    split
    · exact ih s.skipDeep
    split
    · rfl
    · exact (ih _).trans (reopened_offer_never s child _)

end

/-! ## The expanded states -/

/-- No state was reopened, and the expanded ones are distinct. -/
structure Distinct (run : Run σ α κ) (states : List σ) : Prop where
  visits : run.progress.Visits run.tree states
  nodup : states.Nodup
  reopened : run.stats.reopened = 0

/-- The expanded states are distinct, and closed. -/
structure Once (s : BestFirst σ α κ) (states : List σ) : Prop where
  distinct : Distinct s.run states
  closed : ∀ state ∈ states, state ∈ s.closed

variable {P : Problem σ α κ} {eval : Evaluation σ α κ} {policy : TimedPolicy} {s s' : BestFirst σ α κ}
  {here : Placed σ α κ} {f : κ} {rest : Frontier (Ranked κ) (Placed σ α κ)} {run : Run σ α κ}
  {kids : List (Placed σ α κ)} {states : List σ}

theorem once_start (P : Problem σ α κ) (policy : TimedPolicy) (f : κ) :
    Once ((fresh (Run.start P policy).1).enter (Run.start P policy).2 f) [] :=
  ⟨⟨Run.visits_start P policy, .nil, rfl⟩, by simp⟩

variable [LawfulBEq σ]

/-- A node that is expanded adds its state to those that were: being open, it was not among them. -/
theorem Once.expand (h : Once s states) (hsound : Sound P eval s)
    (hnext : s.next? = some (here, f, rest)) (hexpand : s.noted.expand P here f = (run, .ok kids)) :
    Distinct run (states ++ [here.node.state]) := by
  obtain ⟨hheld, -, hopen⟩ := hsound.next hnext
  have hnew : here.node.state ∉ states := by
    intro hmem
    have hclosed := Std.HashMap.getElem?_eq_some_getElem (h.closed _ hmem)
    cases hopen.symm.trans (hsound.apart _ _ hclosed)
  constructor
  case visits =>
    have hnoted : s.noted.progress.Visits s.noted.tree states := h.distinct.visits
    exact Run.visits_expand_ok hnoted hheld hexpand
  case nodup =>
    rw [← List.concat_eq_append]
    exact List.Nodup.concat hnew h.distinct.nodup
  case reopened =>
    rw [(Run.expand_ok hexpand).2]
    exact h.distinct.reopened

omit [LawfulBEq σ] in
theorem Distinct.offers (h : Distinct run states) {violation? : Option (Violation κ)}
    (hoffers : offerAll eval .never policy (s.close here rest run) kids = (s', violation?)) :
    Distinct s'.run states := by
  have htree := tree_offerAll eval .never policy (s.close here rest run) kids
  have hprogress := progress_offerAll eval .never policy (s.close here rest run) kids
  have hreopened := reopened_offerAll_never eval policy (s.close here rest run) kids
  rw [hoffers] at htree hprogress hreopened
  refine ⟨?_, h.nodup, hreopened.trans h.reopened⟩
  rw [htree, hprogress]
  exact h.visits

theorem Once.turn (h : Once s states) (hsound : Sound P eval s)
    (ht : Turn P eval .never policy s here f rest run kids s') :
    Once s' (states ++ [here.node.state]) := by
  refine ⟨(h.expand hsound ht.next ht.expand).offers ht.offers, ?_⟩
  have hclosed := closed_offerAll_never eval policy (s.close here rest run) kids
  rw [ht.offers] at hclosed
  have hclosed' : s'.closed = s.closed.insert here.node.state here.node.cost := hclosed
  intro state hstate
  rw [hclosed', Std.HashMap.mem_insert]
  rcases List.mem_append.1 hstate with hold | hnew
  · exact .inr (h.closed state hold)
  · exact .inl (beq_iff_eq.2 (List.mem_singleton.1 hnew).symm)

theorem Once.ends {algorithm : String} {r : Result σ α κ} (h : Once s states)
    (hsound : Sound P eval s) (hends : Ends P eval .never policy s algorithm r) :
    r.stats.reopened = 0 ∧ ∃ states, states.Nodup ∧ r.progress.Visits r.tree states := by
  have hfinish : ∀ {run : Run σ α κ} {states termination}, Distinct run states →
      (run.finish algorithm termination).stats.reopened = 0 ∧ ∃ states, states.Nodup ∧
        (run.finish algorithm termination).progress.Visits run.tree states := by
    intro run states termination hrun
    refine ⟨hrun.reopened, states, hrun.nodup, ?_⟩
    rw [Run.progress_finish]
    exact hrun.visits
  have hnoted : Distinct s.noted states :=
    ⟨h.distinct.visits, h.distinct.nodup, h.distinct.reopened⟩
  cases hends with
  | emptied => exact hfinish hnoted
  | stopped => exact hfinish hnoted
  | goal => exact hfinish hnoted
  | expansion _ expand =>
    have hstats := (Run.expand_error expand).1
    exact hfinish ⟨Run.visits_expand_error hnoted.visits expand, hnoted.nodup,
      (congrArg Stats.reopened hstats).trans hnoted.reopened⟩
  | evaluation next expand offers => exact hfinish ((h.expand hsound next expand).offers offers)

end BestFirst

/-- A search that never reopens a state expands none twice. -/
theorem bestFirst_once {σ α κ : Type} [Scalar κ] [BEq σ] [Hashable σ] [LawfulBEq σ]
    (P : Problem σ α κ) (eval : Evaluation σ α κ) (policy : TimedPolicy) (algorithm : String) :
    let r := bestFirst P eval .never policy algorithm
    r.stats.reopened = 0 ∧ ∃ states, states.Nodup ∧ r.progress.Visits r.tree states := by
  have hkeep : ∀ {s here f rest run kids s'}, BestFirst.Sound P eval s →
      (∃ states, BestFirst.Once s states) →
      BestFirst.Turn P eval .never policy s here f rest run kids s' →
      ∃ states, BestFirst.Once s' states := by
    rintro _ _ _ _ _ _ _ h ⟨states, hs⟩ ht
    exact ⟨_, hs.turn h ht⟩
  rcases BestFirst.bestFirst_ends algorithm
    (fun f _ => ⟨[], BestFirst.once_start P policy f⟩) hkeep with
    ⟨violation, -, hviolation⟩ | ⟨s, h, ⟨states, hs⟩, hends⟩
  · intro r
    have hr : r = _ := hviolation
    rw [hr, Run.progress_finish]
    exact ⟨rfl, [], .nil, Run.visits_start P policy⟩
  · exact hs.ends h hends

end ProblemSolving
