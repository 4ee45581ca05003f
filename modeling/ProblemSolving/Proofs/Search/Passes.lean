import Mathlib.Logic.Relation
import ProblemSolving.Proofs.Search.Iteration
import ProblemSolving.Proofs.Search.OpenClosed

/-!
# Best-first search, one entry at a time

A turn of best-first search goes past the stale entries to the next live one. Here each pass takes one
entry from the frontier, live or stale, and asks before it whether a state is open and whether the
budget is spent.

* `BestFirst.pass`, `BestFirst.Passes` : one pass, and passes that follow each other.
* `BestFirst.Head` : the search at the head of a pass.
* `BestFirst.pass_cases` : a pass that goes on skips a stale entry, or is a turn.
* `BestFirst.Pops.passes`, `BestFirst.Head.turn` : the passes up to the next live entry only skip, and
  the one after them makes the turn.
* `BestFirst.bestFirst_passes` : best-first search ends as its last pass does.
-/

namespace ProblemSolving

namespace BestFirst

variable {σ α κ : Type} [Scalar κ] [BEq σ] [Hashable σ]

/-- The search after a stale entry was taken from the frontier. -/
def skip (s : BestFirst σ α κ) (rest : Frontier (Ranked κ) (Placed σ α κ)) : BestFirst σ α κ :=
  ⟨s.noted, rest, s.opened, s.closed⟩

section
variable (P : Problem σ α κ) (eval : Evaluation σ α κ) (reopening : Reopening) (policy : TimedPolicy)
  (algorithm : String)

/-- What comes of a live node that is taken: the outcome, or the search after its expansion. -/
def take (s : BestFirst σ α κ) (here : Placed σ α κ) (f : κ)
    (rest : Frontier (Ranked κ) (Placed σ α κ)) : Result σ α κ ⊕ BestFirst σ α κ :=
  if P.isGoal here.node.state then .inl (s.noted.finish algorithm (.goalReached here.id))
  else match s.noted.expand P here f with
  | (run, .error violation) => .inl (run.finish algorithm (.contractViolation violation))
  | (run, .ok kids) =>
    match offerAll eval reopening policy (s.close here rest run) kids with
    | (s', some violation) => .inl (s'.run.finish algorithm (.contractViolation violation))
    | (s', none) => .inr s'

/-- What a pass comes to that takes one entry: the outcome, or the search at the head of the next
pass. -/
def pass (s : BestFirst σ α κ) : Result σ α κ ⊕ BestFirst σ α κ :=
  if s.opened.isEmpty then .inl (s.noted.finish algorithm s.noted.exhausted)
  else match policy.stop? s.noted.stats.expansions with
  | some stop => .inl (s.noted.finish algorithm stop)
  | none =>
    match s.frontier.pop? κ with
    | none => .inl (s.noted.finish algorithm s.noted.exhausted)
    | some (x, rest) =>
      match s.opened[x.node.state]? with
      | some entry =>
        if entry.node = x.id then s.take P eval reopening policy algorithm x entry.f rest
        else .inr (s.skip rest)
      | none => .inr (s.skip rest)

/-- Passes lead from one search to another. -/
def Passes : BestFirst σ α κ → BestFirst σ α κ → Prop :=
  Relation.ReflTransGen fun s s' => s.pass P eval reopening policy algorithm = .inr s'

/-- The search is at the head of a pass. -/
def Head (s : BestFirst σ α κ) : Prop :=
  ∃ f, eval (SearchTree.rootNode P.initial) = .ok f ∧ Passes P eval reopening policy algorithm
    ((fresh (Run.start P policy).1).enter (Run.start P policy).2 f) s

end

variable {P : Problem σ α κ} {eval : Evaluation σ α κ} {reopening : Reopening} {policy : TimedPolicy}
  {algorithm : String} {s s' : BestFirst σ α κ} {here x : Placed σ α κ} {f : κ}
  {rest : Frontier (Ranked κ) (Placed σ α κ)}

/-! ## One pass -/

omit [Scalar κ] [BEq σ] [Hashable σ] in
theorem noteHighWater_twice (run : Run σ α κ) (size : Nat) :
    (run.noteHighWater size).noteHighWater size = run.noteHighWater size := by
  simp [Run.noteHighWater]

theorem noted_skip (hpop : s.frontier.pop? κ = some (x, rest)) : (s.skip rest).noted = s.noted := by
  show (s.run.noteHighWater s.frontier.highWater).noteHighWater rest.highWater = s.noted
  rw [Frontier.highWater_pop? hpop]
  exact noteHighWater_twice _ _

theorem pass_of_stale (hopen : s.opened.isEmpty = false)
    (hstop : (policy.stop? s.noted.stats.expansions : Option (Termination κ)) = none)
    (hpop : s.frontier.pop? κ = some (x, rest)) (hstale : Stale s.opened x) :
    s.pass P eval reopening policy algorithm = .inr (s.skip rest) := by
  simp only [pass, hopen, Bool.false_eq_true, if_false, hstop, hpop]
  split
  next entry hentry => rw [if_neg (hstale entry hentry)]
  next => rfl

theorem pass_of_live [LawfulBEq σ]
    (hstop : (policy.stop? s.noted.stats.expansions : Option (Termination κ)) = none)
    (hpop : s.frontier.pop? κ = some (here, rest))
    (hentry : s.opened[here.node.state]? = some ⟨here.id, f⟩) :
    s.pass P eval reopening policy algorithm =
      s.take P eval reopening policy algorithm here f rest := by
  have hopen : s.opened.isEmpty = false := isEmpty_eq_false_of_entry hentry
  simp only [pass, hopen, Bool.false_eq_true, if_false, hstop, hpop, hentry, if_true]

theorem next?_of_live (hcounted : s.frontier.waiting.Counted)
    (hpop : s.frontier.pop? κ = some (here, rest))
    (hentry : s.opened[here.node.state]? = some ⟨here.id, f⟩) :
    s.next? = some (here, f, rest) := by
  obtain ⟨key, hentries⟩ := Ranked.entries_next? (Frontier.pop?_eq_some hpop)
  have hsize : s.frontier.size κ = rest.waiting.entries.length + 1 :=
    hcounted.trans hentries.length_eq
  unfold next?
  rw [hsize]
  exact popLive?_of_entry hpop hentry _

/-- A pass that goes on skips a stale entry, or is a turn. -/
theorem pass_cases (hcounted : s.frontier.waiting.Counted)
    (h : s.pass P eval reopening policy algorithm = .inr s') :
    (∃ x rest, s.frontier.pop? κ = some (x, rest) ∧ Stale s.opened x ∧ s' = s.skip rest) ∨
      ∃ here f rest run kids, s.frontier.pop? κ = some (here, rest) ∧
        Turn P eval reopening policy s here f rest run kids s' := by
  unfold pass at h
  split at h
  · cases h
  split at h
  · cases h
  split at h
  · cases h
  next x rest hpop =>
  rcases stale_or_entry s.opened x with hstale | ⟨f, hentry⟩
  · refine .inl ⟨x, rest, hpop, hstale, ?_⟩
    split at h
    next entry hentry =>
      rw [if_neg (hstale entry hentry)] at h
      exact (Sum.inr.inj h).symm
    next => exact (Sum.inr.inj h).symm
  · have hnext := next?_of_live hcounted hpop hentry
    rw [hentry] at h
    dsimp only at h
    rw [if_pos rfl] at h
    unfold take at h
    split at h
    · cases h
    next hgoal =>
    split at h
    · cases h
    next run kids hexpand =>
    split at h
    · cases h
    next hoffers =>
    cases h
    exact .inr ⟨x, f, rest, run, kids, hpop, hnext, eq_false_of_ne_true hgoal, hexpand, hoffers⟩

/-! ## Passes up to a live entry -/

theorem take_skip {next : Frontier (Ranked κ) (Placed σ α κ)}
    (hpop : s.frontier.pop? κ = some (x, next)) :
    (s.skip next).take P eval reopening policy algorithm here f rest =
      s.take P eval reopening policy algorithm here f rest := by
  unfold take
  rw [noted_skip hpop]
  rfl

/-- With budget left, the passes before the next live entry skip stale ones, and the pass after them
takes it. -/
theorem Pops.passes [LawfulBEq σ] {opened : Std.HashMap σ (OpenEntry κ)}
    {frontier : Frontier (Ranked κ) (Placed σ α κ)} (h : Pops opened here f rest frontier) :
    ∀ {s : BestFirst σ α κ}, s.opened = opened → s.frontier = frontier →
      (policy.stop? s.noted.stats.expansions : Option (Termination κ)) = none →
      ∃ s₁, Passes P eval reopening policy algorithm s s₁ ∧
        s₁.frontier.pop? κ = some (here, rest) ∧ s₁.opened = s.opened ∧ s₁.closed = s.closed ∧
        s₁.pass P eval reopening policy algorithm =
          s.take P eval reopening policy algorithm here f rest := by
  induction h with
  | live pop entry =>
    rintro s rfl rfl hstop
    exact ⟨s, .refl, pop, rfl, rfl, pass_of_live hstop pop entry⟩
  | @stale frontier next x pop stale later ih =>
    rintro s rfl rfl hstop
    have hopen : s.opened.isEmpty = false := isEmpty_eq_false_of_entry later.entry
    have hpass : s.pass P eval reopening policy algorithm = .inr (s.skip next) :=
      pass_of_stale hopen hstop pop stale
    obtain ⟨s₁, hpasses, hpop, hopened, hclosed, htake⟩ :=
      ih (s := s.skip next) rfl rfl (by rw [noted_skip pop]; exact hstop)
    exact ⟨s₁, .head hpass hpasses, hpop, hopened, hclosed, htake.trans (take_skip pop)⟩

/-- With budget left, the passes of a turn lead from one head to another. -/
theorem Head.turn [LawfulBEq σ] (h : Head P eval reopening policy algorithm s)
    (hnext : s.next? = some (here, f, rest))
    (hstop : (policy.stop? s.noted.stats.expansions : Option (Termination κ)) = none)
    (htake : s.take P eval reopening policy algorithm here f rest = .inr s') :
    Head P eval reopening policy algorithm s' := by
  obtain ⟨value, heval, hbefore⟩ := h
  obtain ⟨s₁, hpasses, -, -, -, hpass⟩ := (pops_of_next? hnext).passes rfl rfl hstop
  exact ⟨value, heval, (hbefore.trans hpasses).tail (hpass.trans htake)⟩

/-! ## The outcome -/

theorem Turn.expansions {run : Run σ α κ} {kids : List (Placed σ α κ)}
    (ht : Turn P eval reopening policy s here f rest run kids s') :
    s'.run.stats.expansions = s.run.stats.expansions + 1 := by
  have hoffers := sameWork_offerAll eval reopening policy (s.close here rest run) kids
  rw [ht.offers] at hoffers
  exact hoffers.stats.expansions.trans (Run.progress_expand_ok ht.expand).expansions

theorem advance_of_next (htime : ¬ policy.timeIsUp s.noted.stats.expansions = true)
    (hnext : s.next? = some (here, f, rest)) :
    (iteration P eval reopening policy algorithm).advance s =
      s.take P eval reopening policy algorithm here f rest := by
  unfold take iteration
  dsimp only
  rw [if_neg htime]
  generalize s.next? = next at hnext
  subst hnext
  rfl

/-- The loop ends as the last pass does, if as many expansions are left as the budget says. -/
theorem loop_passes [LawfulBEq σ] (left : Nat) (h : Sound P eval s)
    (hleft : left + s.run.stats.expansions = policy.maxExpansions) :
    ∃ s', Passes P eval reopening policy algorithm s s' ∧
      s'.pass P eval reopening policy algorithm =
        .inl (loop P eval reopening policy algorithm left s) := by
  induction left generalizing s with
  | zero =>
    have hbudget : policy.maxExpansions ≤ s.noted.stats.expansions := by
      show policy.maxExpansions ≤ s.run.stats.expansions
      omega
    refine ⟨s, .refl, ?_⟩
    rw [loop_eq_run]
    unfold pass TimedPolicy.stop? Iteration.run iteration
    dsimp only
    rw [if_pos hbudget]
    split <;> rfl
  | succ left ih =>
    by_cases hempty : s.opened.isEmpty = true
    · refine ⟨s, .refl, ?_⟩
      rw [loop_eq_run, Iteration.run_of_ended (if_pos hempty), pass, if_pos hempty]
    have hbudget : ¬ policy.maxExpansions ≤ s.noted.stats.expansions := by
      show ¬ policy.maxExpansions ≤ s.run.stats.expansions
      omega
    rw [loop_of_open hempty]
    by_cases htime : policy.timeIsUp s.noted.stats.expansions = true
    · refine ⟨s, .refl, ?_⟩
      unfold pass TimedPolicy.stop? iteration
      dsimp only
      rw [if_neg hempty, if_neg hbudget, if_pos htime, if_pos htime]
    have hstop : (policy.stop? s.noted.stats.expansions : Option (Termination κ)) = none := by
      unfold TimedPolicy.stop?
      rw [if_neg hbudget, if_neg htime]
    cases hnext : s.next? with
    | none =>
      refine absurd (Std.HashMap.isEmpty_iff_forall_not_mem.2 fun state => ?_) hempty
      rw [← Std.HashMap.isSome_getElem?_iff_mem, h.opened_eq_none (.inr hnext) state]
      exact Bool.false_ne_true
    | some next =>
      obtain ⟨here, f, rest⟩ := next
      obtain ⟨s₁, hpasses, htake⟩ : ∃ s₁, Passes P eval reopening policy algorithm s s₁ ∧
          s₁.pass P eval reopening policy algorithm =
            s.take P eval reopening policy algorithm here f rest := by
        obtain ⟨s₁, hpasses, -, -, -, htake⟩ := (pops_of_next? hnext).passes rfl rfl hstop
        exact ⟨s₁, hpasses, htake⟩
      rw [← advance_of_next htime hnext] at htake
      cases hadvance : (iteration P eval reopening policy algorithm).advance s with
      | inl r => exact ⟨s₁, hpasses, by rw [htake, hadvance]⟩
      | inr s' =>
        obtain ⟨_, _, _, _, _, ht⟩ := turn_of_inr hadvance
        have hexpansions := ht.expansions
        obtain ⟨s₂, hpasses', hlast⟩ := ih (h.turn ht) (by omega)
        exact ⟨s₂, hpasses.trans (.head (htake.trans hadvance) hpasses'), hlast⟩

/-- Best-first search ends as its last pass does, unless the root already shows a violation. -/
theorem bestFirst_passes [LawfulBEq σ] (P : Problem σ α κ) (eval : Evaluation σ α κ)
    (reopening : Reopening) (policy : TimedPolicy) (algorithm : String) :
    (∃ violation, eval (SearchTree.rootNode P.initial) = .error violation ∧
        bestFirst P eval reopening policy algorithm =
          (Run.start P policy).1.finish algorithm (.contractViolation violation)) ∨
      ∃ s, Head P eval reopening policy algorithm s ∧
        s.pass P eval reopening policy algorithm =
          .inl (bestFirst P eval reopening policy algorithm) := by
  cases heval : eval (SearchTree.rootNode P.initial) with
  | error violation => exact .inl ⟨violation, rfl, bestFirst_of_error algorithm heval⟩
  | ok f =>
    obtain ⟨s, hpasses, hlast⟩ : ∃ s, Passes P eval reopening policy algorithm _ s ∧
        s.pass P eval reopening policy algorithm = .inl _ :=
      loop_passes policy.maxExpansions (sound_start P policy heval) rfl
    rw [← bestFirst_eq_loop algorithm heval] at hlast
    exact .inr ⟨s, ⟨f, heval, hpasses⟩, hlast⟩

end BestFirst

end ProblemSolving
