import ProblemSolving.Proofs.StateSpace.Expansion
import ProblemSolving.Search.Run

/-!
# Runs step by step

* `Run.expand_ok`, `Run.expand_error` : what an expansion changes.
* `Run.exhausted_eq_frontierExhausted` : a search that left nothing out says so.
* `Termination.Conclusive` : what the end of a search tells about the problem is true.
* `Result.pathCost?_of_goalReached` : the cost that a finished search reports.
* `Result.events`, `Run.events` : the expansions on record.
* `Result.Agree` : two searches that did the same.
-/

namespace ProblemSolving

variable {σ α κ : Type}

/-! ## Outcomes -/

@[simp] theorem Result.isGoalReached_iff {r : Result σ α κ} :
    r.isGoalReached = true ↔ ∃ id, r.termination = .goalReached id := by
  unfold Result.isGoalReached Result.goalId?
  cases r.termination <;> simp

theorem Result.pathCost?_of_goalReached {r : Result σ α κ} {n : Placed σ α κ}
    (hgoal : r.termination = .goalReached n.id) (hheld : r.tree.Holds n) :
    r.pathCost? = some n.node.cost := by
  unfold SearchTree.Holds at hheld
  simp [Result.pathCost?, Result.goal?, Result.goalId?, hgoal, hheld]

theorem Result.solution?_eq_some {r : Result σ α κ} {actions : List α} :
    r.solution? = some actions ↔
      ∃ id, r.termination = .goalReached id ∧ r.tree.solution id = actions := by
  unfold Result.solution? Result.goalId?
  cases r.termination <;> simp

/-- The expansions on record. -/
def Result.events (r : Result σ α κ) : Option (List (ExpandEvent κ)) := r.trace.map (·.events)

/-- The searches ended alike, with the same tree and the same counts, after the same expansions. Their
names may differ. -/
structure Result.Agree (r r' : Result σ α κ) : Prop where
  termination : r.termination = r'.termination
  tree : r.tree = r'.tree
  stats : r.stats = r'.stats
  events : r.events = r'.events

namespace Result.Agree

variable {r r' r'' : Result σ α κ}

theorem trans (h : r.Agree r') (h' : r'.Agree r'') : r.Agree r'' :=
  ⟨h.termination.trans h'.termination, h.tree.trans h'.tree, h.stats.trans h'.stats,
    h.events.trans h'.events⟩

end Result.Agree

/-- What the end of a search tells about the problem is true: its frontier is exhausted only if no
goal can be reached, and a goal is reached only if one can. -/
structure Termination.Conclusive (P : Problem σ α κ) (termination : Termination κ) : Prop where
  absent : termination = .frontierExhausted → ∀ s, P.Reachable s → P.isGoal s = false
  present : ∀ id, termination = .goalReached id → ∃ s, P.Reachable s ∧ P.isGoal s = true

namespace Termination.Conclusive

variable {P : Problem σ α κ} {termination : Termination κ}

theorem of_ne (hexhausted : termination ≠ .frontierExhausted)
    (hgoal : ∀ id, termination ≠ .goalReached id) : termination.Conclusive P where
  absent h := absurd h hexhausted
  present id h := absurd h (hgoal id)

theorem of_goal {s : σ} (hs : P.Reachable s) (hgoal : P.isGoal s = true) (id : Nat) :
    (Termination.goalReached id : Termination κ).Conclusive P where
  absent h := by cases h
  present _ _ := ⟨s, hs, hgoal⟩

end Termination.Conclusive

namespace Run

section
variable (run : Run σ α κ) (algorithm : String) (termination : Termination κ) (size : Nat)

@[simp] theorem termination_finish : (run.finish algorithm termination).termination = termination :=
  rfl

@[simp] theorem tree_finish : (run.finish algorithm termination).tree = run.tree := rfl

@[simp] theorem stats_finish : (run.finish algorithm termination).stats = run.stats := rfl

@[simp] theorem tree_noteHighWater : (run.noteHighWater size).tree = run.tree := rfl

@[simp] theorem log_noteHighWater : (run.noteHighWater size).log = run.log := rfl

@[simp] theorem depthSkipped_noteHighWater :
    (run.noteHighWater size).stats.depthSkipped = run.stats.depthSkipped := rfl

/-- The expansions on record. -/
def events : Option (List (ExpandEvent κ)) := run.log.map (·.toList)

@[simp] theorem events_finish : (run.finish algorithm termination).events = run.events := by
  unfold Result.events finish events
  rw [Option.map_map]
  rfl

theorem agree_finish (algorithm' : String) :
    (run.finish algorithm termination).Agree (run.finish algorithm' termination) :=
  ⟨rfl, rfl, rfl, by rw [events_finish, events_finish]⟩

end

theorem exhausted_eq_frontierExhausted {run : Run σ α κ} :
    run.exhausted = .frontierExhausted ↔ run.stats.depthSkipped = 0 := by
  unfold exhausted
  split
  · simp; omega
  · simp; omega

theorem exhausted_ne_goalReached {run : Run σ α κ} {id : Nat} :
    run.exhausted ≠ .goalReached id := by
  unfold exhausted
  split <;> simp

theorem exhausted_ne_expansionBudgetExceeded {run : Run σ α κ} :
    run.exhausted ≠ .expansionBudgetExceeded := by
  unfold exhausted
  split <;> simp

theorem exhausted_ne_timeBudgetExceeded {run : Run σ α κ} :
    run.exhausted ≠ .timeBudgetExceeded := by
  unfold exhausted
  split <;> simp

/-! ## Expansions -/

section
variable {parent : Placed σ α κ} {f : κ} {kids : List (Placed σ α κ)} {run : Run σ α κ}

@[simp] theorem tree_record : (record parent f kids run).tree = run.tree := rfl

@[simp] theorem depthSkipped_record :
    (record parent f kids run).stats.depthSkipped = run.stats.depthSkipped := rfl

theorem events_record : (record parent f kids run).events = run.events.map fun events =>
    events ++ [⟨events.length, parent.id, parent.node.depth, f, kids.map (·.id)⟩] := by
  obtain ⟨tree, stats, log⟩ := run
  cases log with
  | none => rfl
  | some events => simp [record, Run.events]

end

variable [Scalar κ] {P : Problem σ α κ} {run run' : Run σ α κ} {parent : Placed σ α κ} {f : κ}

theorem expand_ok {kids : List (Placed σ α κ)} (h : run.expand P parent f = (run', .ok kids)) :
    SearchTree.Expands P run.tree parent run'.tree kids ∧
      run' = record parent f kids ⟨run'.tree, run.stats, run.log⟩ := by
  obtain ⟨tree, stats, log⟩ := run
  unfold expand at h
  dsimp only at h
  split at h
  · simp at h
  · next tree children htree =>
    simp only [Prod.mk.injEq, Except.ok.injEq] at h
    obtain ⟨rfl, rfl⟩ := h
    exact ⟨SearchTree.expand_ok htree, rfl⟩

theorem expand_error {violation : Violation κ}
    (h : run.expand P parent f = (run', .error violation)) :
    run'.stats = run.stats ∧ run'.log = run.log := by
  obtain ⟨tree, stats, log⟩ := run
  unfold expand at h
  dsimp only at h
  split at h
  · simp only [Prod.mk.injEq] at h
    obtain ⟨rfl, -⟩ := h
    exact ⟨rfl, rfl⟩
  · simp at h

theorem tree_expand_error {violation : Violation κ}
    (h : run.expand P parent f = (run', .error violation)) :
    ∃ made, made <+: SearchTree.children P parent ∧ run'.tree = run.tree.pushAll made := by
  obtain ⟨tree, stats, log⟩ := run
  unfold expand at h
  dsimp only at h
  split at h
  next hexpand =>
    cases h
    exact SearchTree.expand_error hexpand
  next => cases h

theorem tree_expand_error_eq {violation : Violation κ}
    (h : run.expand P parent f = (run', .error violation))
    (hviolation : ∀ depth step, violation ≠ .negativeStepCost depth step) :
    run'.tree = run.tree := by
  obtain ⟨tree, stats, log⟩ := run
  unfold expand at h
  dsimp only at h
  split at h
  next hexpand =>
    cases h
    exact SearchTree.expand_error_eq hexpand hviolation
  next => cases h

theorem keeps_expand (run : Run σ α κ) (P : Problem σ α κ) (parent : Placed σ α κ) (f : κ) :
    run.tree.Keeps (run.expand P parent f).1.tree := by
  obtain ⟨tree, stats, log⟩ := run
  have hkeeps := tree.keeps_expand P parent
  unfold expand
  dsimp only
  split
  next htree => rwa [htree] at hkeeps
  next htree => rwa [htree] at hkeeps

theorem holds_start (P : Problem σ α κ) (policy : TimedPolicy) :
    (start P policy).1.tree.Holds (start P policy).2 := rfl

/-! ## The values of the chosen nodes -/

omit [Scalar κ] in
/-- The values by which the expanded nodes were chosen, as far as they are recorded. -/
def chosen (run : Run σ α κ) : List κ := ((run.log.map (·.toList)).getD []).map (·.f)

theorem chosen_start (P : Problem σ α κ) (policy : TimedPolicy) : (start P policy).1.chosen = [] := by
  unfold start empty chosen
  cases policy.recordTrace <;> rfl

/-- Values that ascend still do after an expansion by a value above them. -/
theorem chosen_expand {R : κ → κ → Prop} {kids : List (Placed σ α κ)}
    (h : run.expand P parent f = (run', .ok kids)) (hrun : run.chosen.Pairwise R)
    (hf : ∀ g ∈ run.chosen, R g f) :
    run'.chosen.Pairwise R ∧ ∀ g ∈ run'.chosen, g ∈ run.chosen ∨ g = f := by
  have hlog : run'.log = (record parent f kids ⟨run'.tree, run.stats, run.log⟩).log :=
    congrArg Run.log (expand_ok h).2
  unfold chosen at hrun hf ⊢
  rw [hlog]
  cases hlog : run.log with
  | none => simp [record]
  | some events =>
    simp only [hlog, Option.map_some, Option.getD_some] at hrun hf
    simp only [record, Option.map_some, Option.getD_some, Array.toList_push, List.map_append,
      List.map_cons, List.map_nil]
    refine ⟨List.pairwise_append.2 ⟨hrun, List.pairwise_singleton _ _, ?_⟩, ?_⟩
    · intro g hg f' hf'
      rw [List.mem_singleton.1 hf']
      exact hf g hg
    · intro g hg
      rcases List.mem_append.1 hg with hg | hg
      · exact .inl hg
      · exact .inr (List.mem_singleton.1 hg)

omit [Scalar κ] in
theorem map_f_events {algorithm : String} {termination : Termination κ} {trace : Trace κ}
    (h : (run.finish algorithm termination).trace = some trace) :
    trace.events.map (·.f) = run.chosen := by
  unfold finish at h
  obtain ⟨events, hlog, rfl⟩ := Option.map_eq_some_iff.1 h
  simp [chosen, hlog]

end Run

end ProblemSolving
