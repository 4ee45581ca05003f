import ProblemSolving.Proofs.Search.Iteration

/-!
# Searches with and without a record

* `Result.silent`, `Run.silent`, `Exploration.silent`, `BestFirst.silent` : without the record.
* `Exploration.advance_silent`, `exploreFromRoot_silent` : a tree or graph search does not look at the
  record, so one that keeps it is otherwise the same.
* `BestFirst.offerAll_silent`, `BestFirst.advance_silent` : a round of a best-first search does not
  look at the record.
* `bestFirst_silent` : so a search that keeps one is otherwise the same.
* `bestFirst_isSome_trace` : it keeps one if it is asked to.
-/

namespace ProblemSolving

variable {σ α κ : Type}

/-- The outcome without the record. -/
def Result.silent (r : Result σ α κ) : Result σ α κ := { r with trace := none }

namespace Run

/-- The run without the record. -/
def silent (run : Run σ α κ) : Run σ α κ := { run with log := none }

theorem isSome_trace_finish (run : Run σ α κ) (algorithm : String) (termination : Termination κ) :
    (run.finish algorithm termination).trace.isSome = run.log.isSome := by
  simp [finish]

variable [Scalar κ]

theorem expand_silent (run : Run σ α κ) (P : Problem σ α κ) (parent : Placed σ α κ) (f : κ) :
    run.silent.expand P parent f =
      ((run.expand P parent f).1.silent, (run.expand P parent f).2) := by
  obtain ⟨tree, stats, log⟩ := run
  unfold expand silent
  dsimp only
  split <;> rfl

theorem isSome_log_expand (run : Run σ α κ) (P : Problem σ α κ) (parent : Placed σ α κ) (f : κ) :
    (run.expand P parent f).1.log.isSome = run.log.isSome := by
  obtain ⟨tree, stats, log⟩ := run
  unfold expand
  dsimp only
  split
  · rfl
  · simp [record]

end Run

/-! ## Tree and graph search -/

section
variable {μ : Type} {δ : Type → Type} [Discipline δ κ] [Scalar κ] {P : Problem σ α κ}
  {policy : TimedPolicy} {memory : Memory σ μ} {algorithm : String}

omit [Discipline δ κ] [Scalar κ] in
/-- The search without the record. -/
def Exploration.silent (s : Exploration σ α κ μ δ) : Exploration σ α κ μ δ :=
  { s with run := s.run.silent }

/-- No round looks at the record. -/
theorem Exploration.advance_silent (s : Exploration σ α κ μ δ) :
    (iteration P policy memory algorithm).advance s.silent =
      ((iteration P policy memory algorithm).advance s).map Result.silent silent := by
  have hfrontier : s.silent.frontier = s.frontier := rfl
  have hnoted : s.silent.noted = s.noted.silent := rfl
  have hstats : s.noted.silent.stats = s.noted.stats := rfl
  dsimp only [iteration]
  rw [hfrontier, hnoted, hstats]
  split
  · rfl
  cases s.frontier.pop? κ with
  | none => rfl
  | some popped =>
  obtain ⟨here, rest⟩ := popped
  dsimp only
  split
  · rfl
  rw [Run.expand_silent]
  cases s.noted.expand P here here.node.cost with
  | mk run outcome => cases outcome <;> rfl

/-- Without its record, the outcome is that of a search which keeps none. -/
theorem exploreFromRoot_silent (P : Problem σ α κ) (policy : TimedPolicy) (memory : Memory σ μ)
    (algorithm : String) :
    (exploreFromRoot δ P policy memory algorithm).silent =
      exploreFromRoot δ P { policy with recordTrace := false } memory algorithm := by
  have hsame : (Exploration.iteration P { policy with recordTrace := false } memory algorithm :
      Iteration (Exploration σ α κ μ δ) _) = Exploration.iteration P policy memory algorithm :=
    Exploration.iteration_congr rfl rfl
  have hrun := exploreFromRoot_eq_run (δ := δ) P policy memory algorithm policy.maxExpansions
  have hsilent := exploreFromRoot_eq_run (δ := δ) P { policy with recordTrace := false } memory
    algorithm policy.maxExpansions
  rw [hsame] at hsilent
  show (exploreFromRoot δ P { policy with maxExpansions := policy.maxExpansions } memory
    algorithm).silent = _
  rw [hrun]
  refine Eq.trans (Iteration.run_map Exploration.silent Result.silent ?_ ?_
    Exploration.advance_silent policy.maxExpansions _).symm hsilent.symm
  · intro s
    show (if s.frontier.size κ = 0 then _ else _) = Option.map _ (ite (s.frontier.size κ = 0) _ _)
    split <;> rfl
  · exact fun s => rfl

end

/-! ## Best-first search -/

namespace BestFirst

variable [Scalar κ] [BEq σ] [Hashable σ]

/-- The search without the record. -/
def silent (s : BestFirst σ α κ) : BestFirst σ α κ := { s with run := s.run.silent }

section
variable (eval : Evaluation σ α κ) (reopening : Reopening) (policy : TimedPolicy) (s : BestFirst σ α κ)

theorem enterOpen_silent (child : Placed σ α κ) (f : κ) :
    s.silent.enterOpen child f = (s.enterOpen child f).silent := by
  have hopened : s.silent.opened = s.opened := rfl
  unfold enterOpen
  rw [hopened]
  split
  · split <;> rfl
  · rfl

theorem offer_silent (child : Placed σ α κ) (f : κ) :
    s.silent.offer reopening child f = (s.offer reopening child f).silent := by
  have hclosed : s.silent.closed = s.closed := rfl
  unfold BestFirst.offer
  rw [hclosed]
  split
  · split
    · exact enterOpen_silent (s.reopen child.node.state) child f
    · rfl
  · exact enterOpen_silent s child f

theorem offerAll_silent (kids : List (Placed σ α κ)) :
    offerAll eval reopening policy s.silent kids =
      ((offerAll eval reopening policy s kids).1.silent,
        (offerAll eval reopening policy s kids).2) := by
  induction kids generalizing s with
  | nil => rfl
  | cons child rest ih =>
    unfold offerAll
    split
    · exact ih s.skipDeep
    split
    · rfl
    next f _ =>
      rw [offer_silent]
      exact ih (s.offer reopening child f)

end

variable {P : Problem σ α κ} {eval : Evaluation σ α κ} {reopening : Reopening} {policy : TimedPolicy}
  {algorithm : String}

/-- No round looks at the record. -/
theorem advance_silent (s : BestFirst σ α κ) :
    (iteration P eval reopening policy algorithm).advance s.silent =
      ((iteration P eval reopening policy algorithm).advance s).map Result.silent silent := by
  have hnext : s.silent.next? = s.next? := rfl
  have hnoted : s.silent.noted = s.noted.silent := rfl
  have hstats : s.noted.silent.stats = s.noted.stats := rfl
  dsimp only [iteration]
  rw [hnext, hnoted, hstats]
  split
  · rfl
  cases s.next? with
  | none => rfl
  | some taken =>
  obtain ⟨here, f, rest⟩ := taken
  dsimp only
  split
  · rfl
  rw [Run.expand_silent]
  cases s.noted.expand P here f with
  | mk run outcome =>
  cases outcome with
  | error violation => rfl
  | ok kids =>
  have hclose : s.silent.close here rest run.silent = (s.close here rest run).silent := rfl
  dsimp only
  rw [hclose, offerAll_silent]
  cases offerAll eval reopening policy (s.close here rest run) kids with
  | mk s' violation? => cases violation? <;> rfl

variable {s s' : BestFirst σ α κ}

theorem isSome_log_offers {here : Placed σ α κ} {f : κ}
    {rest : Frontier (Ranked κ) (Placed σ α κ)} {run : Run σ α κ} {kids : List (Placed σ α κ)}
    {violation? : Option (Violation κ)} (hexpand : s.noted.expand P here f = (run, .ok kids))
    (hoffers : offerAll eval reopening policy (s.close here rest run) kids = (s', violation?)) :
    s'.run.log.isSome = s.run.log.isSome := by
  have hlog := log_offerAll eval reopening policy (s.close here rest run) kids
  have hkept := s.noted.isSome_log_expand P here f
  rw [hoffers] at hlog
  rw [hexpand] at hkept
  rw [hlog]
  exact hkept

theorem Ends.isSome_trace {r : Result σ α κ}
    (hends : Ends P eval reopening policy s algorithm r) : r.trace.isSome = s.run.log.isSome := by
  cases hends with
  | emptied => exact Run.isSome_trace_finish ..
  | stopped => exact Run.isSome_trace_finish ..
  | goal => exact Run.isSome_trace_finish ..
  | expansion _ expand => rw [Run.isSome_trace_finish, (Run.expand_error expand).2]; rfl
  | evaluation _ expand offers => rw [Run.isSome_trace_finish, isSome_log_offers expand offers]

end BestFirst

/-- Without its record, the outcome is that of a search which keeps none. -/
theorem bestFirst_silent [Scalar κ] [BEq σ] [Hashable σ] (P : Problem σ α κ)
    (eval : Evaluation σ α κ) (reopening : Reopening) (policy : TimedPolicy) (algorithm : String) :
    (bestFirst P eval reopening policy algorithm).silent =
      bestFirst P eval reopening { policy with recordTrace := false } algorithm := by
  have hstart : (Run.start P policy).1.silent =
      (Run.start P { policy with recordTrace := false }).1 := rfl
  cases heval : eval (SearchTree.rootNode P.initial) with
  | error violation =>
    rw [BestFirst.bestFirst_of_error algorithm heval, BestFirst.bestFirst_of_error algorithm heval,
      ← hstart]
    rfl
  | ok f =>
    have hsame :
        BestFirst.iteration P eval reopening { policy with recordTrace := false } algorithm =
          BestFirst.iteration P eval reopening policy algorithm :=
      BestFirst.iteration_congr rfl rfl
    rw [BestFirst.bestFirst_eq_loop algorithm heval, BestFirst.bestFirst_eq_loop algorithm heval,
      BestFirst.loop_eq_run, BestFirst.loop_eq_run, hsame, ← hstart]
    refine (Iteration.run_map BestFirst.silent Result.silent ?_ ?_ BestFirst.advance_silent
      policy.maxExpansions _).symm
    · intro s
      have hopened : s.silent.opened = s.opened := rfl
      dsimp only [BestFirst.iteration]
      rw [hopened]
      by_cases hempty : s.opened.isEmpty = true
      · rw [if_pos hempty, if_pos hempty]
        rfl
      · rw [if_neg hempty, if_neg hempty]
        rfl
    · exact fun s => rfl

/-- A search keeps a record if, and only if, it is asked to. -/
theorem bestFirst_isSome_trace [Scalar κ] [BEq σ] [Hashable σ] (P : Problem σ α κ)
    (eval : Evaluation σ α κ) (reopening : Reopening) (policy : TimedPolicy) (algorithm : String) :
    (bestFirst P eval reopening policy algorithm).trace.isSome = policy.recordTrace := by
  have hstart : (Run.start P policy).1.log.isSome = policy.recordTrace := by
    unfold Run.start Run.empty
    cases policy.recordTrace <;> rfl
  rcases BestFirst.bestFirst_ends_of_turns algorithm (fun f _ => hstart)
    (fun hs ht => (BestFirst.isSome_log_offers ht.expand ht.offers).trans hs) with
    ⟨violation, -, hviolation⟩ | ⟨s, hs, hends⟩
  · rw [hviolation, Run.isSome_trace_finish, hstart]
  · rw [hends.isSome_trace, hs]

end ProblemSolving
