import ProblemSolving.Proofs.Constraint.Meaning
import ProblemSolving.Proofs.Constraint.Repair
import ProblemSolving.Random.SplitMix

/-!
# A repair, one round after the other

A repair makes a new start within the step that it is to make. Here a round either starts anew or
takes a step, so that nothing but what is proved bounds the number of rounds.

* `Repair.round` : one round; `Repair.Round` : what it can do.
* `repairWithin`, `minConflictsWithin` : a repair in so many rounds at most.
* `repairWithin_eq`, `minConflictsWithin_eq` : two rounds for each step that is left, and one to end,
  are enough, and come to what the repair comes to.
* `Repair.Steady` : what holds at the head of every round; `SolverOutcome.Honest` : what holds of the
  outcome (`Steady.round`, `minConflicts_honestly`).
* `minConflicts_honest` : all of it, for every source of words.
-/

namespace ProblemSolving

variable {ν ρ : Type} [RandomSource ρ]

/-! ## Rounds -/

section Rounds
variable (m : Model ν) (config : RepairConfig)

/-- A round of a repair that has made `step` steps: its outcome, or the steps and the repair after
it. A round that is not the last starts anew or takes a step. -/
def Repair.round (step : Nat) (s : Repair) : Draw ρ (SolverOutcome ν ⊕ Nat × Repair) := do
  let stats : SolverStats := { assignments := step, restarts := s.restarts }
  match ← chooseConflicted m s.current with
  | none => return .inl ⟨.undefined, stats⟩
  | some none => return .inl ⟨.solved (m.materialize s.current), stats⟩
  | some (some v) =>
    if config.maxSteps ≤ step then return .inl ⟨.budgetExceeded, stats⟩
    else
      match s.progress? config (conflicted m s.current).length with
      | none =>
        match ← s.restart m with
        | none => return .inl ⟨.undefined, stats⟩
        | some s' => return .inr (step, s')
      | some s' =>
        match ← s'.reassign m v with
        | none => return .inl ⟨.undefined, stats⟩
        | some s' => return .inr (step + 1, s')

/-- The outcome of a repair that has made `step` steps, if it takes `rounds` rounds at most. -/
def repairWithin : (rounds step : Nat) → Repair → Draw ρ (Option (SolverOutcome ν))
  | 0, _, _ => return none
  | rounds + 1, step, s => do
    match ← s.round m config step with
    | .inl outcome => return some outcome
    | .inr (step, s) => repairWithin rounds step s

/-- Repairs a greedy start, in `rounds` rounds at most. -/
def minConflictsWithin (rounds : Nat) : Draw ρ (Option (SolverOutcome ν)) := do
  if m.vars.any (·.domain.isEmpty) then return some ⟨.unsatisfiable, {}⟩
  else
    match ← greedyStart m with
    | none => return some ⟨.undefined, {}⟩
    | some current => repairWithin m config rounds 0 ⟨current, none, 0, 0⟩

end Rounds

variable {m : Model ν} {config : RepairConfig}

theorem Repair.progress?_of_fewest_none {s : Repair} (h : s.fewest = none) (inConflict : Nat) :
    s.progress? config inConflict = some { s with fewest := some inConflict, stalled := 0 } := by
  unfold Repair.progress?
  rw [h]
  rfl

theorem Repair.progress?_eq_some {s s' : Repair} {inConflict : Nat}
    (h : s.progress? config inConflict = some s') :
    s'.current = s.current ∧ s'.restarts = s.restarts ∧ s'.fewest ≠ none ∧
      s'.stalled ≤ s.stalled := by
  unfold Repair.progress? at h
  split at h
  · cases h
    exact ⟨rfl, rfl, nofun, Nat.zero_le _⟩
  · rename_i hfewest
    split at h
    · cases h
    · cases h
      refine ⟨rfl, rfl, fun hnone => hfewest ?_, Nat.le_refl _⟩
      rw [hnone]
      rfl

/-- A new start is made only after so many steps without progress. -/
theorem Repair.progress?_eq_none {s : Repair} {inConflict : Nat}
    (h : s.progress? config inConflict = none) :
    s.fewest ≠ none ∧ ∃ limit, config.restartAfter = some limit ∧ limit ≤ s.stalled := by
  refine ⟨fun hnone => ?_, ?_⟩
  · rw [progress?_of_fewest_none hnone] at h
    cases h
  · unfold Repair.progress? at h
    split at h
    · cases h
    · split at h
      · rename_i hstalled
        simpa [Option.any_eq_true] using hstalled
      · cases h

/-- **A repair ends.** For every step that is left it takes two rounds at most, for a new start is
followed by a step, and one more to end. -/
theorem repairWithin_eq : ∀ (left : Nat) {rounds step : Nat}, step + left = config.maxSteps →
    2 * left < rounds → ∀ s : Repair,
    (repairWithin m config rounds step s : Draw ρ (Option (SolverOutcome ν))) =
      some <$> repair m config left step s
  | _, 0, _, _, hrounds, _ => absurd hrounds (Nat.not_lt_zero _)
  | 0, rounds + 1, step, hstep, _, s => by
    rw [repairWithin, repair, Repair.round]
    simp only [bind_assoc, map_bind]
    refine bind_congr fun choice => ?_
    rcases choice with _ | _ | v
    · rfl
    · rfl
    · dsimp only
      rw [if_pos (by omega)]
      rfl
  | left + 1, rounds + 1, step, hstep, hrounds, s => by
    have hopen : ¬ config.maxSteps ≤ step := by omega
    rw [repairWithin, repair, Repair.round]
    simp only [bind_assoc, map_bind]
    refine bind_congr fun choice => ?_
    rcases choice with _ | _ | v
    · rfl
    · rfl
    · dsimp only
      rw [if_neg hopen]
      cases hprogress : s.progress? config (conflicted m s.current).length with
      | some s' =>
        simp only [bind_assoc, map_bind, ← (Repair.progress?_eq_some hprogress).2.1]
        refine bind_congr fun next => ?_
        cases next with
        | none => rfl
        | some next => exact repairWithin_eq left (by omega) (by omega) next
      | none =>
        obtain ⟨rounds, rfl⟩ : ∃ k, rounds = k + 1 := ⟨rounds - 1, by omega⟩
        unfold Repair.restart
        simp only [bind_assoc, map_bind, pure_bind]
        refine bind_congr fun current => ?_
        cases current with
        | none => rfl
        | some current =>
          simp only [Option.map_some, pure_bind]
          rw [repairWithin, Repair.round]
          simp only [bind_assoc, map_bind]
          refine bind_congr fun choice => ?_
          rcases choice with _ | _ | v
          · rfl
          · rfl
          · dsimp only
            rw [if_neg hopen, Repair.progress?_of_fewest_none rfl]
            simp only [bind_assoc, map_bind]
            refine bind_congr fun next => ?_
            cases next with
            | none => rfl
            | some next => exact repairWithin_eq left (by omega) (by omega) next

theorem minConflictsWithin_eq {rounds : Nat} (h : 2 * config.maxSteps < rounds) :
    (minConflictsWithin m config rounds : Draw ρ (Option (SolverOutcome ν))) =
      some <$> minConflicts m config := by
  unfold minConflictsWithin minConflicts
  split
  · rfl
  · rw [map_bind]
    refine bind_congr fun current => ?_
    cases current with
    | none => rfl
    | some current => exact repairWithin_eq config.maxSteps (Nat.zero_add _) h _

/-! ## What a round does -/

/-- What a round can do, wherever the places that are assigned exist. -/
inductive Repair.Round (m : Model ν) (config : RepairConfig) (step : Nat) (s : Repair) :
    SolverOutcome ν ⊕ Nat × Repair → Prop
  | undefined (partial_ : ¬ m.Total) :
    Round m config step s (.inl ⟨.undefined, { assignments := step, restarts := s.restarts }⟩)
  | solved (satisfies : (m.materialize s.current).Satisfies m) :
    Round m config step s
      (.inl ⟨.solved (m.materialize s.current), { assignments := step, restarts := s.restarts }⟩)
  | spent (spent : config.maxSteps ≤ step) :
    Round m config step s (.inl ⟨.budgetExceeded, { assignments := step, restarts := s.restarts }⟩)
  | anew {current : Array (Option Nat)} (unspent : step < config.maxSteps)
    (stuck : s.progress? config (conflicted m s.current).length = none)
    (placed : m.Placed current []) :
    Round m config step s (.inr (step, ⟨current, none, 0, s.restarts + 1⟩))
  | moved {s' : Repair} {v ix : Nat} (unspent : step < config.maxSteps)
    (progress : s.progress? config (conflicted m s.current).length = some s')
    (inConflict : v ∈ conflicted m s.current) (least : ix ∈ leastConflictPlaces m s.current v) :
    Round m config step s (.inr (step + 1, { s' with
      current := s.current.setIfInBounds v (some ix), stalled := s'.stalled + 1 }))

section Always
variable (hm : m.Linked) (hvalues : ∀ v < m.size, 0 < (m.domain v).size)
include hm hvalues

theorem round_always (config : RepairConfig) (step : Nat) {s : Repair} (h : m.Placed s.current []) :
    Draw.Always (s.round m config step : Draw ρ (SolverOutcome ν ⊕ Nat × Repair))
      (s.Round m config step) := by
  refine Model.Yields.bind (chooseConflicted_always hm h) (fun ht => .pure (.undefined ht))
    fun choice hchoice => ?_
  cases choice with
  | none => exact .pure (.solved hchoice)
  | some v =>
    dsimp only
    split
    · rename_i hspent
      exact .pure (.spent hspent)
    · rename_i hopen
      have hopen := Nat.not_le.1 hopen
      cases hprogress : s.progress? config (conflicted m s.current).length with
      | none =>
        refine Model.Yields.bind (restart_always hm hvalues s) (fun ht => .pure (.undefined ht)) ?_
        rintro _ ⟨current, hplaced, rfl⟩
        exact .pure (.anew hopen hprogress hplaced)
      | some s' =>
        have hv := lt_size_of_mem_conflicted hchoice
        refine Model.Yields.bind (reassign_always hm hvalues s' hv) (fun ht => .pure (.undefined ht)) ?_
        rintro _ ⟨ix, hix, rfl⟩
        rw [(Repair.progress?_eq_some hprogress).1] at hix ⊢
        exact .pure (.moved hopen hprogress hchoice hix)

end Always

/-- What holds at the head of every round. At a new start nothing has stalled yet; each one before
took so many steps, and one at least. -/
structure Repair.Steady (m : Model ν) (config : RepairConfig) (step : Nat) (s : Repair) : Prop where
  placed : m.Placed s.current []
  step_le : step ≤ config.maxSteps
  stepped : s.fewest ≠ none → 0 < s.stalled
  never : config.restartAfter = none → s.restarts = 0
  spaced : ∀ limit, config.restartAfter = some limit → s.restarts * max 1 limit + s.stalled ≤ step

/-- What holds of the outcome of a repair. -/
structure SolverOutcome.Honest (m : Model ν) (config : RepairConfig) (o : SolverOutcome ν) :
    Prop where
  sound : o.Sound m
  unsatisfiable : o.solution = .unsatisfiable ↔ ∃ v < m.size, m.domain v = #[]
  spent : o.solution = .budgetExceeded → o.stats.assignments = config.maxSteps
  undefined : o.solution = .undefined → ¬ m.Total
  assignments_le : o.stats.assignments ≤ config.maxSteps
  never : config.restartAfter = none → o.stats.restarts = 0
  spaced : ∀ limit, config.restartAfter = some limit →
    o.stats.restarts * max 1 limit ≤ o.stats.assignments

theorem Model.Placed.steady {current : Array (Option Nat)} (h : m.Placed current [])
    (config : RepairConfig) : Repair.Steady m config 0 ⟨current, none, 0, 0⟩ where
  placed := h
  step_le := Nat.zero_le _
  stepped := fun h => absurd rfl h
  never _ := rfl
  spaced limit _ := by simp

theorem Repair.Steady.anew {step : Nat} {s : Repair} (h : s.Steady m config step)
    {inConflict : Nat} (stuck : s.progress? config inConflict = none)
    {current : Array (Option Nat)} (placed : m.Placed current []) :
    Repair.Steady m config step ⟨current, none, 0, s.restarts + 1⟩ := by
  obtain ⟨hfewest, limit, hlimit, hstalled⟩ := Repair.progress?_eq_none stuck
  refine ⟨placed, h.step_le, fun h => absurd rfl h, fun hnever => ?_, fun limit' hlimit' => ?_⟩
  · rw [hlimit] at hnever
    cases hnever
  · obtain rfl : limit = limit' := Option.some.inj (hlimit.symm.trans hlimit')
    have hstepped := h.stepped hfewest
    calc (s.restarts + 1) * max 1 limit + 0
      _ = s.restarts * max 1 limit + max 1 limit := by rw [Nat.succ_mul, Nat.add_zero]
      _ ≤ s.restarts * max 1 limit + s.stalled :=
        Nat.add_le_add_left (Nat.max_le.2 ⟨hstepped, hstalled⟩) _
      _ ≤ step := h.spaced limit hlimit

theorem Repair.Steady.moved {step : Nat} {s s' : Repair} (h : s.Steady m config step)
    (unspent : step < config.maxSteps) {inConflict : Nat}
    (progress : s.progress? config inConflict = some s') {v ix : Nat} (hv : v < m.size)
    (hix : ix < (m.domain v).size) :
    Repair.Steady m config (step + 1) { s' with
      current := s.current.setIfInBounds v (some ix), stalled := s'.stalled + 1 } := by
  obtain ⟨-, hrestarts, -, hstalled⟩ := Repair.progress?_eq_some progress
  refine ⟨h.placed.assign (List.nil_subset _) hv hix, unspent, fun _ => Nat.succ_pos _,
    fun hnever => hrestarts.trans (h.never hnever), fun limit hlimit => ?_⟩
  have hspaced := h.spaced limit hlimit
  dsimp only
  rw [hrestarts]
  omega

/-- From the head of a round on, the outcome is honest, or the head of the next round is steady. -/
theorem Repair.Steady.round (hvalues : ∀ v < m.size, 0 < (m.domain v).size) {step : Nat}
    {s : Repair} (h : s.Steady m config step) {r : SolverOutcome ν ⊕ Nat × Repair}
    (hr : s.Round m config step r) :
    r.elim (·.Honest m config) fun p => p.2.Steady m config p.1 := by
  have hfull : ¬ ∃ v < m.size, m.domain v = #[] := by
    rintro ⟨v, hv, hempty⟩
    exact absurd (hvalues v hv) (by rw [hempty]; exact Nat.lt_irrefl 0)
  have hspaced : ∀ limit, config.restartAfter = some limit → s.restarts * max 1 limit ≤ step :=
    fun limit hlimit => (Nat.le_add_right _ _).trans (h.spaced limit hlimit)
  cases hr with
  | undefined hpartial =>
    exact ⟨nofun, ⟨nofun, fun h => absurd h hfull⟩, nofun, fun _ => hpartial, h.step_le, h.never,
      hspaced⟩
  | solved hsatisfies =>
    refine ⟨?_, ⟨nofun, fun h => absurd h hfull⟩, nofun, nofun, h.step_le, h.never, hspaced⟩
    rintro _ ⟨⟩
    exact hsatisfies
  | spent hspent =>
    exact ⟨nofun, ⟨nofun, fun h => absurd h hfull⟩, fun _ => Nat.le_antisymm h.step_le hspent,
      nofun, h.step_le, h.never, hspaced⟩
  | anew _ stuck placed => exact h.anew stuck placed
  | moved unspent progress inConflict least =>
    exact h.moved unspent progress (lt_size_of_mem_conflicted inConflict)
      (mem_leastConflictPlaces_iff.1 least).1

/-! ## The whole repair -/

theorem repairWithin_honestly (hm : m.Linked) (hvalues : ∀ v < m.size, 0 < (m.domain v).size) :
    ∀ (rounds step : Nat) (s : Repair), s.Steady m config step →
      Draw.Always (repairWithin m config rounds step s : Draw ρ (Option (SolverOutcome ν)))
        fun outcome => ∀ o ∈ outcome, o.Honest m config
  | 0, _, _, _ => .pure nofun
  | rounds + 1, step, s, h => by
    refine (round_always hm hvalues config step h.placed).bind fun r hr => ?_
    have hround := h.round hvalues hr
    rcases r with outcome | ⟨step', s'⟩
    · refine .pure ?_
      rintro _ ⟨⟩
      exact hround
    · exact repairWithin_honestly hm hvalues rounds step' s' hround

theorem Model.exists_domain_eq_empty_iff (m : Model ν) :
    (∃ v < m.size, m.domain v = #[]) ↔ m.vars.any (·.domain.isEmpty) = true := by
  constructor
  · rintro ⟨v, hv, hempty⟩
    by_contra hnone
    exact absurd (m.size_domain_pos (by simpa using hnone) hv) (by rw [hempty]; exact Nat.lt_irrefl 0)
  · intro h
    obtain ⟨v, hv, hempty⟩ := Array.any_eq_true.1 h
    refine ⟨v, hv, ?_⟩
    rw [domain, domain?, Array.getElem?_eq_getElem hv]
    exact Array.isEmpty_iff.1 hempty

theorem minConflictsWithin_honestly (hm : m.Linked) (config : RepairConfig) (rounds : Nat) :
    Draw.Always (minConflictsWithin m config rounds : Draw ρ (Option (SolverOutcome ν)))
      fun outcome => ∀ o ∈ outcome, o.Honest m config := by
  unfold minConflictsWithin
  split
  · rename_i hempty
    refine .pure ?_
    rintro _ ⟨⟩
    exact ⟨nofun, ⟨fun _ => m.exists_domain_eq_empty_iff.2 hempty, fun _ => rfl⟩, nofun, nofun,
      Nat.zero_le _, fun _ => rfl, fun _ _ => Nat.le_of_eq (Nat.zero_mul _)⟩
  · rename_i hfull
    have hvalues : ∀ v < m.size, 0 < (m.domain v).size :=
      fun v hv => m.size_domain_pos (by simpa using hfull) hv
    refine Model.Yields.bind (greedyStart_always hm hvalues) (fun ht => .pure ?_)
      fun current hplaced => ?_
    · rintro _ ⟨⟩
      exact ⟨nofun, ⟨nofun, fun h => absurd (m.exists_domain_eq_empty_iff.1 h) hfull⟩, nofun,
        fun _ => ht, Nat.zero_le _, fun _ => rfl, fun _ _ => Nat.le_of_eq (Nat.zero_mul _)⟩
    · exact repairWithin_honestly hm hvalues rounds 0 _ (hplaced.steady config)

/-- The outcome of a repair is that of its rounds, once they are enough. -/
theorem minConflicts_honestly (hm : m.Linked) (config : RepairConfig) :
    Draw.Always (minConflicts m config : Draw ρ (SolverOutcome ν)) (·.Honest m config) := by
  have h := minConflictsWithin_honestly (ρ := ρ) hm config (2 * config.maxSteps + 1)
  rw [minConflictsWithin_eq (Nat.lt_succ_self _)] at h
  exact fun source => h source _ rfl

theorem minConflicts_always (hm : m.Linked) (config : RepairConfig) :
    Draw.Always (minConflicts m config : Draw ρ (SolverOutcome ν)) (·.Sound m) :=
  (minConflicts_honestly hm config).imp fun _ h => h.sound

/-- **A repair is honest, and always stops.** Whatever is drawn, it takes no more than two rounds for
each step it may make, and one. A model is said to be unsatisfiable just when a variable has no
values; what is found gives every variable a value of its domain and is a solution; the budget ends
the repair after just so many steps, an undefined relation only if some relation is not defined for
all values. No more steps are made than allowed. Without a limit nothing is started anew, and under a
limit each new start comes after as many steps, and one at least. -/
theorem minConflicts_honest [BEq ν] (hm : m.Built) (config : RepairConfig) (source : ρ) :
    let outcome := (minConflicts m config source).1
    (∀ rounds, 2 * config.maxSteps < rounds →
      minConflictsWithin m config rounds source = (some outcome, (minConflicts m config source).2)) ∧
    (outcome.solution = .unsatisfiable ↔ ∃ v < m.size, m.domain v = #[]) ∧
    (∀ a, outcome.solution = .solved a →
      (∀ v < m.size, ∃ x ∈ m.domain v, a.get? v = some x) ∧ m.isSolution? a = some true) ∧
    (outcome.solution = .budgetExceeded → outcome.stats.assignments = config.maxSteps) ∧
    (outcome.solution = .undefined → ¬ m.Total) ∧
    outcome.stats.assignments ≤ config.maxSteps ∧
    (config.restartAfter = none → outcome.stats.restarts = 0) ∧
    ∀ limit, config.restartAfter = some limit →
      outcome.stats.restarts * max 1 limit ≤ outcome.stats.assignments := by
  intro outcome
  have h : outcome.Honest m config := minConflicts_honestly hm.linked config source
  refine ⟨fun rounds hrounds => ?_, h.unsatisfiable, fun a ha => ?_, h.spent, h.undefined,
    h.assignments_le, h.never, h.spaced⟩
  · rw [minConflictsWithin_eq hrounds]
    rfl
  · have hsatisfies := h.sound a ha
    refine ⟨hsatisfies.value, hm.linked.isSolution?_eq_some_true_iff.2 ⟨fun v hv => ?_,
      hsatisfies.holds⟩⟩
    obtain ⟨x, -, hx⟩ := hsatisfies.value v hv
    exact ⟨x, hx⟩

/-- Where a new start is made as soon as a step was no progress, a repair with two colours for a
triangle still ends. -/
theorem twoColouredTriangle_honest :
    let outcome := (minConflicts twoColouredTriangle ⟨3, some 0⟩ (⟨[], 0⟩ : SplitMix)).1
    (minConflictsWithin twoColouredTriangle ⟨3, some 0⟩ 7 (⟨[], 0⟩ : SplitMix)).1 = some outcome ∧
      outcome.solution = .budgetExceeded ∧ outcome.stats.assignments = 3 ∧
      outcome.stats.restarts = 2 := by
  intro outcome
  have hspent : outcome.solution = .budgetExceeded := by decide +kernel
  have hrestarts : outcome.stats.restarts = 2 := by decide +kernel
  obtain ⟨hrounds, -, -, hassignments, -⟩ :=
    minConflicts_honest built_twoColouredTriangle ⟨3, some 0⟩ (⟨[], 0⟩ : SplitMix)
  exact ⟨congrArg Prod.fst (hrounds 7 (by decide)), hspent, hassignments hspent, hrestarts⟩

end ProblemSolving
