import ProblemSolving.Proofs.Constraint.Trials

/-!
# A branch that fails leaves no trace

* `Backtracker.Traceless` : the domains are as they were, and what is counted has only grown;
  so it is after a search that fails (`attempt_traceless`, `tryValues_traceless`,
  `backtrack_traceless`).
* `Solver`, `searchInPlace` : the search with its partial assignment changed in place.
* `searchInPlace_mirrors` : it is the search that is given its assignment, and a failure leaves the
  assignment as it was.
* `SearchPoint`, `Reached` : the calls of a search, and the heads of its loops over values.
* `failedBranch_leavesNoTrace` : what a failed call leaves behind, and what holds at every head.
-/

namespace ProblemSolving

variable {ν : Type} {m : Model ν}

/-! ## What a failure leaves of the domains -/

namespace Domains

theorem prunings_prune_le (d : Domains) (v ix : Nat) : d.prunings ≤ (d.prune v ix).prunings := by
  unfold prune
  split
  · exact Nat.le_succ _
  · exact Nat.le_refl _

theorem prunings_pruneAll_le (v : Nat) : ∀ (places : List Nat) (d : Domains),
    d.prunings ≤ (d.pruneAll v places).prunings
  | [], _ => Nat.le_refl _
  | ix :: rest, d =>
    (d.prunings_prune_le v ix).trans (prunings_pruneAll_le v rest (d.prune v ix))

@[simp] theorem prunings_undoOne (d : Domains) : d.undoOne.prunings = d.prunings := by
  unfold undoOne
  split <;> rfl

@[simp] theorem prunings_undo : ∀ (removals : Nat) (d : Domains),
    (undo removals d).prunings = d.prunings
  | 0, _ => rfl
  | removals + 1, d => (prunings_undo removals d.undoOne).trans (prunings_undoOne d)

theorem Agrees.indices {d d' : Domains} (h : d.Agrees d') (v : Nat) :
    d.indices v = d'.indices v := by
  unfold Domains.indices
  rw [h.alive]

end Domains

theorem prunings_infer_le (inference : Inference) (d : Domains) (assigned : Array (Option Nat))
    (v ix : Nat) : d.prunings ≤ (infer m inference d assigned v ix).1.prunings :=
  infer_preserves (p := fun d' => d.prunings ≤ d'.prunings)
    (fun d' w places h => h.trans (d'.prunings_pruneAll_le w places)) inference assigned v ix
    (Nat.le_refl _)

/-- The domains are as they were, and nothing that is counted has become less. -/
structure Backtracker.Traceless (s after : Backtracker) : Prop where
  domains : after.domains.Agrees s.domains
  assignments : s.assignments ≤ after.assignments
  backtracks : s.backtracks ≤ after.backtracks
  prunings : s.domains.prunings ≤ after.domains.prunings

theorem Backtracker.Traceless.refl (s : Backtracker) : s.Traceless s :=
  ⟨.refl _, Nat.le_refl _, Nat.le_refl _, Nat.le_refl _⟩

theorem Backtracker.Traceless.trans {s₁ s₂ s₃ : Backtracker} (h : s₁.Traceless s₂)
    (h' : s₂.Traceless s₃) : s₁.Traceless s₃ :=
  ⟨h'.domains.trans h.domains, h.assignments.trans h'.assignments,
    h.backtracks.trans h'.backtracks, h.prunings.trans h'.prunings⟩

theorem Backtracker.Traceless.counted {s after : Backtracker} (h : s.Traceless after)
    (hs : s.domains.Counted) : after.domains.Counted :=
  h.domains.counted hs

section Fail
variable {config : BacktrackConfig}
  {next : Backtracker → Array (Option Nat) → Backtracker × BranchVerdict}
  (hnext : ∀ (s : Backtracker) (assigned : Array (Option Nat)), s.domains.Counted →
    (next s assigned).2 = .failed → s.Traceless (next s assigned).1)
include hnext

/-- Whatever a failed attempt has removed, in the restriction, in an inference that may have stopped
half-way, or deeper down, is undone together. -/
theorem attempt_traceless {assigned : Array (Option Nat)} {v ix : Nat} {s after : Backtracker}
    (hs : s.domains.Counted) (h : attempt m config next assigned v s ix = (after, .failed)) :
    s.Traceless (after.undoneTo s.domains) := by
  have hcounted := hs.restrictTo v ix
  have hundoes := infer_undoesTo (m := m) config.inference (assigned.setIfInBounds v (some ix)) v ix
    hcounted ((Domains.UndoesTo.refl s.domains).restrictTo hs v ix)
  have hinferred : (infer m config.inference (s.domains.restrictTo v ix)
      (assigned.setIfInBounds v (some ix)) v ix).1.Counted :=
    infer_preserves (p := Domains.Counted) (fun _ w places h => h.pruneAll w places) _ _ v ix
      hcounted
  have hprunings := (s.domains.prunings_pruneAll_le v _).trans
    (prunings_infer_le (m := m) config.inference (s.domains.restrictTo v ix)
      (assigned.setIfInBounds v (some ix)) v ix)
  suffices hafter : after.domains.UndoesTo s.domains ∧ s.assignments ≤ after.assignments ∧
      s.backtracks ≤ after.backtracks ∧ s.domains.prunings ≤ after.domains.prunings by
    obtain ⟨hdomains, hassignments, hbacktracks, hprunings⟩ := hafter
    exact ⟨hdomains.agrees_undoTo, hassignments, hbacktracks,
      hprunings.trans (Domains.prunings_undo _ _).ge⟩
  unfold attempt at h
  dsimp only at h
  split at h
  · have hbelow := hnext _ _ hinferred (congrArg Prod.snd h)
    rw [congrArg Prod.fst h] at hbelow
    exact ⟨hundoes.of_agrees hbelow.domains, (Nat.le_succ _).trans hbelow.assignments,
      hbelow.backtracks, hprunings.trans hbelow.prunings⟩
  · cases h
  · cases h
    exact ⟨hundoes, Nat.le_succ _, Nat.le_refl _, hprunings⟩
  · cases h
    exact ⟨hundoes, Nat.le_succ _, Nat.le_refl _, hprunings⟩

theorem tryValues_traceless (assigned : Array (Option Nat)) (v : Nat) (places : List Nat)
    {s : Backtracker} (hs : s.domains.Counted)
    (h : (tryValues m config next assigned v s places).2 = .failed) :
    s.Traceless (tryValues m config next assigned v s places).1 := by
  refine tryValues_induct
    (q := fun s _ r => s.domains.Counted → r.2 = .failed → s.Traceless r.1)
    ?none ?undecided ?pass ?spent ?failed ?decided places s hs h
  case none => exact fun s _ _ => ⟨.refl _, Nat.le_refl _, Nat.le_succ _, Nat.le_refl _⟩
  case undecided => exact fun _ _ _ _ _ => nofun
  case pass => exact fun _ _ _ _ _ _ ih => ih
  case spent => exact fun _ _ _ _ _ => nofun
  case failed =>
    intro s ix rest after r _ hfailed ih hs hr
    have hattempt := attempt_traceless hnext hs hfailed
    exact hattempt.trans (ih (hattempt.counted hs) hr)
  case decided => exact fun s ix _ _ hdecided _ hfailed => absurd hfailed hdecided

end Fail

theorem backtrack_traceless (config : BacktrackConfig) :
    ∀ (left : Nat) (s : Backtracker) (assigned : Array (Option Nat)), s.domains.Counted →
      (backtrack m config left s assigned).2 = .failed →
      s.Traceless (backtrack m config left s assigned).1
  | 0, _, _, _, h => nomatch h
  | left + 1, s, assigned, hs, h => by
    rw [backtrack] at h ⊢
    split
    · rename_i hselect
      rw [if_pos hselect] at h
      cases h
    · rename_i hselect
      rw [if_neg hselect] at h
      cases hv : selectVariable? m config.variableOrder s.domains assigned with
      | none =>
        rw [hv] at h
        cases h
      | some v =>
        rw [hv] at h
        dsimp only at h ⊢
        split
        · rename_i horder
          rw [if_pos horder] at h
          cases h
        · rename_i horder
          rw [if_neg horder] at h
          exact tryValues_traceless (backtrack_traceless config left) assigned v _ hs h

/-! ## The search in place -/

/-- A search with its partial assignment. -/
structure Solver where
  assigned : Array (Option Nat)
  search : Backtracker

namespace Solver

def start (m : Model ν) : Solver := ⟨Array.replicate m.size none, ⟨.full m, 0, 0⟩⟩

/-- Gives a variable a value and restricts it to the value. -/
def assign (s : Solver) (v ix : Nat) : Solver :=
  ⟨s.assigned.setIfInBounds v (some ix), s.search.assign (s.search.domains.restrictTo v ix)⟩

/-- Takes the value of a variable back, and brings the removals since a checkpoint back. -/
def takeBack (s : Solver) (v mark : Nat) : Solver :=
  ⟨s.assigned.setIfInBounds v none, { s.search with domains := s.search.domains.undoTo mark }⟩

/-- The assignment and the domains are as they were, and nothing that is counted has become less. -/
structure LeavesNoTrace (s after : Solver) : Prop where
  assigned : after.assigned = s.assigned
  search : s.search.Traceless after.search

end Solver

section InPlace
variable (m) (config : BacktrackConfig)

/-- Assigns a value, infers, and searches on. -/
def attemptInPlace (next : Solver → Solver × BranchVerdict) (v : Nat) (s : Solver) (ix : Nat) :
    Solver × BranchVerdict :=
  let s := s.assign v ix
  let inferred := infer m config.inference s.search.domains s.assigned v ix
  let s : Solver := { s with search.domains := inferred.1 }
  match inferred.2 with
  | .consistent => next s
  | .undefined => (s, .undefined)
  | .wipedOut | .foreign => (s, .failed)

/-- Tries values of a variable one after the other, and takes back those that fail. -/
def tryInPlace (next : Solver → Solver × BranchVerdict) (v : Nat) :
    Solver → List Nat → Solver × BranchVerdict
  | s, [] => ({ s with search.backtracks := s.search.backtracks + 1 }, .failed)
  | s, ix :: rest =>
    if !m.canCount s.assigned v ix then (s, .undefined)
    else if m.conflictsAt s.assigned v ix ≠ 0 then tryInPlace next v s rest
    else if config.maxAssignments.any (· ≤ s.search.assignments) then (s, .outOfBudget)
    else match attemptInPlace m config next v s ix with
      | (after, .failed) =>
        tryInPlace next v (after.takeBack v s.search.domains.checkpoint) rest
      | decided => decided

/-- Searches for a completion of the partial assignment, as `backtrack` does. -/
def searchInPlace : (left : Nat) → Solver → Solver × BranchVerdict
  | 0, s => (s, .solved s.assigned)
  | left + 1, s =>
    if !canSelect m config.variableOrder s.search.domains s.assigned then (s, .undefined)
    else match selectVariable? m config.variableOrder s.search.domains s.assigned with
    | none => (s, .solved s.assigned)
    | some v =>
      if !canOrder m config.valueOrder s.search.domains s.assigned v then (s, .undefined)
      else
        tryInPlace m config (searchInPlace left) v s
          (orderValues m config.valueOrder s.search.domains s.assigned v)

end InPlace

/-- The outcome of a search that is given its assignment; a failure leaves this assignment. -/
structure Mirrors (assigned : Array (Option Nat)) (r : Solver × BranchVerdict)
    (r' : Backtracker × BranchVerdict) : Prop where
  search : r.1.search = r'.1
  verdict : r.2 = r'.2
  restored : r.2 = .failed → r.1.assigned = assigned

theorem Mirrors.decided {assigned : Array (Option Nat)} (s : Solver) {verdict : BranchVerdict}
    (h : verdict ≠ .failed) : Mirrors assigned (s, verdict) (s.search, verdict) :=
  ⟨rfl, rfl, fun hfailed => absurd hfailed h⟩

section Mirror
variable {config : BacktrackConfig} {next : Solver → Solver × BranchVerdict}
  {next' : Backtracker → Array (Option Nat) → Backtracker × BranchVerdict}
  (hnext : ∀ s : Solver, Mirrors s.assigned (next s) (next' s.search s.assigned))
include hnext

variable (m config) in
theorem attemptInPlace_mirrors (v : Nat) (s : Solver) (ix : Nat) :
    Mirrors (s.assigned.setIfInBounds v (some ix)) (attemptInPlace m config next v s ix)
      (attempt m config next' s.assigned v s.search ix) := by
  unfold attemptInPlace attempt
  dsimp only [Solver.assign, Backtracker.assign]
  generalize infer m config.inference _ _ v ix = inferred
  obtain ⟨d, verdict⟩ := inferred
  cases verdict with
  | consistent => exact hnext ⟨s.assigned.setIfInBounds v (some ix), _⟩
  | undefined => exact .decided _ (by simp)
  | wipedOut => exact ⟨rfl, rfl, fun _ => rfl⟩
  | foreign => exact ⟨rfl, rfl, fun _ => rfl⟩

/-- A value that failed is taken back: the search goes on with the assignment as it was. -/
theorem takeBack_attempt {v ix : Nat} {s after : Solver} (hv : s.assigned[v]? = some none)
    (h : attemptInPlace m config next v s ix = (after, .failed)) :
    (after.takeBack v s.search.domains.checkpoint).assigned = s.assigned ∧
      attempt m config next' s.assigned v s.search ix = (after.search, .failed) := by
  have hmirrors := attemptInPlace_mirrors m config hnext v s ix
  rw [h] at hmirrors
  refine ⟨?_, Prod.ext hmirrors.search.symm hmirrors.verdict.symm⟩
  unfold Solver.takeBack
  rw [hmirrors.restored rfl, Array.setIfInBounds_setIfInBounds]
  exact Model.assign_of_getElem? hv

theorem tryInPlace_mirrors (v : Nat) : ∀ (places : List Nat) (s : Solver),
    s.assigned[v]? = some none →
    Mirrors s.assigned (tryInPlace m config next v s places)
      (tryValues m config next' s.assigned v s.search places)
  | [], s, _ => by
    rw [tryInPlace, tryValues]
    exact ⟨rfl, rfl, fun _ => rfl⟩
  | ix :: rest, s, hv => by
    rw [tryInPlace, tryValues_cons]
    split
    · exact .decided s (by simp)
    · split
      · exact tryInPlace_mirrors v rest s hv
      · split
        · exact .decided s (by simp)
        · split
          · rename_i after hfailed
            obtain ⟨hassigned, hattempt⟩ := takeBack_attempt hnext hv hfailed
            have ih := tryInPlace_mirrors v rest (after.takeBack v s.search.domains.checkpoint)
              (by rwa [hassigned])
            rw [hassigned] at ih
            rw [hattempt]
            exact ih
          · rename_i hdecided
            have hmirrors := attemptInPlace_mirrors m config hnext v s ix
            have hverdict : (attemptInPlace m config next v s ix).2 ≠ .failed :=
              fun h => hdecided _ (Prod.ext rfl h)
            split
            · rename_i hfailed
              rw [hmirrors.verdict, hfailed] at hverdict
              exact absurd rfl hverdict
            · exact ⟨hmirrors.search, hmirrors.verdict, fun h => absurd h hverdict⟩

end Mirror

theorem searchInPlace_mirrors (config : BacktrackConfig) : ∀ (left : Nat) (s : Solver),
    Mirrors s.assigned (searchInPlace m config left s)
      (backtrack m config left s.search s.assigned)
  | 0, s => .decided s (by simp)
  | left + 1, s => by
    rw [searchInPlace, backtrack]
    split
    · exact .decided s (by simp)
    · cases hselect : selectVariable? m config.variableOrder s.search.domains s.assigned with
      | none => exact .decided s (by simp)
      | some v =>
        dsimp only
        split
        · exact .decided s (by simp)
        · exact tryInPlace_mirrors (searchInPlace_mirrors config left) v _ s
            (mem_unassignedVariables_iff.1 (mem_of_selectVariable? hselect))

/-! ## The points of a search -/

theorem orderValues_perm (order : ValueOrder) (d : Domains) (assigned : Array (Option Nat))
    (v : Nat) : (orderValues m order d assigned v).Perm (d.indices v) := by
  cases order with
  | domainOrder => exact .refl _
  | leastConstraining =>
    have hsorted := (List.mergeSort_perm ((d.indices v).map fun ix => (ruledOut m d assigned v ix, ix))
      fun a b => a.1 < b.1 || (a.1 == b.1 && a.2 ≤ b.2)).map Prod.snd
    rwa [List.map_map, List.map_id''] at hsorted
    exact fun _ => rfl

/-- A point of a search: a call, or the head of the loop over the values of a variable that a call
at `entry` has chosen, in the state `s` and with the values `rest` to come. -/
inductive SearchPoint where
  | call (left : Nat) (s : Solver)
  | head (left : Nat) (entry : Solver) (v : Nat) (s : Solver) (rest : List Nat)

/-- The points that the search of a model comes to. -/
inductive Reached (m : Model ν) (config : BacktrackConfig) : SearchPoint → Prop
  | start : Reached m config (.call m.size (.start m))
  /-- A call chooses a variable and puts its values in order. -/
  | select {left : Nat} {s : Solver} {v : Nat} (call : Reached m config (.call (left + 1) s))
    (decided : canSelect m config.variableOrder s.search.domains s.assigned = true)
    (chosen : selectVariable? m config.variableOrder s.search.domains s.assigned = some v)
    (ordered : canOrder m config.valueOrder s.search.domains s.assigned v = true) :
    Reached m config (.head left s v s
      (orderValues m config.valueOrder s.search.domains s.assigned v))
  /-- A value in conflict is passed over. -/
  | pass {left : Nat} {entry s : Solver} {v ix : Nat} {rest : List Nat}
    (head : Reached m config (.head left entry v s (ix :: rest)))
    (decided : m.canCount s.assigned v ix = true) (conflicts : m.conflictsAt s.assigned v ix ≠ 0) :
    Reached m config (.head left entry v s rest)
  /-- A value is assigned, and the inference lets the search go on. -/
  | descend {left : Nat} {entry s : Solver} {v ix : Nat} {rest : List Nat} {d : Domains}
    (head : Reached m config (.head left entry v s (ix :: rest)))
    (tries : Tries m config s.assigned v s.search ix)
    (inferred : infer m config.inference (s.assign v ix).search.domains (s.assign v ix).assigned v ix
      = (d, .consistent)) :
    Reached m config (.call left { s.assign v ix with search.domains := d })
  /-- A value that failed is taken back. -/
  | back {left : Nat} {entry s after : Solver} {v ix : Nat} {rest : List Nat}
    (head : Reached m config (.head left entry v s (ix :: rest)))
    (tries : Tries m config s.assigned v s.search ix)
    (failed : attemptInPlace m config (searchInPlace m config left) v s ix = (after, .failed)) :
    Reached m config (.head left entry v (after.takeBack v s.search.domains.checkpoint) rest)

/-- What holds at every point: the sizes are the numbers of live values, and at the head of a loop
nothing is left of the values before. -/
def SearchPoint.Steady (m : Model ν) (config : BacktrackConfig) : SearchPoint → Prop
  | .call _ s => s.search.domains.Counted
  | .head _ entry v s rest => entry.search.domains.Counted ∧ entry.assigned[v]? = some none ∧
      entry.LeavesNoTrace s ∧
      rest <:+ orderValues m config.valueOrder entry.search.domains entry.assigned v

theorem Reached.steady {config : BacktrackConfig} {point : SearchPoint}
    (h : Reached m config point) : point.Steady m config := by
  induction h with
  | start => exact Domains.counted_full m
  | select _ _ chosen _ ih =>
    exact ⟨ih, mem_unassignedVariables_iff.1 (mem_of_selectVariable? chosen), ⟨rfl, .refl _⟩,
      List.suffix_refl _⟩
  | pass _ _ _ ih =>
    obtain ⟨hcounted, hv, hs, hrest⟩ := ih
    exact ⟨hcounted, hv, hs, (List.suffix_cons _ _).trans hrest⟩
  | @descend left entry s v ix rest d _ _ inferred ih =>
    obtain ⟨hcounted, -, hs, -⟩ := ih
    have hd := infer_preserves (m := m) (p := Domains.Counted)
      (fun _ w places h => h.pruneAll w places) config.inference (s.assign v ix).assigned v ix
      ((hs.search.counted hcounted).restrictTo v ix)
    rwa [show s.search.domains.restrictTo v ix = (s.assign v ix).search.domains from rfl,
      inferred] at hd
  | back _ _ failed ih =>
    obtain ⟨hcounted, hv, hs, hrest⟩ := ih
    rw [← hs.assigned] at hv
    obtain ⟨hassigned, hattempt⟩ := takeBack_attempt (searchInPlace_mirrors config _) hv failed
    have htraceless := attempt_traceless (backtrack_traceless config _)
      (hs.search.counted hcounted) hattempt
    exact ⟨hcounted, hs.assigned ▸ hv, ⟨hassigned.trans hs.assigned, hs.search.trans htraceless⟩,
      (List.suffix_cons _ _).trans hrest⟩

/-- **A failed branch leaves no trace.** Changing its assignment in place, the search comes to what
it comes to if it is given the assignment. A call that fails leaves the partial assignment, the
marks of live values, their numbers and the trail as it found them, and no count becomes less. At
the head of every round of the loop over the values of a variable, all these are as they were when
the call began, and the values that were put in order then are the live ones. -/
theorem failedBranch_leavesNoTrace (m : Model ν) (config : BacktrackConfig) :
    (∀ left s, Reached m config (.call left s) →
      (searchInPlace m config left s).1.search = (backtrack m config left s.search s.assigned).1 ∧
      (searchInPlace m config left s).2 = (backtrack m config left s.search s.assigned).2 ∧
      ((searchInPlace m config left s).2 = .failed →
        s.LeavesNoTrace (searchInPlace m config left s).1)) ∧
    ∀ left entry v s rest, Reached m config (.head left entry v s rest) →
      entry.LeavesNoTrace s ∧
      rest <:+ orderValues m config.valueOrder entry.search.domains entry.assigned v ∧
      (orderValues m config.valueOrder entry.search.domains entry.assigned v).Perm
        (s.search.domains.indices v) := by
  constructor
  · intro left s h
    have hmirrors := searchInPlace_mirrors (m := m) config left s
    refine ⟨hmirrors.search, hmirrors.verdict, fun hfailed => ⟨hmirrors.restored hfailed, ?_⟩⟩
    rw [hmirrors.search]
    exact backtrack_traceless config left s.search s.assigned h.steady
      (hmirrors.verdict ▸ hfailed)
  · intro left entry v s rest h
    obtain ⟨-, -, hs, hrest⟩ := h.steady
    refine ⟨hs, hrest, ?_⟩
    rw [hs.search.domains.indices v]
    exact orderValues_perm _ _ _ v

/-- Forward checking, two variables deep in a triangle of two colours: the first value of the first
variable fails and is taken back with what it removed, and then so does the second. -/
theorem twoColouredTriangle_leavesNoTrace :
    let config : BacktrackConfig := { inference := .forwardChecking }
    ∃ s, Reached twoColouredTriangle config (.head 2 (.start twoColouredTriangle) 0 s [1]) ∧
      s.search.assignments = 2 ∧ (Solver.start twoColouredTriangle).LeavesNoTrace s ∧
      (s.search.domains.indices 0).Perm [0, 1] ∧
      (searchInPlace twoColouredTriangle config 3 (.start twoColouredTriangle)).2 = .failed ∧
      (Solver.start twoColouredTriangle).LeavesNoTrace
        (searchInPlace twoColouredTriangle config 3 (.start twoColouredTriangle)).1 := by
  intro config
  have hsize : twoColouredTriangle.size = 3 := by cbv
  have hstart : Reached twoColouredTriangle config (.call 3 (.start twoColouredTriangle)) :=
    hsize ▸ Reached.start
  have horder : orderValues twoColouredTriangle config.valueOrder
      (Solver.start twoColouredTriangle).search.domains
      (Solver.start twoColouredTriangle).assigned 0 = [0, 1] := by cbv
  have hfirst : Reached twoColouredTriangle config
      (.head 2 (.start twoColouredTriangle) 0 (.start twoColouredTriangle) [0, 1]) :=
    horder ▸ hstart.select (by cbv) (by cbv) (by cbv)
  have hattempt : (attemptInPlace twoColouredTriangle config
      (searchInPlace twoColouredTriangle config 2) 0 (.start twoColouredTriangle) 0).2 = .failed := by
    cbv
  have hsecond := hfirst.back ⟨by cbv, by cbv, by cbv⟩ (Prod.ext rfl hattempt)
  have hfailed : (searchInPlace twoColouredTriangle config 3 (.start twoColouredTriangle)).2
      = .failed := by cbv
  obtain ⟨hcalls, hheads⟩ := failedBranch_leavesNoTrace twoColouredTriangle config
  obtain ⟨htrace, -, hperm⟩ := hheads _ _ _ _ _ hsecond
  exact ⟨_, hsecond, by cbv, htrace, horder ▸ hperm.symm, hfailed,
    (hcalls _ _ hstart).2.2 hfailed⟩

end ProblemSolving
