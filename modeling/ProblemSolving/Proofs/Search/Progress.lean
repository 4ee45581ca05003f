import Mathlib.Data.Option.Basic
import Mathlib.Data.List.Infix
import ProblemSolving.Proofs.Search.Runs

/-!
# How far a search has come

* `Stats.SameWork`, `Run.SameWork` : no node was expanded and none was made, whatever else was counted.
* `Progress` : the number of expansions, and those on record.
* `Progress.Grows` : so many more expansions, recorded behind those before.
* `Progress.Visits` : the expansions were of nodes with these states.
-/

namespace ProblemSolving

open scoped List

variable {σ α κ : Type}

/-! ## The same work -/

/-- The expansions and the children are as many. -/
structure Stats.SameWork (stats stats' : Stats) : Prop where
  expansions : stats'.expansions = stats.expansions
  generated : stats'.generated = stats.generated

namespace Stats.SameWork

variable {stats stats' stats'' : Stats}

theorem refl (stats : Stats) : stats.SameWork stats := ⟨rfl, rfl⟩

theorem trans (h : stats.SameWork stats') (h' : stats'.SameWork stats'') : stats.SameWork stats'' :=
  ⟨h'.expansions.trans h.expansions, h'.generated.trans h.generated⟩

end Stats.SameWork

/-- The runs have the same tree and the same record, and have done the same work. -/
structure Run.SameWork (run run' : Run σ α κ) : Prop where
  tree : run'.tree = run.tree
  log : run'.log = run.log
  stats : run.stats.SameWork run'.stats

namespace Run.SameWork

variable {run run' run'' : Run σ α κ}

theorem refl (run : Run σ α κ) : run.SameWork run := ⟨rfl, rfl, .refl _⟩

theorem trans (h : run.SameWork run') (h' : run'.SameWork run'') : run.SameWork run'' :=
  ⟨h'.tree.trans h.tree, h'.log.trans h.log, h.stats.trans h'.stats⟩

theorem of_stats {stats : Stats} (h : run.stats.SameWork stats) : run.SameWork { run with stats } :=
  ⟨rfl, rfl, h⟩

end Run.SameWork

/-! ## Progress -/

/-- How far a search has come. -/
structure Progress (κ : Type) where
  expansions : Nat
  /-- The expansions on record. -/
  events : Option (List (ExpandEvent κ))

def Run.progress (run : Run σ α κ) : Progress κ := ⟨run.stats.expansions, run.events⟩

def Result.progress (r : Result σ α κ) : Progress κ := ⟨r.stats.expansions, r.events⟩

@[simp] theorem Run.progress_finish (run : Run σ α κ) (algorithm : String)
    (termination : Termination κ) : (run.finish algorithm termination).progress = run.progress := by
  simp [Result.progress, Run.progress]

theorem Run.SameWork.progress {run run' : Run σ α κ} (h : run.SameWork run') :
    run'.progress = run.progress := by
  unfold Run.progress Run.events
  rw [h.stats.expansions, h.log]

theorem Result.Agree.progress {r r' : Result σ α κ} (h : r.Agree r') : r.progress = r'.progress := by
  unfold Result.progress
  rw [h.stats, h.events]

/-- The record goes on from another one. -/
def Continues (events events' : Option (List (ExpandEvent κ))) : Prop :=
  Option.Rel (· <+: ·) events events'

namespace Continues

variable {events events' events'' : Option (List (ExpandEvent κ))}

theorem refl : (events : Option (List (ExpandEvent κ))) → Continues events events
  | none => .none
  | some _ => .some List.prefix_rfl

theorem trans (h : Continues events events') (h' : Continues events' events'') :
    Continues events events'' := by
  cases h with
  | none => exact h'
  | some hbegins =>
    cases h' with
    | some hbegins' => exact .some (hbegins.trans hbegins')

end Continues

/-- So many more expansions, recorded behind those before. -/
structure Progress.Grows (n : Nat) (p p' : Progress κ) : Prop where
  expansions : p'.expansions = p.expansions + n
  events : Continues p.events p'.events

namespace Progress.Grows

theorem refl (p : Progress κ) : p.Grows 0 p := ⟨rfl, .refl _⟩

theorem trans {m n : Nat} {p p' p'' : Progress κ} (h : p.Grows m p') (h' : p'.Grows n p'') :
    p.Grows (m + n) p'' :=
  ⟨by rw [h'.expansions, h.expansions, Nat.add_assoc], h.events.trans h'.events⟩

end Progress.Grows

namespace Run

variable {run run' : Run σ α κ} {parent : Placed σ α κ} {f : κ}

theorem progress_record (parent : Placed σ α κ) (f : κ) (kids : List (Placed σ α κ))
    (run : Run σ α κ) : run.progress.Grows 1 (record parent f kids run).progress := by
  refine ⟨rfl, ?_⟩
  show Continues run.events (record parent f kids run).events
  rw [events_record]
  cases run.events with
  | none => exact .none
  | some events => exact .some (List.prefix_append ..)

variable [Scalar κ] {P : Problem σ α κ}

theorem progress_expand_ok {kids : List (Placed σ α κ)}
    (h : run.expand P parent f = (run', .ok kids)) : run.progress.Grows 1 run'.progress := by
  rw [(expand_ok h).2]
  exact progress_record parent f kids ⟨run'.tree, run.stats, run.log⟩

theorem progress_expand_error {violation : Violation κ}
    (h : run.expand P parent f = (run', .error violation)) : run'.progress = run.progress := by
  obtain ⟨hstats, hlog⟩ := expand_error h
  unfold progress events
  rw [hstats, hlog]

end Run

/-! ## The expanded states -/

/-- There were as many expansions as states, and those on record were of nodes with these states, in
this order. -/
structure Progress.Visits (t : SearchTree σ α κ) (p : Progress κ) (states : List σ) : Prop where
  count : p.expansions = states.length
  recorded : ∀ events, p.events = some events →
    events.map (fun e => (t.get? e.node).map (·.state)) = states.map some

theorem Progress.Visits.keeps {t t' : SearchTree σ α κ} {p : Progress κ} {states : List σ}
    (h : p.Visits t states) (hk : t.Keeps t') : p.Visits t' states := by
  refine ⟨h.count, fun events hevents => ?_⟩
  have hrecorded := h.recorded events hevents
  rw [← hrecorded]
  refine List.map_congr_left fun e he => ?_
  have hmem : (t.get? e.node).map (·.state) ∈ states.map some := by
    rw [← hrecorded]
    exact List.mem_map.2 ⟨e, he, rfl⟩
  obtain ⟨state, -, hstate⟩ := List.mem_map.1 hmem
  obtain ⟨node, hnode, -⟩ := Option.map_eq_some_iff.1 hstate.symm
  rw [hnode, hk _ _ hnode]

namespace Run

variable [Scalar κ] {P : Problem σ α κ} {run run' : Run σ α κ} {parent : Placed σ α κ} {f : κ}
  {states : List σ}

theorem visits_start (P : Problem σ α κ) (policy : TimedPolicy) :
    (start P policy).1.progress.Visits (start P policy).1.tree [] := by
  refine ⟨rfl, fun events hevents => ?_⟩
  unfold start empty progress Run.events at hevents
  cases hrecord : policy.recordTrace with
  | true =>
    simp only [hrecord] at hevents
    cases hevents
    rfl
  | false =>
    simp only [hrecord] at hevents
    cases hevents

theorem visits_expand_ok {kids : List (Placed σ α κ)} (h : run.progress.Visits run.tree states)
    (hheld : run.tree.Holds parent) (hexpand : run.expand P parent f = (run', .ok kids)) :
    run'.progress.Visits run'.tree (states ++ [parent.node.state]) := by
  obtain ⟨hexpands, hrun⟩ := expand_ok hexpand
  have hprogress : run'.progress =
      (record parent f kids ⟨run'.tree, run.stats, run.log⟩).progress := congrArg progress hrun
  have hparent : run'.tree.get? parent.id = some parent.node := hheld.keeps hexpands.keeps
  have hvisits := h.keeps hexpands.keeps
  rw [hprogress]
  constructor
  case count =>
    rw [List.length_append, ← hvisits.count]
    rfl
  case recorded =>
    intro events hevents
    have hevents' : (record parent f kids ⟨run'.tree, run.stats, run.log⟩).events = some events :=
      hevents
    rw [events_record] at hevents'
    obtain ⟨before, hbefore, rfl⟩ := Option.map_eq_some_iff.1 hevents'
    have hrecorded := hvisits.recorded before hbefore
    rw [List.map_append, hrecorded, List.map_append]
    simp [hparent]

theorem visits_expand_error {violation : Violation κ} (h : run.progress.Visits run.tree states)
    (hexpand : run.expand P parent f = (run', .error violation)) :
    run'.progress.Visits run'.tree states := by
  have hkeeps := run.keeps_expand P parent f
  rw [hexpand] at hkeeps
  rw [progress_expand_error hexpand]
  exact h.keeps hkeeps

end Run

end ProblemSolving
