import Mathlib.Data.List.Chain
import ProblemSolving.Local.HillClimbing
import ProblemSolving.Proofs.Number.Order

/-!
# Climbs over undefined values

The scan of the neighbours keeps its first one unless a later one is above it. A first neighbour
whose value is no number is never beaten, and the climb goes there.

* `Landscape.climbLog`, `Landscape.snd_climbLog` : a climb that notes the states it moves to.
* `Landscape.FirstValued` : the first neighbour of a state has a number for its value.
* `Landscape.value_steepest?` : the best neighbour is a number exactly when the first one is.
* `hillClimbing_rises_iff` : a climb from a number only rises exactly when each state that it leaves
  has a number for its first neighbour.
* `brink_left` : it may end at no number at all.
-/

namespace ProblemSolving

variable {σ α κ : Type} [Scalar κ]

namespace Landscape

/-! ## A climb that is noted -/

/-- Climbs from a state of a known value and notes the states that it moves to. -/
def climbLog (L : Landscape σ α κ) :
    (left steps : Nat) → (state : σ) → (value : κ) → List σ × LocalOutcome σ κ
  | 0, steps, state, value => ([], ⟨state, value, steps, .stepBudgetExceeded⟩)
  | left + 1, steps, state, value =>
    match L.steepest? state with
    | none => ([], ⟨state, value, steps, .noNeighbors⟩)
    | some (next, nextValue) =>
      if Scalar.le nextValue value then ([], ⟨state, value, steps, .localMaximum⟩)
      else
        let run := L.climbLog left (steps + 1) next nextValue
        (next :: run.1, run.2)

/-- Noting the states does not change where a climb ends. -/
theorem snd_climbLog (L : Landscape σ α κ) (left steps : Nat) (s : σ) (value : κ) :
    (L.climbLog left steps s value).2 = L.climb left steps s value := by
  induction left generalizing steps s value with
  | zero => rfl
  | succ left ih =>
    unfold climbLog climb
    cases L.steepest? s with
    | none => rfl
    | some best =>
      dsimp only
      split
      · rfl
      · exact ih _ _ _

/-! ## The scan -/

/-- The first move from a state, if there is one, leads to a value that is a number. -/
def FirstValued (L : Landscape σ α κ) (s : σ) : Prop :=
  ∀ move ∈ (L.moves s).head?, Scalar.isNaN (L.value (L.apply s move)) = false

/-- The value of one state goes up to that of the other. -/
def Rises (L : Landscape σ α κ) (s next : σ) : Prop :=
  Scalar.lt (L.value s) (L.value next) = true

variable [StrictScalar κ] {L : Landscape σ α κ} {s next : σ} {value : κ}

/-- A leader is beaten by numbers only, and only if it is one itself. -/
theorem isNaN_scan (L : Landscape σ α κ) (s : σ) (moves : List α) (leader : σ) :
    ∃ winner, moves.foldl
        (fun best move => let next := L.apply s move; better best next (L.value next))
        (some (leader, L.value leader)) = some (winner, L.value winner) ∧
      Scalar.isNaN (L.value winner) = Scalar.isNaN (L.value leader) := by
  -- the leader may change along the scan, but not whether its value is a number
  induction moves generalizing leader with
  | nil => exact ⟨leader, rfl, rfl⟩
  | cons move moves ih =>
    rw [List.foldl_cons]
    unfold better
    dsimp only
    split
    next hlt =>
      obtain ⟨winner, hscan, hnumber⟩ := ih (L.apply s move)
      obtain ⟨hleader, hnext, -⟩ := StrictScalar.lt_iff.1 hlt
      exact ⟨winner, hscan, by rw [hnumber, hleader, hnext]⟩
    next => exact ih leader

/-- The best neighbour comes with its value, which is a number exactly when that of the first
neighbour is. -/
theorem value_steepest? (h : L.steepest? s = some (next, value)) :
    value = L.value next ∧ (Scalar.isNaN value = false ↔ L.FirstValued s) := by
  unfold steepest? at h
  unfold FirstValued
  cases hmoves : L.moves s with
  | nil =>
    rw [hmoves] at h
    cases h
  | cons first rest =>
    rw [hmoves, List.foldl_cons] at h
    obtain ⟨winner, hscan, hnumber⟩ := L.isNaN_scan s rest (L.apply s first)
    obtain ⟨rfl, rfl⟩ := Prod.mk.inj (Option.some.inj (hscan.symm.trans h))
    refine ⟨rfl, ?_⟩
    rw [hnumber]
    simp

/-! ## The climb -/

/-- A climb from one state through others. From a number, it rises all the time exactly when each
state that it leaves has a number for its first neighbour. -/
structure Noted (L : Landscape σ α κ) (steps : Nat) (s : σ) (later : List σ)
    (out : LocalOutcome σ κ) : Prop where
  steps_eq : out.steps = steps + later.length
  last : (s :: later).getLast? = some out.state
  value_eq : out.value = L.value out.state
  rises_iff : Scalar.isNaN (L.value s) = false →
    ((s :: later).IsChain L.Rises ↔ ∀ u ∈ (s :: later).dropLast, L.FirstValued u)

omit [StrictScalar κ] in
theorem Noted.stay (steps : Nat) (s : σ) (termination : LocalTermination) :
    L.Noted steps s [] ⟨s, L.value s, steps, termination⟩ :=
  ⟨rfl, rfl, rfl, fun _ => iff_of_true (.singleton _) (by simp)⟩

theorem Noted.cons {steps : Nat} {later : List σ} {out : LocalOutcome σ κ}
    (h : L.Noted (steps + 1) next later out)
    (hfirst : Scalar.isNaN (L.value next) = false ↔ L.FirstValued s)
    (hle : Scalar.le (L.value next) (L.value s) = false) :
    L.Noted steps s (next :: later) out where
  steps_eq := by
    have hsteps := h.steps_eq
    rw [List.length_cons]
    omega
  last := by
    rw [List.getLast?_cons_cons]
    exact h.last
  value_eq := h.value_eq
  rises_iff hs := by
    rw [List.isChain_cons_cons, List.dropLast_cons_cons, List.forall_mem_cons]
    constructor
    · rintro ⟨hrises, hlater⟩
      have hnext := (StrictScalar.lt_iff.1 hrises).2.1
      exact ⟨hfirst.1 hnext, (h.rises_iff hnext).1 hlater⟩
    · rintro ⟨hvalued, hlater⟩
      have hnext := hfirst.2 hvalued
      exact ⟨StrictScalar.lt_of_not_le hs hnext hle, (h.rises_iff hnext).2 hlater⟩

theorem noted_climbLog (L : Landscape σ α κ) (left steps : Nat) (s : σ) :
    L.Noted steps s (L.climbLog left steps s (L.value s)).1
      (L.climbLog left steps s (L.value s)).2 := by
  induction left generalizing steps s with
  | zero => exact .stay steps s _
  | succ left ih =>
    unfold climbLog
    split
    next => exact .stay steps s _
    next next value hbest =>
      obtain ⟨rfl, hfirst⟩ := value_steepest? hbest
      split
      next => exact .stay steps s _
      next hle => exact (ih (steps + 1) next).cons hfirst (Bool.eq_false_iff.2 hle)

theorem le_of_rises {later : List σ} {u : σ} (hs : Scalar.isNaN (L.value s) = false)
    (h : (s :: later).IsChain L.Rises) (hu : (s :: later).getLast? = some u) :
    Scalar.le (L.value s) (L.value u) = true := by
  induction later generalizing s with
  | nil =>
    obtain rfl := Option.some.inj hu
    exact OrderedScalar.le_refl hs
  | cons next later ih =>
    obtain ⟨hrises, hlater⟩ := List.isChain_cons_cons.1 h
    rw [List.getLast?_cons_cons] at hu
    exact OrderedScalar.le_trans (StrictScalar.le_of_lt hrises)
      (ih (StrictScalar.lt_iff.1 hrises).2.1 hlater hu)

end Landscape

/-- The states that hill climbing goes through, the initial one included. -/
def climbTrail (L : Landscape σ α κ) (config : ClimbConfig) : List σ :=
  L.initial :: (L.climbLog config.maxSteps 0 L.initial (L.value L.initial)).1

/-- From a state whose value is a number, every move of hill climbing goes up exactly when each state
that it leaves has a number for its first neighbour, wherever else there are values that are none.
Then it ends with a number that is no lower than the first one. -/
theorem hillClimbing_rises_iff [StrictScalar κ] {L : Landscape σ α κ}
    (h : Scalar.isNaN (L.value L.initial) = false) (config : ClimbConfig) :
    let out := hillClimbing L config
    let trail := climbTrail L config
    (L.climbLog config.maxSteps 0 L.initial (L.value L.initial)).2 = out ∧
    (trail.length = out.steps + 1 ∧ trail.getLast? = some out.state ∧
      out.value = L.value out.state) ∧
    (trail.IsChain L.Rises ↔ ∀ s ∈ trail.dropLast, L.FirstValued s) ∧
    ((∀ s ∈ trail.dropLast, L.FirstValued s) →
      Scalar.isNaN out.value = false ∧ Scalar.le (L.value L.initial) out.value = true) := by
  intro out trail
  have hout : (L.climbLog config.maxSteps 0 L.initial (L.value L.initial)).2 = out :=
    L.snd_climbLog _ _ _ _
  have hnoted := L.noted_climbLog config.maxSteps 0 L.initial
  rw [hout] at hnoted
  have hsteps := hnoted.steps_eq
  refine ⟨hout, ⟨?_, hnoted.last, hnoted.value_eq⟩, hnoted.rises_iff h, fun hvalued => ?_⟩
  · show _ + 1 = out.steps + 1
    omega
  · have hle := Landscape.le_of_rises h ((hnoted.rises_iff h).2 hvalued) hnoted.last
    rw [← hnoted.value_eq] at hle
    exact ⟨OrderedScalar.isNumber_right hle, hle⟩

/-- Three neighbours, the second of which has no number for its value. -/
def shelf : Landscape Nat Nat Double where
  initial := 0
  moves s := if s = 0 then [1, 2, 3] else []
  apply _ next := next
  value
    | 2 => .nan false
    | s => .ofNat s

theorem shelf_climbed :
    Scalar.isNaN (shelf.value shelf.initial) = false ∧
      Scalar.isNaN (shelf.value (shelf.apply 0 2)) = true ∧ climbTrail shelf ⟨5⟩ = [0, 3] ∧
      (climbTrail shelf ⟨5⟩).IsChain shelf.Rises ∧
      Scalar.le (shelf.value 0) (hillClimbing shelf ⟨5⟩).value = true := by
  have hnumber : Scalar.isNaN (shelf.value shelf.initial) = false := by decide +kernel
  have htrail : climbTrail shelf ⟨5⟩ = [0, 3] := by decide +kernel
  have hvalued : ∀ s ∈ (climbTrail shelf ⟨5⟩).dropLast, shelf.FirstValued s := by
    rw [htrail]
    intro s hs move hmove
    obtain rfl := List.mem_singleton.1 hs
    obtain rfl : 1 = move := Option.some.inj hmove
    decide +kernel
  obtain ⟨-, -, hrises, hends⟩ := hillClimbing_rises_iff hnumber ⟨5⟩
  exact ⟨hnumber, by decide, htrail, hrises.2 hvalued, (hends hvalued).2⟩

/-- A number, and one neighbour whose value is none. -/
def brink : Landscape Nat Nat Double where
  initial := 0
  moves s := if s = 0 then [1] else []
  apply _ next := next
  value s := if s = 0 then 1 else .nan false

/-- Hill climbing leaves a number for a state whose value is none. -/
theorem brink_left :
    Scalar.isNaN (brink.value brink.initial) = false ∧
      (hillClimbing brink ⟨10⟩).state = 1 ∧ (hillClimbing brink ⟨10⟩).steps = 1 ∧
      Scalar.isNaN (hillClimbing brink ⟨10⟩).value = true ∧
      Scalar.le (brink.value brink.initial) (hillClimbing brink ⟨10⟩).value = false := by
  decide +kernel

end ProblemSolving
