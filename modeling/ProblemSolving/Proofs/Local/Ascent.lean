import Mathlib.Data.List.Chain
import ProblemSolving.Local.HillClimbing
import ProblemSolving.Proofs.Number.Exact

/-!
# Steepest ascent

* `Landscape.FirstHighest` : the first of some moves whose results have the highest value.
* `Landscape.Holds`, `Landscape.holds_steepest?` : the scan of the neighbours finds it.
* `Landscape.Climbs` : a climb, with the states that it went through.
* `hillClimbing_steepest` : hill climbing goes up by the steepest moves, and stops at a local
  maximum, where there is no move, or when its steps are used up.
-/

namespace ProblemSolving

variable {σ α κ : Type} [Scalar κ]

/-! ## The highest neighbour -/

namespace Landscape

/-- The first of some moves whose results have the highest value: those before it lead to lower
values, and those after it to none that are higher. -/
def FirstHighest (L : Landscape σ α κ) (s : σ) (moves : List α) (move : α) : Prop :=
  ∃ before after, moves = before ++ move :: after ∧
    (∀ m ∈ before, Scalar.lt (L.value (L.apply s m)) (L.value (L.apply s move)) = true) ∧
    ∀ m ∈ after, Scalar.le (L.value (L.apply s m)) (L.value (L.apply s move)) = true

/-- A steepest move leads from one state to another. -/
def Steepest (L : Landscape σ α κ) (s next : σ) : Prop :=
  ∃ move, L.FirstHighest s (L.moves s) move ∧ next = L.apply s move

/-- Every state has a value that is a number. -/
def Valued (L : Landscape σ α κ) : Prop := ∀ s, Scalar.isNaN (L.value s) = false

variable [StrictScalar κ] {L : Landscape σ α κ} {s : σ} {moves : List α} {move m : α}

theorem FirstHighest.le (hv : L.Valued) (h : L.FirstHighest s moves move) (hm : m ∈ moves) :
    Scalar.le (L.value (L.apply s m)) (L.value (L.apply s move)) = true := by
  obtain ⟨before, after, rfl, hbefore, hafter⟩ := h
  rcases List.mem_append.1 hm with hm | hm
  · exact StrictScalar.le_of_lt (hbefore m hm)
  · rcases List.mem_cons.1 hm with rfl | hm
    · exact OrderedScalar.le_refl (hv _)
    · exact hafter m hm

theorem FirstHighest.beaten (hv : L.Valued) (h : L.FirstHighest s moves move)
    (hlt : Scalar.lt (L.value (L.apply s move)) (L.value (L.apply s m)) = true) :
    L.FirstHighest s (moves ++ [m]) m :=
  ⟨moves, [], rfl, fun _ hm' => StrictScalar.lt_of_le_of_lt (h.le hv hm') hlt, by simp⟩

theorem FirstHighest.kept (hv : L.Valued) (h : L.FirstHighest s moves move)
    (hlt : Scalar.lt (L.value (L.apply s move)) (L.value (L.apply s m)) = false) :
    L.FirstHighest s (moves ++ [m]) move := by
  obtain ⟨before, after, rfl, hbefore, hafter⟩ := h
  refine ⟨before, after ++ [m], by simp, hbefore, fun m' hm' => ?_⟩
  rcases List.mem_append.1 hm' with hm' | hm'
  · exact hafter m' hm'
  · obtain rfl := List.mem_singleton.1 hm'
    exact StrictScalar.le_of_not_lt (hv _) (hv _) hlt

/-- What the scan of some moves holds: nothing if there are none, or else what the first highest of
them leads to. -/
def Holds (L : Landscape σ α κ) (s : σ) (moves : List α) : Option (σ × κ) → Prop
  | none => moves = []
  | some (next, value) =>
    ∃ move, L.FirstHighest s moves move ∧ next = L.apply s move ∧ value = L.value next

theorem Holds.scan (hv : L.Valued) {best : Option (σ × κ)} (h : L.Holds s moves best) (m : α) :
    L.Holds s (moves ++ [m]) (better best (L.apply s m) (L.value (L.apply s m))) := by
  cases best with
  | none =>
    obtain rfl : moves = [] := h
    exact ⟨m, ⟨[], [], rfl, by simp, by simp⟩, rfl, rfl⟩
  | some leader =>
    obtain ⟨next, value⟩ := leader
    obtain ⟨move, hfirst, rfl, rfl⟩ := h
    unfold better
    dsimp only
    split
    next hlt => exact ⟨m, hfirst.beaten hv hlt, rfl, rfl⟩
    next hlt => exact ⟨move, hfirst.kept hv (Bool.eq_false_iff.2 hlt), rfl, rfl⟩

theorem holds_steepest? (hv : L.Valued) (s : σ) : L.Holds s (L.moves s) (L.steepest? s) := by
  unfold steepest?
  induction L.moves s using List.reverseRecOn with
  | nil => rfl
  | append_singleton moves m ih =>
    rw [List.foldl_append, List.foldl_cons, List.foldl_nil]
    exact ih.scan hv m

/-! ## A climb -/

/-- A climb of at most `left` more steps, and the states that it goes through from a first one. -/
structure Climbs (L : Landscape σ α κ) (left steps : Nat) (s : σ) (later : List σ)
    (out : LocalOutcome σ κ) : Prop where
  steps_eq : out.steps = steps + later.length
  length_le : later.length ≤ left
  last : (s :: later).getLast? = some out.state
  steepest : (s :: later).IsChain L.Steepest
  rises : (s :: later).IsChain fun s next => Scalar.lt (L.value s) (L.value next) = true
  value_eq : out.value = L.value out.state
  peak : out.termination = .localMaximum → L.moves out.state ≠ [] ∧ ∀ move ∈ L.moves out.state,
    Scalar.lt (L.value out.state) (L.value (L.apply out.state move)) = false
  alone : out.termination = .noNeighbors → L.moves out.state = []
  spent : out.termination = .stepBudgetExceeded → later.length = left
  ends : out.termination ∈ [LocalTermination.localMaximum, .noNeighbors, .stepBudgetExceeded]

omit [StrictScalar κ] in
theorem Climbs.cons {left steps : Nat} {s next : σ} {later : List σ} {out : LocalOutcome σ κ}
    (h : L.Climbs left (steps + 1) next later out) (hsteepest : L.Steepest s next)
    (hrises : Scalar.lt (L.value s) (L.value next) = true) :
    L.Climbs (left + 1) steps s (next :: later) out where
  steps_eq := by
    have hsteps := h.steps_eq
    rw [List.length_cons]
    omega
  length_le := Nat.succ_le_succ h.length_le
  last := by
    rw [List.getLast?_cons_cons]
    exact h.last
  steepest := List.isChain_cons_cons.2 ⟨hsteepest, h.steepest⟩
  rises := List.isChain_cons_cons.2 ⟨hrises, h.rises⟩
  value_eq := h.value_eq
  peak := h.peak
  alone := h.alone
  spent hterm := congrArg (· + 1) (h.spent hterm)
  ends := h.ends

theorem climb_climbs (hv : L.Valued) (left steps : Nat) (s : σ) :
    ∃ later, L.Climbs left steps s later (L.climb left steps s (L.value s)) := by
  induction left generalizing steps s with
  | zero =>
    exact ⟨[], rfl, le_rfl, rfl, .singleton _, .singleton _, rfl, nofun, nofun, fun _ => rfl,
      by simp [climb]⟩
  | succ left ih =>
    have hscan := holds_steepest? hv s
    unfold climb
    split
    next hnone =>
      rw [hnone] at hscan
      exact ⟨[], rfl, Nat.zero_le _, rfl, .singleton _, .singleton _, rfl, nofun, fun _ => hscan,
        nofun, by simp⟩
    next next value hsome =>
      rw [hsome] at hscan
      obtain ⟨move, hfirst, rfl, rfl⟩ := hscan
      split
      next hle =>
        refine ⟨[], rfl, Nat.zero_le _, rfl, .singleton _, .singleton _, rfl,
          fun _ => ⟨?_, fun m hm => ?_⟩, nofun, nofun, by simp⟩
        · obtain ⟨before, after, hmoves, -⟩ := hfirst
          exact List.ne_nil_of_mem (a := move) (by rw [hmoves]; simp)
        · exact StrictScalar.not_lt_of_le (OrderedScalar.le_trans (hfirst.le hv hm) hle)
      next hle =>
        obtain ⟨later, h⟩ := ih (steps + 1) (L.apply s move)
        exact ⟨_, h.cons ⟨move, hfirst, rfl⟩
          (StrictScalar.lt_of_not_le (hv _) (hv _) (Bool.eq_false_iff.2 hle))⟩

end Landscape

/-- On the way to where it stops, hill climbing goes from each state to what its steepest move leads
to, and the value rises all the time, so no state comes twice. It stops at a local maximum, where
there is no move, or when its steps are used up. -/
theorem hillClimbing_steepest [StrictScalar κ] {L : Landscape σ α κ} (hv : L.Valued)
    (config : ClimbConfig) :
    let out := hillClimbing L config
    (∃ later : List σ,
      later.length = out.steps ∧ out.steps ≤ config.maxSteps ∧
      (L.initial :: later).getLast? = some out.state ∧
      (L.initial :: later).IsChain L.Steepest ∧
      (L.initial :: later).Pairwise (fun s s' => Scalar.lt (L.value s) (L.value s') = true) ∧
      (L.initial :: later).Nodup) ∧
    out.value = L.value out.state ∧
    (out.termination = .localMaximum → L.moves out.state ≠ [] ∧ ∀ move ∈ L.moves out.state,
      Scalar.lt (L.value out.state) (L.value (L.apply out.state move)) = false) ∧
    (out.termination = .noNeighbors → L.moves out.state = []) ∧
    (out.termination = .stepBudgetExceeded → out.steps = config.maxSteps) ∧
    out.termination ∈
      [LocalTermination.localMaximum, .noNeighbors, .stepBudgetExceeded] := by
  intro out
  obtain ⟨later, h⟩ := Landscape.climb_climbs hv config.maxSteps 0 L.initial
  have hsteps : out.steps = later.length := h.steps_eq.trans (Nat.zero_add _)
  have hrises : (L.initial :: later).Pairwise
      (fun s s' => Scalar.lt (L.value s) (L.value s') = true) :=
    haveI : IsTrans σ (fun s s' => Scalar.lt (L.value s) (L.value s') = true) :=
      ⟨fun _ _ _ => StrictScalar.lt_trans⟩
    List.isChain_iff_pairwise.1 h.rises
  refine ⟨⟨later, hsteps.symm, hsteps ▸ h.length_le, h.last, h.steepest, hrises, ?_⟩, h.value_eq,
    h.peak, h.alone, fun hterm => hsteps.trans (h.spent hterm), h.ends⟩
  refine hrises.imp fun {s s'} hlt => ?_
  rintro rfl
  exact Bool.eq_false_iff.1 (StrictScalar.not_lt_of_le (OrderedScalar.le_refl (hv _))) hlt

/-- From the first place two others are the highest, and one of them has a way on to the top. -/
def ridge : Landscape Nat Nat Double where
  initial := 0
  moves
    | 0 => [1, 2, 3]
    | 2 => [0, 4]
    | 4 => [3]
    | _ => []
  apply _ next := next
  value
    | 0 => .ofNat 0
    | 1 => .ofNat 1
    | 2 => .ofNat 3
    | 3 => .ofNat 3
    | _ => .ofNat 4

theorem valued_ridge : ridge.Valued := by
  intro s
  show (ridge.value s).isNaN = false
  unfold ridge
  dsimp only
  split <;> decide +kernel

theorem ridge_climbed :
    ridge.Valued ∧ (hillClimbing ridge ⟨5⟩).steps = 2 ∧ (hillClimbing ridge ⟨5⟩).state = 4 ∧
      ridge.moves 4 ≠ [] ∧ ∀ move ∈ ridge.moves 4,
        Scalar.lt (ridge.value 4) (ridge.value (ridge.apply 4 move)) = false := by
  have hout : (hillClimbing ridge ⟨5⟩).steps = 2 ∧ (hillClimbing ridge ⟨5⟩).state = 4 ∧
    (hillClimbing ridge ⟨5⟩).termination = .localMaximum := by
    decide +kernel
  obtain ⟨hsteps, hstate, hterm⟩ := hout
  have htop := (hillClimbing_steepest valued_ridge ⟨5⟩).2.2.1 hterm
  rw [hstate] at htop
  exact ⟨valued_ridge, hsteps, hstate, htop⟩

end ProblemSolving
