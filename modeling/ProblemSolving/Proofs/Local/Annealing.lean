import ProblemSolving.Local.Annealing
import ProblemSolving.Random.SplitMix
import ProblemSolving.Proofs.Number.Signs
import ProblemSolving.Proofs.Random.UnitInterval

/-!
# Annealing runs

* `Tick`, `annealTicks` : an annealing run that notes its ticks.
* `snd_annealTicks` : it draws what an annealing run draws, and ends where that ends.
* `Landscape.Follows`, `Landscape.Walk` : legal ticks, and legal moves.
* `Exponential` : what is known of the exponential function.
* `accepts_always` : a move that leads no lower is accepted, whatever is drawn.
* `annealing_sound` : annealing stops within its schedule, after legal moves.
-/

namespace ProblemSolving

variable {σ α κ ρ : Type}

/-! ## Ticks -/

/-- A tick of an annealing run: where it was, the move that it drew, and whether it went there. -/
structure Tick (σ α : Type) where
  state : σ
  move : α
  accepted : Bool

section
variable [Scalar κ] [RandomSource ρ]

/-- Anneals from a tick on and notes the ticks. -/
def annealTicks (exp : κ → κ) (L : Landscape σ α κ) (config : TimedAnnealing κ) :
    (left t : Nat) → (state : σ) → (value : κ) → Draw ρ (List (Tick σ α) × LocalOutcome σ κ)
  | 0, t, state, value => return ([], ⟨state, value, t, .scheduleExhausted⟩)
  | left + 1, t, state, value => do
    let temperature := config.schedule.temperature exp t
    if Scalar.le temperature 0 then return ([], ⟨state, value, t, .scheduleExhausted⟩)
    else if config.timeIsUp t then return ([], ⟨state, value, t, .timeBudgetExceeded⟩)
    else match ← Draw.choose (L.moves state) with
    | none => return ([], ⟨state, value, t, .noNeighbors⟩)
    | some move =>
      let next := L.apply state move
      let accepted ← accepts exp (L.value next - value) temperature
      let run ← annealTicks exp L config left (t + 1) (if accepted then next else state)
        (if accepted then L.value next else value)
      return (⟨state, move, accepted⟩ :: run.1, run.2)

/-- Noting the ticks changes neither the outcome nor what is drawn. -/
theorem snd_annealTicks (exp : κ → κ) (L : Landscape σ α κ) (config : TimedAnnealing κ) (left t : Nat)
    (state : σ) (value : κ) :
    (Prod.snd <$> annealTicks exp L config left t state value : Draw ρ _) =
      annealFrom exp L config left t state value := by
  induction left generalizing t state value with
  | zero => rfl
  | succ left ih =>
    unfold annealTicks annealFrom
    dsimp only
    split
    · rfl
    · split
      · rfl
      · rw [map_bind]
        refine bind_congr fun drawn => ?_
        cases drawn with
        | none => rfl
        | some move =>
          dsimp only
          rw [map_bind]
          refine bind_congr fun accepted => ?_
          rw [map_bind]
          cases accepted with
          | true => exact ih _ _ _
          | false => exact ih _ _ _

end

/-! ## Legal ticks -/

namespace Landscape

/-- Legal ticks from one state to another: each draws a move from where it is, and goes there if it
accepts it. -/
inductive Follows (L : Landscape σ α κ) : σ → List (Tick σ α) → σ → Prop
  | nil (s : σ) : Follows L s [] s
  | cons {s u : σ} {move : α} {accepted : Bool} {log : List (Tick σ α)}
      (legal : move ∈ L.moves s)
      (later : Follows L (if accepted then L.apply s move else s) log u) :
      Follows L s (⟨s, move, accepted⟩ :: log) u

/-- Legal moves from one state to another. -/
inductive Walk (L : Landscape σ α κ) : σ → List α → σ → Prop
  | nil (s : σ) : Walk L s [] s
  | cons {s u : σ} {move : α} {moves : List α} (legal : move ∈ L.moves s)
      (later : Walk L (L.apply s move) moves u) : Walk L s (move :: moves) u

/-- The accepted moves are a walk, of at most as many moves as there are ticks. -/
theorem Follows.walk {L : Landscape σ α κ} {s u : σ} {log : List (Tick σ α)}
    (h : L.Follows s log u) : ∃ moves, moves.length ≤ log.length ∧ L.Walk s moves u := by
  induction h with
  | nil s => exact ⟨[], le_rfl, .nil s⟩
  | @cons s u move accepted log legal later ih =>
    obtain ⟨moves, hlength, hwalk⟩ := ih
    cases accepted with
    | true => exact ⟨move :: moves, Nat.succ_le_succ hlength, .cons legal hwalk⟩
    | false => exact ⟨moves, hlength.trans (Nat.le_succ _), hwalk⟩

end Landscape

/-! ## Temperatures and acceptance -/

/-- What is known of the exponential function: it is one at zero, and of numbers not negative. -/
structure Exponential (exp : Double → Double) : Prop where
  zero : ∀ z, z.magnitude = 0 → exp z = 1
  nonneg : ∀ z, z.isNaN = false → Scalar.le 0 (exp z) = true

/-- A schedule that may be used: it has no fault, and its ticks are counted in 64 bits. -/
structure Cooling.Valid (c : Cooling Double) : Prop where
  fault : c.fault? = none
  limit : c.limit < 2 ^ 64

theorem Cooling.Valid.finite {c : Cooling Double} (h : c.Valid) :
    (c.k.isFinite = true ∧ Double.lt 0 c.k = true) ∧ c.lambda.isFinite = true := by
  have hfault := h.fault
  unfold fault? at hfault
  split at hfault
  · cases hfault
  next hk =>
    split at hfault
    · cases hfault
    next hlambda =>
      simp only [Bool.not_eq_true', Bool.not_eq_false, Bool.and_eq_true] at hk hlambda
      exact ⟨hk, hlambda.1⟩

section
variable {exp : Double → Double} {c : Cooling Double} {t : Nat}

theorem Cooling.temperature_nonneg (hexp : Exponential exp) (hc : c.Valid) (t : Nat) :
    Scalar.le 0 (c.temperature exp t) = true := by
  obtain ⟨⟨hk, hpos⟩, hlambda⟩ := hc.finite
  unfold temperature
  split
  next ht =>
    have hcount := Double.isFinite_ofNat (ht.trans hc.limit)
    exact Double.mul_nonneg hk hpos
      (hexp.nonneg _ (Double.isNaN_mul (x := c.lambda.neg) hlambda hcount))
  next => exact OrderedScalar.zero_le_zero

theorem Cooling.temperature_limit (c : Cooling Double) :
    (c.temperature exp c.limit).magnitude = 0 := by
  unfold temperature
  rw [if_neg (Nat.lt_irrefl _)]
  rfl

/-- A move that leads no lower is accepted at any temperature above zero, whatever is drawn. -/
theorem accepts_always [RandomSource ρ] (hexp : Exponential exp) {x y T : Double}
    (hx : x.isFinite = true) (hy : y.isFinite = true) (hT : T.isNaN = false)
    (hpos : T.magnitude ≠ 0) :
    Draw.Always (accepts exp (y - x) T : Draw ρ Bool) fun accepted =>
      Scalar.le x y = true → accepted = true := by
  unfold accepts
  split
  next => exact .pure fun _ => rfl
  next hgain =>
    refine Draw.unit_always.bind fun u hu => .pure fun hle => ?_
    rcases Double.sub_of_le hx hy hle with hlt | hzero
    · exact absurd hlt hgain
    · -- no change makes the exponential one, and the number that is drawn is below it
      rw [hexp.zero _ (Double.div_of_zero hzero hT hpos)]
      exact hu.2

end

/-! ## Runs -/

/-- An annealing run from tick `t` on, with `left` ticks until the limit. -/
structure Annealed (exp : Double → Double) (L : Landscape σ α Double) (c : Cooling Double)
    (left t : Nat) (s : σ) (run : List (Tick σ α) × LocalOutcome σ Double) : Prop where
  steps_eq : run.2.steps = t + run.1.length
  length_le : run.1.length ≤ left
  follows : L.Follows s run.1 run.2.state
  value_eq : run.2.value = L.value run.2.state
  uphill : ∀ tick ∈ run.1,
    Scalar.le (L.value tick.state) (L.value (L.apply tick.state tick.move)) = true →
      tick.accepted = true
  alone : run.2.termination = .noNeighbors → L.moves run.2.state = []
  cold : run.2.termination = .scheduleExhausted → (c.temperature exp run.2.steps).magnitude = 0

section
variable {exp : Double → Double} {L : Landscape σ α Double} {c : Cooling Double} {left t : Nat}
  {s : σ} {move : α} {accepted : Bool} {run : List (Tick σ α) × LocalOutcome σ Double}

theorem Annealed.cons (legal : move ∈ L.moves s)
    (hup : Scalar.le (L.value s) (L.value (L.apply s move)) = true → accepted = true)
    (h : Annealed exp L c left (t + 1) (if accepted then L.apply s move else s) run) :
    Annealed exp L c (left + 1) t s (⟨s, move, accepted⟩ :: run.1, run.2) where
  steps_eq := by
    have hsteps := h.steps_eq
    show run.2.steps = t + (run.1.length + 1)
    omega
  length_le := Nat.succ_le_succ h.length_le
  follows := .cons legal h.follows
  value_eq := h.value_eq
  uphill tick htick := by
    rcases List.mem_cons.1 htick with rfl | htick
    · exact hup
    · exact h.uphill tick htick
  alone := h.alone
  cold := h.cold

theorem annealTicks_always [RandomSource ρ] (hexp : Exponential exp)
    (hfinite : ∀ s, (L.value s).isFinite = true) {config : TimedAnnealing Double}
    (hvalid : config.schedule.Valid) (left : Nat) : ∀ (t : Nat) (s : σ),
      t + left = config.schedule.limit →
      Draw.Always (annealTicks exp L config left t s (L.value s) : Draw ρ _)
        (Annealed exp L config.schedule left t s) := by
  induction left with
  | zero =>
    intro t s ht
    refine .pure ⟨rfl, le_rfl, .nil s, rfl, by simp, nofun, fun _ => ?_⟩
    obtain rfl : t = config.schedule.limit := ht
    exact config.schedule.temperature_limit
  | succ left ih =>
    intro t s ht
    have hnonneg := Cooling.temperature_nonneg hexp hvalid t
    unfold annealTicks
    dsimp only
    split
    next hcold =>
      exact .pure ⟨rfl, Nat.zero_le _, .nil s, rfl, by simp, nofun,
        fun _ => (Double.le_zero_iff hnonneg).1 hcold⟩
    next hwarm =>
      split
      next => exact .pure ⟨rfl, Nat.zero_le _, .nil s, rfl, by simp, nofun, nofun⟩
      next =>
        refine (Draw.choose_always (L.moves s)).bind fun drawn hdrawn => ?_
        cases drawn with
        | none =>
          exact .pure ⟨rfl, Nat.zero_le _, .nil s, rfl, by simp, fun _ => hdrawn, nofun⟩
        | some move =>
          have hpos := (Double.le_zero_iff hnonneg).not.1 hwarm
          refine (accepts_always hexp (hfinite s) (hfinite _) (OrderedScalar.isNumber_right hnonneg)
            hpos).bind fun accepted hup => ?_
          rw [← apply_ite L.value]
          exact (ih (t + 1) _ (by omega)).bind fun run h => .pure (h.cons hdrawn hup)

end

/-- The ticks of an annealing run from the initial state on, beside its outcome. -/
def annealLog [Scalar κ] [RandomSource ρ] (exp : κ → κ) (L : Landscape σ α κ)
    (config : TimedAnnealing κ) : Draw ρ (List (Tick σ α) × LocalOutcome σ κ) :=
  annealTicks exp L config config.schedule.limit 0 L.initial (L.value L.initial)

theorem anneal_eq_annealLog [Scalar κ] [RandomSource ρ] (exp : κ → κ) (L : Landscape σ α κ)
    {config : TimedAnnealing κ} (h : config.schedule.fault? = none) :
    (anneal exp L config : Draw ρ _) = (fun run => .ok run.2) <$> annealLog exp L config := by
  unfold anneal annealLog
  rw [h, ← snd_annealTicks]
  rfl

/-- With finite values and a schedule that may be used, annealing stops within its limit, whatever
is drawn. It ends at a state that legal moves lead to, at most one in each tick, and with the value
of that state. It never refuses a move that leads no lower. It stops for want of neighbours only
where there are none, and as exhausted only at temperature zero. -/
theorem annealing_sound [RandomSource ρ] {exp : Double → Double} (hexp : Exponential exp)
    {L : Landscape σ α Double} (hfinite : ∀ s, (L.value s).isFinite = true)
    {config : TimedAnnealing Double} (hvalid : config.schedule.Valid) (source : ρ) :
    let log := (annealLog exp L config source).1.1
    let out := (annealLog exp L config source).1.2
    (anneal exp L config source).1 = .ok out ∧
    out.steps ≤ config.schedule.limit ∧
    (∃ moves : List α, moves.length ≤ out.steps ∧ L.Walk L.initial moves out.state) ∧
    out.value = L.value out.state ∧
    (log.length = out.steps ∧ L.Follows L.initial log out.state ∧ ∀ tick ∈ log,
      Scalar.le (L.value tick.state) (L.value (L.apply tick.state tick.move)) = true →
        tick.accepted = true) ∧
    (out.termination = .noNeighbors → L.moves out.state = []) ∧
    (out.termination = .scheduleExhausted →
      (config.schedule.temperature exp out.steps).magnitude = 0) := by
  intro log out
  have h := annealTicks_always (ρ := ρ) hexp hfinite hvalid config.schedule.limit 0 L.initial
    (Nat.zero_add _) source
  have hsteps : out.steps = log.length := h.steps_eq.trans (Nat.zero_add _)
  obtain ⟨moves, hlength, hwalk⟩ := h.follows.walk
  refine ⟨?_, hsteps ▸ h.length_le, ⟨moves, hsteps ▸ hlength, hwalk⟩, h.value_eq,
    ⟨hsteps.symm, h.follows, h.uphill⟩, h.alone, h.cold⟩
  rw [anneal_eq_annealLog exp L hvalid.fault]
  rfl

/-- An exponential function that is right at zero and at the infinities. -/
def coarseExp (z : Double) : Double :=
  if z.magnitude = 0 then 1 else if z.negative then 0 else .infinity

theorem exponential_coarseExp : Exponential coarseExp where
  zero z hz := if_pos hz
  nonneg z _ := by
    unfold coarseExp
    split
    · decide +kernel
    · split <;> decide

/-- One step up, and two more on the level. -/
def terrace : Landscape Nat Nat Double where
  initial := 0
  moves s := if s < 3 then [s + 1] else []
  apply _ next := next
  value s := if s = 0 then 0 else 1

/-- A schedule that stays at one temperature for five ticks. -/
def steady : TimedAnnealing Double := { schedule := ⟨.ofNat 20, 0, 5⟩ }

theorem terrace_annealed :
    ∃ out, (anneal coarseExp terrace steady (⟨[], 0⟩ : SplitMix)).1 = .ok out ∧ out.steps = 3 ∧
      (∃ moves, moves.length ≤ 3 ∧ terrace.Walk 0 moves 3) ∧ out.value = terrace.value 3 ∧
        terrace.moves 3 = [] := by
  have hfinite : ∀ s, (terrace.value s).isFinite = true := by
    intro s
    unfold terrace
    dsimp only
    split
    · decide
    · decide +kernel
  have hvalid : steady.schedule.Valid :=
    ⟨Option.isNone_iff_eq_none.1 (by decide +kernel), by decide⟩
  have hout : (annealLog coarseExp terrace steady (⟨[], 0⟩ : SplitMix)).1.2.steps = 3 ∧
      (annealLog coarseExp terrace steady (⟨[], 0⟩ : SplitMix)).1.2.state = 3 ∧
      (annealLog coarseExp terrace steady (⟨[], 0⟩ : SplitMix)).1.2.termination = .noNeighbors := by
    decide +kernel
  obtain ⟨hsteps, hstate, hterm⟩ := hout
  obtain ⟨hok, -, hwalk, hvalue, -, halone, -⟩ :=
    annealing_sound exponential_coarseExp hfinite hvalid (⟨[], 0⟩ : SplitMix)
  rw [hsteps, hstate] at hwalk
  rw [hstate] at hvalue
  have hnone := halone hterm
  rw [hstate] at hnone
  exact ⟨_, hok, hsteps, hwalk, hvalue, hnone⟩

end ProblemSolving
