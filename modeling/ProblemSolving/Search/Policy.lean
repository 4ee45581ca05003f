/-!
# Search policies

* `Duration` : a span of time.
* `Clock` : what a run reads from its clock.
* `Policy` : the budgets of a search, and whether it keeps a trace.
* `TimedPolicy` : a policy, with the clock of a run.
-/

namespace ProblemSolving

/-- A span of time in seconds and billionths of a second. -/
structure Duration where
  secs : Nat
  nanos : Nat
deriving DecidableEq

/-- The billionths of a second in a span of time. -/
def Duration.total (d : Duration) : Nat := d.secs * 1000000000 + d.nanos

/-- What a run reads from its clock: the time since its start, at each of its checks. -/
abbrev Clock := Nat → Duration

/-- A clock that stands still. -/
def Clock.still : Clock := fun _ => ⟨0, 0⟩

/-- Whether a time limit is used up when the clock is read. -/
def Clock.expired (clock : Clock) (limit : Option Duration) (reading : Nat) : Bool :=
  match limit with
  | none => false
  | some limit => limit.total ≤ (clock reading).total

/-- The budgets of a search. -/
structure Policy where
  /-- The most expansions. -/
  maxExpansions : Nat := 1000000
  /-- The greatest depth of a node that may be expanded. -/
  maxDepth : Nat := 1000
  /-- The longest time. -/
  timeLimit : Option Duration := none
  /-- Whether expansions are recorded. -/
  recordTrace : Bool := false
deriving DecidableEq

/-- A policy, with the clock of the run that it governs. The clock is read before each expansion, so
a reading is told by the number of expansions before it; where a check is repeated without an
expansion in between, the last reading counts, since the run is stopped with the same outcome at any
of them. -/
structure TimedPolicy extends Policy where
  clock : Clock := .still

/-- A policy on its own governs runs that take no time. -/
instance : Coe Policy TimedPolicy := ⟨fun policy => { policy with }⟩

/-- Whether the time of a run is up after a number of expansions. -/
def TimedPolicy.timeIsUp (policy : TimedPolicy) (expansions : Nat) : Bool :=
  policy.clock.expired policy.timeLimit expansions

end ProblemSolving
