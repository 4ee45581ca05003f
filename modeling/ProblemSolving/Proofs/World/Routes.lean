import Mathlib
import ProblemSolving.Proofs.Search.ExactSums
import ProblemSolving.Proofs.World.RoadMap

/-!
# Routes there and back

* `RoadMap.length` : what a road adds to the cost of a route.
* `Route.wayBack` : the way back from where a route leads.
* `Route.path_wayBack`, `Route.exactCost_wayBack` : it is a route of the reversed problem, and as
  long.
* `roadMaps_symmetric` : a road map is symmetric, and so are the costs of its cheapest routes.
-/

namespace ProblemSolving

variable {κ : Type} [Scalar κ]

/-- What a road adds to the cost of a route; where there is none, an infinite length. -/
def RoadMap.length (m : RoadMap κ) (a b : String) : κ := (m.distance? a b).getD Scalar.infinity

/-- Roads have finite lengths, none of them below zero. -/
def RoadMap.Measured [MeasuredScalar κ] (m : RoadMap κ) : Prop :=
  ∀ a b length, m.distance? a b = some length →
    Scalar.isFinite length = true ∧ Scalar.le 0 length = true

theorem RoadMap.measured_build [MeasuredScalar κ] {calls : List (MapCall κ)}
    (h : ∀ a b length, .connect a b length ∈ calls →
      Scalar.isFinite length = true ∧ Scalar.le 0 length = true) : (build calls).Measured := by
  intro x y length hlength
  rw [distance?_build] at hlength
  obtain ⟨call, hcall, hlast⟩ := List.exists_of_findSome?_eq_some hlength
  cases call with
  | locate name x' y' => exact absurd hlast (by simp [MapCall.length?])
  | connect a b given =>
    rw [MapCall.length?] at hlast
    split at hlast
    · obtain rfl : given = length := Option.some.inj hlast
      exact h a b given (List.mem_reverse.1 hcall)
    · exact absurd hlast (by simp)

/-- The roads are as long there as back. -/
def RoadMap.TwoWay (m : RoadMap κ) : Prop := ∀ a b, m.distance? a b = m.distance? b a

namespace Route

variable {r : Route κ} {estimate : String → κ} {a b : String}

theorem mem_actions_iff :
    b ∈ (r.problem estimate).actions a ↔ ∃ d, r.map.distance? a b = some d := by
  show b ∈ (r.map.neighbors a).map (·.1) ↔ _
  simp only [List.mem_map, Prod.exists, RoadMap.mem_neighbors_iff, exists_eq_right,
    exists_and_right]

/-- The way back from where a route leads that starts at a place. -/
def wayBack : String → List String → List String
  | _, [] => []
  | a, b :: rest => wayBack b rest ++ [a]

section
variable {m : RoadMap κ} {start goal start' goal' : String} {estimate estimate' : String → κ}
  {places : List String}

/-- On two-way roads the way back is a route. -/
theorem path_wayBack (htwo : m.TwoWay)
    (hp : (problem ⟨m, start, goal⟩ estimate).Path a places b) :
    (problem ⟨m, start', goal'⟩ estimate').Path b (wayBack a places) a := by
  induction hp with
  | nil => exact .nil _
  | @cons a b next rest legal _ ih =>
    refine Problem.Path.concat ih ?_
    obtain ⟨d, hd⟩ := mem_actions_iff.1 legal
    exact mem_actions_iff.2 ⟨d, (htwo _ _).trans hd⟩

variable [MeasuredScalar κ]

/-- On two-way roads the way back is as long. -/
theorem exactCost_wayBack (htwo : m.TwoWay)
    (hp : (problem ⟨m, start, goal⟩ estimate).Path a places b) :
    (problem ⟨m, start', goal'⟩ estimate').exactCost m.length b (wayBack a places) =
      (problem ⟨m, start, goal⟩ estimate).exactCost m.length a places := by
  induction hp with
  | nil => rfl
  | @cons a b next rest _ later ih =>
    have hback : m.length next a = m.length a next := by
      unfold RoadMap.length
      rw [htwo]
    have hlater : (problem ⟨m, start', goal'⟩ estimate').Path b (wayBack next rest) next :=
      path_wayBack htwo later
    calc (problem ⟨m, start', goal'⟩ estimate').exactCost m.length b (wayBack next rest ++ [a])
      _ = (problem ⟨m, start, goal⟩ estimate).exactCost m.length next rest +
          (value (m.length next a) + 0) := by
        rw [Problem.exactCost_append hlater]
        exact congrArg (· + _) ih
      _ = value (m.length a next) +
          (problem ⟨m, start, goal⟩ estimate).exactCost m.length next rest := by
        rw [hback, add_zero, add_comm]

theorem weighted_problem (hm : m.Measured) :
    (problem ⟨m, start, goal⟩ estimate).Weighted m.length := by
  have hlength : ∀ a, ∀ b ∈ (problem ⟨m, start, goal⟩ estimate).actions a,
      Scalar.isFinite (m.length a b) = true ∧ Scalar.le 0 (m.length a b) = true := by
    intro a b legal
    obtain ⟨d, hd⟩ := mem_actions_iff.1 legal
    have hd' : m.distance? a b = some d := hd
    rw [RoadMap.length, hd']
    exact hm a b d hd'
  exact ⟨fun _ _ _ _ => rfl, fun a b legal => (hlength a b legal).1,
    fun a b legal => (hlength a b legal).2⟩

/-- A solution that is reversed solves the reversed problem, and is as long. -/
theorem exists_reversed (estimate' : String → κ) (htwo : m.TwoWay)
    (h : (problem ⟨m, start, goal⟩ estimate).Solution places) :
    ∃ places', (problem ⟨m, goal, start⟩ estimate').Solution places' ∧
      (problem ⟨m, goal, start⟩ estimate').exactCost m.length goal places' =
        (problem ⟨m, start, goal⟩ estimate).exactCost m.length start places := by
  obtain ⟨t, hpath, hgoal⟩ := h
  obtain rfl : t = goal := of_decide_eq_true hgoal
  exact ⟨wayBack start places, ⟨start, path_wayBack htwo hpath, decide_eq_true rfl⟩,
    exactCost_wayBack htwo hpath⟩

end

end Route

/-- The length of a road is the one that it was given last, in both directions, and the neighbours
of a place are the ends of its roads, in strictly ascending order. Where no length is negative and
no cost is rounded, the cheapest routes there and back cost the same. -/
theorem roadMaps_symmetric [MeasuredScalar κ] [MonotoneScalar κ] (calls : List (MapCall κ)) :
    let m := RoadMap.build calls
    (∀ a b, m.distance? a b = latestLength? calls a b ∧ m.distance? b a = m.distance? a b) ∧
    (∀ a, ((m.neighbors a).map (·.1)).Pairwise (· < ·) ∧
      ∀ b length, (b, length) ∈ m.neighbors a ↔ m.distance? a b = some length) ∧
    (m.Measured → ∀ a b estimate estimate' policy policy',
      let there := uniformCostSearch (Route.problem ⟨m, a, b⟩ estimate) policy
      let back := uniformCostSearch (Route.problem ⟨m, b, a⟩ estimate') policy'
      there.isGoalReached = true → back.isGoalReached = true →
      there.stats.depthSkipped = 0 → back.stats.depthSkipped = 0 →
      there.tree.SumsExactly m.length → back.tree.SumsExactly m.length →
      ∃ c c', there.pathCost? = some c ∧ back.pathCost? = some c' ∧ value c = value c') := by
  intro m
  refine ⟨fun a b => ⟨RoadMap.distance?_build calls a b, RoadMap.distance?_build_comm calls b a⟩,
    fun a => ⟨RoadMap.pairwise_neighbors m a, fun b length => RoadMap.mem_neighbors_iff⟩, ?_⟩
  intro hm a b estimate estimate' policy policy' there back hthere hback hskipped hskipped'
    hexact hexact'
  have htwo : m.TwoWay := RoadMap.distance?_build_comm calls
  obtain ⟨c, as, hc, hsolution, hvalue, hleast⟩ :=
    uniformCostSearch_exactly (Route.weighted_problem hm) hthere hskipped hexact
  obtain ⟨c', as', hc', hsolution', hvalue', hleast'⟩ :=
    uniformCostSearch_exactly (Route.weighted_problem hm) hback hskipped' hexact'
  obtain ⟨bs, hbs, hsame⟩ := Route.exists_reversed estimate' htwo hsolution
  obtain ⟨bs', hbs', hsame'⟩ := Route.exists_reversed estimate htwo hsolution'
  refine ⟨c, c', hc, hc', le_antisymm ?_ ?_⟩
  · calc value c
      _ ≤ (Route.problem ⟨m, a, b⟩ estimate).exactCost m.length a bs' := hleast bs' hbs'
      _ = (Route.problem ⟨m, b, a⟩ estimate').exactCost m.length b as' := hsame'
      _ = value c' := hvalue'.symm
  · calc value c'
      _ ≤ (Route.problem ⟨m, b, a⟩ estimate').exactCost m.length b bs := hleast' bs hbs
      _ = (Route.problem ⟨m, a, b⟩ estimate).exactCost m.length a as := hsame
      _ = value c := hvalue.symm

/-- Three roads, one of them given a length twice; the direct one is the longest. -/
def threeTowns : List (MapCall ℚ) :=
  [.connect "a" "b" 9, .connect "b" "c" 2, .connect "c" "a" 7, .connect "b" "a" 1]

theorem threeTowns_there_and_back :
    (RoadMap.build threeTowns).Measured ∧
      ∃ c c' : ℚ,
        (uniformCostSearch (Route.problem ⟨.build threeTowns, "a", "c"⟩ fun _ => 0) {}).pathCost? =
          some c ∧
        (uniformCostSearch (Route.problem ⟨.build threeTowns, "c", "a"⟩ fun _ => 0) {}).pathCost? =
          some c' ∧ c = c' := by
  have hmeasured : (RoadMap.build threeTowns).Measured := by
    refine RoadMap.measured_build fun a b length hcall => ?_
    simp only [threeTowns, List.mem_cons, MapCall.connect.injEq, List.not_mem_nil,
      or_false] at hcall
    rcases hcall with ⟨-, -, rfl⟩ | ⟨-, -, rfl⟩ | ⟨-, -, rfl⟩ | ⟨-, -, rfl⟩ <;> decide
  have hfound : ∀ start goal : String, (start, goal) ∈ [("a", "c"), ("c", "a")] →
      let r := uniformCostSearch (Route.problem ⟨.build threeTowns, start, goal⟩ fun _ => 0) {}
      r.isGoalReached = true ∧ r.stats.depthSkipped = 0 := by
    intro start goal h
    simp only [List.mem_cons, Prod.mk.injEq, List.not_mem_nil, or_false] at h
    rcases h with ⟨rfl, rfl⟩ | ⟨rfl, rfl⟩
    · exact uniformCostSearch_of_reach? 3 (by decide) (by cbv)
    · exact uniformCostSearch_of_reach? 3 (by decide) (by cbv)
  obtain ⟨hthere, hskipped⟩ := hfound "a" "c" (by simp)
  obtain ⟨hback, hskipped'⟩ := hfound "c" "a" (by simp)
  exact ⟨hmeasured, (roadMaps_symmetric threeTowns).2.2 hmeasured "a" "c" _ _ {} {} hthere hback
    hskipped hskipped' (fun _ _ _ _ _ _ => addsExactly_rat _ _) fun _ _ _ _ _ _ =>
      addsExactly_rat _ _⟩

end ProblemSolving
