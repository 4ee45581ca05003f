import Mathlib.Data.List.Nodup
import ProblemSolving.Number.Double
import ProblemSolving.Proofs.StateSpace.Paths
import ProblemSolving.World.River

/-!
# Who can cross the river

* `RiverState.after` : the state once a boatload has gone over, wherever it comes from.
* `River.mem_boatloads_iff` : the boatloads are the crossings of one person up to the capacity.
* `River.Orderly` : nobody is lost and everybody is safe; every listed crossing keeps this.
* `RiverState.after_after` : a boatload that goes back undoes its crossing.
* `riverCrossings_exact` : so every reachable state is orderly, its crossings are those that can be
  made in safety, and each of them can be taken back.
-/

namespace ProblemSolving

/-! ## Banks and boats -/

/-- The bank has the people. -/
def Bank.Supplies (b : Bank) (c : Crossing) : Prop :=
  c.missionaries ≤ b.missionaries ∧ c.cannibals ≤ b.cannibals

/-- The bank once the people have left. -/
def Bank.without (b : Bank) (c : Crossing) : Bank :=
  ⟨b.missionaries - c.missionaries, b.cannibals - c.cannibals⟩

/-- The bank once the people have landed. -/
def Bank.joined (b : Bank) (c : Crossing) : Bank :=
  ⟨b.missionaries + c.missionaries, b.cannibals + c.cannibals⟩

theorem Bank.supplies_joined (b : Bank) (c : Crossing) : (b.joined c).Supplies c :=
  ⟨Nat.le_add_left .., Nat.le_add_left ..⟩

theorem Bank.without_joined (b : Bank) (c : Crossing) : (b.joined c).without c = b := by
  unfold joined without
  rw [Nat.add_sub_cancel, Nat.add_sub_cancel]

theorem Bank.Supplies.joined_without {b : Bank} {c : Crossing} (h : b.Supplies c) :
    (b.without c).joined c = b := by
  unfold joined without
  rw [Nat.sub_add_cancel h.1, Nat.sub_add_cancel h.2]

namespace RiverState

variable {s : RiverState} {c : Crossing}

/-- The state once a boatload has gone over. -/
def after (s : RiverState) (c : Crossing) : RiverState :=
  s.afterCrossing ((s.bank s.boat).without c) ((s.bank s.boat.other).joined c)

theorem after_cases (s : RiverState) (c : Crossing) :
    (s.boat = .left ∧ s.after c = ⟨s.left.without c, s.right.joined c, .right⟩) ∨
      (s.boat = .right ∧ s.after c = ⟨s.left.joined c, s.right.without c, .left⟩) := by
  obtain ⟨left, right, _ | _⟩ := s
  · exact .inl ⟨rfl, rfl⟩
  · exact .inr ⟨rfl, rfl⟩

theorem supplies_after (s : RiverState) (c : Crossing) :
    ((s.after c).bank (s.after c).boat).Supplies c := by
  rcases s.after_cases c with ⟨-, h⟩ | ⟨-, h⟩ <;> rw [h]
  · exact s.right.supplies_joined c
  · exact s.left.supplies_joined c

/-- A boatload that goes back undoes its crossing. -/
theorem after_after (h : (s.bank s.boat).Supplies c) : (s.after c).after c = s := by
  obtain ⟨left, right, _ | _⟩ := s
  · have hleft : left.Supplies c := h
    show (⟨(left.without c).joined c, (right.joined c).without c, .left⟩ : RiverState) = _
    rw [hleft.joined_without, Bank.without_joined]
  · have hright : right.Supplies c := h
    show (⟨(left.joined c).without c, (right.without c).joined c, .right⟩ : RiverState) = _
    rw [hright.joined_without, Bank.without_joined]

theorem cross_of_not_supplies (h : ¬ (s.bank s.boat).Supplies c) : s.cross c = .impossible := by
  have hlack : (s.bank s.boat).missionaries < c.missionaries ∨
      (s.bank s.boat).cannibals < c.cannibals := by
    unfold Bank.Supplies at h
    omega
  unfold cross
  simp only [Bool.or_eq_true, decide_eq_true_eq, if_pos hlack]

end RiverState

/-! ## Boatloads -/

namespace River

variable {r : River} {s : RiverState} {c : Crossing}

/-- The boat carries the people, and is not empty. -/
def Carries (r : River) (c : Crossing) : Prop :=
  1 ≤ c.missionaries + c.cannibals ∧ c.missionaries + c.cannibals ≤ r.boatCapacity

theorem mem_boatloads_iff : c ∈ r.boatloads ↔ r.Carries c := by
  unfold boatloads Carries
  simp only [List.mem_flatMap, List.mem_filter, List.mem_map, List.mem_range, bne_iff_ne]
  constructor
  · rintro ⟨m, hm, ⟨k, hk, rfl⟩, hsome⟩
    dsimp only at hsome ⊢
    omega
  · intro ⟨hsome, hfits⟩
    exact ⟨c.missionaries, by omega, ⟨c.cannibals, by omega, rfl⟩, by omega⟩

theorem nodup_boatloads (r : River) : r.boatloads.Nodup := by
  refine List.nodup_flatMap.2 ⟨fun m _ => ?_, ?_⟩
  · refine List.Nodup.filter _ (List.nodup_range.map fun j k h => ?_)
    exact congrArg Crossing.cannibals h
  · -- boatloads of different rounds differ in their missionaries
    refine List.nodup_range.imp fun {m n} hmn c hm hn => hmn ?_
    obtain ⟨_, -, hcm⟩ := List.mem_map.1 (List.mem_filter.1 hm).1
    obtain ⟨_, -, hcn⟩ := List.mem_map.1 (List.mem_filter.1 hn).1
    exact (congrArg Crossing.missionaries hcm).trans (congrArg Crossing.missionaries hcn).symm

/-! ## Orderly states -/

/-- Everyone of the party is on one of the banks, and everyone is safe. -/
structure Orderly (r : River) (s : RiverState) : Prop where
  missionaries : s.left.missionaries + s.right.missionaries = r.party
  cannibals : s.left.cannibals + s.right.cannibals = r.party
  safe : s.isSafe = true

theorem orderly_initial (r : River) : r.Orderly r.initial where
  missionaries := rfl
  cannibals := rfl
  safe := by simp [initial, RiverState.isSafe, Bank.isSafe]

/-- Who goes over is on a bank before and after. -/
theorem Orderly.after (h : r.Orderly s) (hsupplies : (s.bank s.boat).Supplies c)
    (hsafe : (s.after c).isSafe = true) : r.Orderly (s.after c) := by
  obtain ⟨hmissionaries, hcannibals, -⟩ := h
  obtain ⟨hm, hc⟩ := hsupplies
  refine ⟨?_, ?_, hsafe⟩ <;> rcases s.after_cases c with ⟨hboat, hafter⟩ | ⟨hboat, hafter⟩ <;>
    rw [hboat] at hm hc <;> rw [hafter] <;>
    simp only [RiverState.bank, Bank.without, Bank.joined] at hm hc ⊢ <;> omega

/-- No bank has too little room for a party that it has room for. -/
theorem Orderly.cross_of_supplies (h : r.Orderly s) (hparty : r.party ≤ bankRoom)
    (hsupplies : (s.bank s.boat).Supplies c) : s.cross c = .landed (s.after c) := by
  obtain ⟨hmissionaries, hcannibals, -⟩ := h
  obtain ⟨hm, hc⟩ := hsupplies
  have hroom : (s.bank s.boat.other).missionaries + c.missionaries ≤ bankRoom ∧
      (s.bank s.boat.other).cannibals + c.cannibals ≤ bankRoom := by
    cases hboat : s.boat <;> rw [hboat] at hm hc <;>
      simp only [RiverState.bank, Side.other] at hm hc ⊢ <;> omega
  unfold RiverState.cross
  rw [if_neg (by simp; omega), if_neg (by simp; omega)]
  rfl

theorem Orderly.cross_ne_overfull (h : r.Orderly s) (hparty : r.party ≤ bankRoom) (c : Crossing) :
    s.cross c ≠ .overfull := by
  by_cases hsupplies : (s.bank s.boat).Supplies c
  · simp [h.cross_of_supplies hparty hsupplies]
  · simp [RiverState.cross_of_not_supplies hsupplies]

theorem Orderly.crossings?_eq (h : r.Orderly s) (hparty : r.party ≤ bankRoom) :
    r.crossings? s = some (r.boatloads.filter fun c => (s.cross c).isSafe) := by
  have hroom : r.boatloads.any (fun c => (s.cross c).isOverfull) = false := by
    refine List.any_eq_false.2 fun c _ hfull => ?_
    have hne := h.cross_ne_overfull hparty c
    unfold Landing.isOverfull at hfull
    split at hfull
    · contradiction
    · contradiction
  unfold crossings?
  rw [hroom, if_neg Bool.false_ne_true]

theorem Orderly.isSafe_cross_iff (h : r.Orderly s) (hparty : r.party ≤ bankRoom) :
    (s.cross c).isSafe = true ↔ (s.bank s.boat).Supplies c ∧ (s.after c).isSafe = true := by
  by_cases hsupplies : (s.bank s.boat).Supplies c
  · rw [h.cross_of_supplies hparty hsupplies]
    exact ⟨fun hsafe => ⟨hsupplies, hsafe⟩, And.right⟩
  · rw [RiverState.cross_of_not_supplies hsupplies]
    exact ⟨fun hsafe => absurd hsafe Bool.false_ne_true, fun ⟨hyes, _⟩ => absurd hyes hsupplies⟩

/-! ## The search problem -/

section
variable {κ : Type} [Scalar κ]

theorem Orderly.actions_eq (h : r.Orderly s) (hparty : r.party ≤ bankRoom) :
    (r.problem : Problem _ _ κ).actions s = r.boatloads.filter fun c => (s.cross c).isSafe := by
  show (r.crossings? s).getD [] = _
  rw [h.crossings?_eq hparty, Option.getD_some]

theorem Orderly.mem_actions_iff (h : r.Orderly s) (hparty : r.party ≤ bankRoom) :
    c ∈ (r.problem : Problem _ _ κ).actions s ↔
      r.Carries c ∧ (s.bank s.boat).Supplies c ∧ (s.after c).isSafe = true := by
  rw [h.actions_eq hparty, List.mem_filter, mem_boatloads_iff, h.isSafe_cross_iff hparty]

theorem Orderly.result_eq (h : r.Orderly s) (hparty : r.party ≤ bankRoom)
    (hsupplies : (s.bank s.boat).Supplies c) :
    (r.problem : Problem _ _ κ).result s c = s.after c := by
  show (s.cross? c).getD s = _
  unfold RiverState.cross?
  rw [h.cross_of_supplies hparty hsupplies]
  rfl

theorem orderly_of_reachable (hparty : r.party ≤ bankRoom)
    (hs : (r.problem : Problem _ _ κ).Reachable s) : r.Orderly s := by
  refine hs.closed (S := r.Orderly) r.orderly_initial fun t ht c hc => ?_
  obtain ⟨-, hsupplies, hsafe⟩ := (ht.mem_actions_iff hparty).1 hc
  rw [ht.result_eq hparty hsupplies]
  exact ht.after hsupplies hsafe

/-- A listed crossing leads to a state that lists it too, and from there back. The state that is
left is safe, so it is one that may be entered. -/
theorem Orderly.takes_back (h : r.Orderly s) (hparty : r.party ≤ bankRoom)
    (hc : c ∈ (r.problem : Problem _ _ κ).actions s) :
    c ∈ (r.problem : Problem _ _ κ).actions ((r.problem : Problem _ _ κ).result s c) ∧
      (r.problem : Problem _ _ κ).result ((r.problem : Problem _ _ κ).result s c) c = s := by
  obtain ⟨hcarries, hsupplies, hsafe⟩ := (h.mem_actions_iff hparty).1 hc
  have hafter := h.after hsupplies hsafe
  have hback := RiverState.after_after hsupplies
  have hsupplies' := s.supplies_after c
  rw [h.result_eq hparty hsupplies, hafter.mem_actions_iff hparty,
    hafter.result_eq hparty hsupplies', hback]
  exact ⟨⟨hcarries, hsupplies', h.safe⟩, rfl⟩

end

end River

/-- **Nobody is lost on the river.** In every state that can be reached, everyone is on one of the
banks and safe, no bank is ever overfull, and the listed crossings are, each once, those that the boat
carries, its bank can supply, and everyone survives. Each of them takes place, and can be taken
back. -/
theorem riverCrossings_exact {κ : Type} [Scalar κ] (r : River) (hparty : r.party ≤ bankRoom)
    (hboat : r.boatCapacity ≤ bankRoom) {s : RiverState}
    (hs : (r.problem : Problem RiverState Crossing κ).Reachable s) :
    let P : Problem RiverState Crossing κ := r.problem
    r.Orderly s ∧
    P.isDefined s = true ∧ (∀ c ∈ r.boatloads, c.missionaries + c.cannibals ≤ bankRoom) ∧
    (∀ c, s.cross c ≠ .overfull) ∧
    (P.actions s).Nodup ∧
    (∀ c, c ∈ P.actions s ↔
      r.Carries c ∧ (s.bank s.boat).Supplies c ∧ (s.after c).isSafe = true) ∧
    ∀ c ∈ P.actions s, s.cross c = .landed (P.result s c) ∧ P.result s c = s.after c ∧
      c ∈ P.actions (P.result s c) ∧ P.result (P.result s c) c = s := by
  intro P
  have h := River.orderly_of_reachable hparty hs
  refine ⟨h, ?_, ?_, h.cross_ne_overfull hparty, ?_, fun c => h.mem_actions_iff hparty, ?_⟩
  · show (r.crossings? s).isSome = true
    rw [h.crossings?_eq hparty]
    rfl
  · intro c hc
    exact Nat.le_trans (River.mem_boatloads_iff.1 hc).2 hboat
  · show (P.actions s).Nodup
    rw [h.actions_eq hparty]
    exact r.nodup_boatloads.filter _
  · intro c hc
    obtain ⟨-, hsupplies, -⟩ := (h.mem_actions_iff hparty).1 hc
    have hresult : P.result s c = s.after c := h.result_eq hparty hsupplies
    refine ⟨?_, hresult, h.takes_back hparty hc⟩
    rw [h.cross_of_supplies hparty hsupplies, hresult]

/-- With three of each and a boat for two, a missionary and a cannibal may go over first. Then the
missionary comes back, alone or with the cannibal; the cannibal alone would be one too many there. -/
theorem threePairs_crossings :
    let P : Problem RiverState Crossing Double := ({} : River).problem
    let s : RiverState := ⟨⟨2, 2⟩, ⟨1, 1⟩, .right⟩
    P.Reachable s ∧ ({} : River).Orderly s ∧
      ∀ c, c ∈ P.actions s ↔ c = ⟨1, 0⟩ ∨ c = ⟨1, 1⟩ := by
  intro P s
  have hs : P.Reachable s := ⟨[⟨1, 1⟩], .cons (by decide) (.nil _)⟩
  obtain ⟨horderly, -⟩ := riverCrossings_exact {} (by decide) (by decide) hs
  have hactions : P.actions s = [⟨1, 0⟩, ⟨1, 1⟩] := by decide
  refine ⟨hs, horderly, fun c => ?_⟩
  rw [hactions]
  simp

end ProblemSolving
