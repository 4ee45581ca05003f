import ProblemSolving.Proofs.Local.MissingFitness
import ProblemSolving.Proofs.World.Queens

/-!
# Boards that are bred

Genetic search takes boards of any length, but the fitness of a board is a number of pairs less its
attacks, and long boards may have more attacks than there are pairs.

* `Queens.conflicts_replicate` : in one row every two queens attack each other.
* `Queens.forall_conflicts_le_iff` : the lengths of which no board has too many attacks.
* `Queens.isInfinite_totalWeight` : the weights of any number of boards have a finite total.
* `queensSearch_succeeds` : when genetic search has an outcome.
* `twoForOne_fails` : an accepted population with none.
-/

namespace ProblemSolving

variable {ρ : Type}

/-! ## Attacks and pairs -/

namespace Queens

theorem attackers_replicate (gap count : Nat) :
    attackers 0 gap (List.replicate count 0) = count := by
  induction count generalizing gap with
  | zero => rfl
  | succ count ih =>
    rw [List.replicate_succ, attackers, ih, attacks, if_pos (by simp)]
    omega

/-- In one row every two queens attack each other. -/
theorem conflicts_replicate (count : Nat) :
    conflicts (List.replicate count 0) = count * (count - 1) / 2 := by
  induction count with
  | zero => rfl
  | succ count ih =>
    rw [List.replicate_succ, conflicts, attackers_replicate, ih, Nat.triangle_succ]
    omega

/-- Boards of some length have no more attacks than a full board has pairs exactly if they have no
more columns, or one. -/
theorem forall_conflicts_le_iff (q : Queens) (length : Nat) :
    (∀ rows : List Nat, rows.length = length → conflicts rows ≤ q.pairs) ↔
      length ≤ max q.size 1 := by
  constructor
  · intro h
    by_contra hlt
    -- a board with one more column, all queens in one row, has too many attacks
    obtain ⟨count, rfl⟩ : ∃ count, length = count + 1 := ⟨length - 1, by omega⟩
    have hattacks := h (List.replicate (count + 1) 0) List.length_replicate
    rw [conflicts_replicate, Nat.triangle_succ] at hattacks
    have hpairs : q.pairs ≤ count * (count - 1) / 2 :=
      Nat.div_le_div_right (Nat.mul_le_mul (by omega) (by omega))
    omega
  · rintro h rows rfl
    refine (conflicts_le rows).trans ?_
    by_cases hfew : rows.length ≤ q.size
    · apply Nat.div_le_div_right
      exact Nat.mul_le_mul hfew (by omega)
    · have hone : rows.length - 1 = 0 := by omega
      simp [hone]

theorem fitness?_eq_some_iff {q : Queens} {rows : List Nat} {fitness : Double} :
    q.breed.fitness? rows = some fitness ↔
      conflicts rows ≤ q.pairs ∧ .ofNat (q.pairs - conflicts rows) = fitness := by
  unfold breed peacefulPairs?
  dsimp only
  by_cases h : conflicts rows ≤ q.pairs
  · simp [h]
  · simp [h]

theorem fitness?_eq_none_iff {q : Queens} {rows : List Nat} :
    q.breed.fitness? rows = none ↔ q.pairs < conflicts rows := by
  unfold breed peacefulPairs?
  dsimp only
  by_cases h : conflicts rows ≤ q.pairs
  · simp [h]
  · simp [h]
    omega

end Queens

/-! ## Weights of boards -/

theorem exists_absUnits_ofNat_le :
    ∃ b ≤ 1074, ∀ {k e : Nat}, k ≤ 2 ^ e → (Double.ofNat k).absUnits ≤ 2 ^ (e + b) := by
  obtain ⟨b, hb, hunit⟩ : ∃ b ≤ 1074, Double.unitsPerOne = 2 ^ b :=
    ⟨1074, le_rfl, by decide +kernel⟩
  refine ⟨b, hb, fun {k e} h => ?_⟩
  have hself := Double.unitsAt_placeOfRatio_mul (m := 1) (by decide) (e + b)
  rw [Nat.one_mul] at hself
  rw [← hself, Nat.pow_add, ← hunit]
  refine Double.unitsAt_strictMono.monotone ?_
  exact (Nat.min_le_left _ _).trans (Double.placeOfRatio_mono (Nat.mul_le_mul_right _ h))

/-- The weights of any number of boards add up to a finite total, if the pairs of queens can be
counted in a machine word. -/
theorem Queens.isInfinite_totalWeight {q : Queens} (hq : q.size * (q.size - 1) < 2 ^ 64)
    {population : List (Individual Nat)} (h : ∀ i ∈ population, q.breed.Evaluated i) :
    (totalWeight population).isInfinite = false := by
  have hfinite : (totalWeight population).isFinite = true := by
    obtain ⟨b, hb, hunits⟩ := exists_absUnits_ofNat_le
    refine isFinite_weightTotal_of_le (e := 63 + b) (by omega) ?_
    refine List.forall_mem_map.2 fun i hi => ⟨weightOfFitness_nonneg i.fitness, ?_⟩
    obtain ⟨-, hfitness⟩ := Queens.fitness?_eq_some_iff.1 (h i hi)
    have hpairs : q.pairs < 2 ^ 63 := Nat.div_lt_of_lt_mul hq
    unfold weightOfFitness
    split
    next =>
      rw [← hfitness]
      exact hunits ((Nat.sub_le _ _).trans hpairs.le)
    next => exact Nat.zero_le _
  exact (Double.isFinite_iff.1 hfinite).2

/-! ## Searches -/

/-- **When boards can be bred.** No board of a generation has more attacks than there are pairs of
queens, and its fitness is the difference. A search that is begun has an outcome unless a first
board, or a child of some generation, has more attacks. It has one if the first boards have no more
columns than there are queens, or one; of any greater length there are boards with too many attacks.
It has none if a first board is such a board. -/
theorem queensSearch_succeeds [RandomSource ρ] {q : Queens} (hq : q.size * (q.size - 1) < 2 ^ 64)
    {boards : List (List Nat)} {config : GeneticConfig}
    (haccepted : rejection? q.breed boards config = none) (source : ρ) :
    let log := (geneticLog q.breed boards config source).1
    log.2 = (geneticSearch q.breed boards config source).1 ∧
    (∀ g ∈ log.1, ∀ board ∈ g, Queens.conflicts board.genes ≤ q.pairs ∧
      board.fitness = .ofNat (q.pairs - Queens.conflicts board.genes)) ∧
    ((∃ out, log.2 = .ok out) ∨
      (log.2 = .error .undefinedFitness ∧
        ((∃ board ∈ boards, q.pairs < Queens.conflicts board) ∨
          ∃ g ∈ log.1, ∃ rows, Inherits q.breed config.mutationRate g rows ∧
            q.pairs < Queens.conflicts rows))) ∧
    ((∀ board ∈ boards, board.length ≤ max q.size 1) → ∃ out, log.2 = .ok out) ∧
    (∀ length, (∀ rows : List Nat, rows.length = length → Queens.conflicts rows ≤ q.pairs) ↔
      length ≤ max q.size 1) ∧
    ((∃ board ∈ boards, q.pairs < Queens.conflicts board) → log.2 = .error .undefinedFitness) := by
  intro log
  have hdescends := (geneticLog_always haccepted source).descends haccepted
  have hends : (∃ out, log.2 = .ok out) ∨ log.2 = .error .undefinedFitness := by
    rcases geneticLog_cases haccepted source with hok | hundefined | ⟨-, g, hg, hinfinite⟩
    · exact .inl hok
    · exact .inr hundefined
    · rw [Queens.isInfinite_totalWeight hq (hdescends g hg).evaluated] at hinfinite
      contradiction
  refine ⟨geneticLog_result q.breed boards config source, fun g hg board hboard => ?_,
    hends.imp_right fun hundefined => ⟨hundefined, ?_⟩, fun hlengths => ?_,
    q.forall_conflicts_le_iff, ?_⟩
  · obtain ⟨hle, hfitness⟩ :=
      Queens.fitness?_eq_some_iff.1 ((hdescends g hg).evaluated board hboard)
    exact ⟨hle, hfitness.symm⟩
  · simp only [← Queens.fitness?_eq_none_iff]
    exact geneticLog_lacks haccepted source hundefined
  · obtain ⟨hne, ⟨n, -, hn⟩, -⟩ := shape_of_accepted haccepted
    obtain ⟨board, hboard⟩ := List.exists_mem_of_ne_nil boards hne
    have hshort : n ≤ max q.size 1 := hn board hboard ▸ hlengths board hboard
    apply hends.resolve_right
    apply geneticLog_defined haccepted source hn
    intro rows hrows hnone
    have hattacks := (q.forall_conflicts_le_iff n).2 hshort rows hrows
    have hmore := Queens.fitness?_eq_none_iff.1 hnone
    omega
  · rintro ⟨board, hboard, hmore⟩
    exact geneticLog_of_lacks haccepted source ⟨board, hboard, Queens.fitness?_eq_none_iff.2 hmore⟩

/-- Two boards of four columns, one of them with all queens in one row. -/
theorem fourQueens_bred :
    ∃ out, (geneticSearch (Queens.ofSize 4).breed [[0, 0, 0, 0], [1, 3, 0, 2]] twoGenerations
      (⟨[], 1⟩ : SplitMix)).1 = .ok out := by
  have haccepted : rejection? (Queens.ofSize 4).breed [[0, 0, 0, 0], [1, 3, 0, 2]] twoGenerations =
      none := Option.isNone_iff_eq_none.1 (by decide +kernel)
  obtain ⟨hlog, -, -, hshort, -⟩ :=
    queensSearch_succeeds (by decide) haccepted (⟨[], 1⟩ : SplitMix)
  rw [hlog] at hshort
  exact hshort (by decide)

/-- A board of two columns for one queen: accepted, and there are more attacks than pairs. -/
theorem twoForOne_fails :
    rejection? (Queens.ofSize 1).breed [[0, 0]] ⟨0, .ofDecimal false 1 (-1), none⟩ = none ∧
      (geneticSearch (Queens.ofSize 1).breed [[0, 0]] ⟨0, .ofDecimal false 1 (-1), none⟩
        (⟨[], 0⟩ : SplitMix)).1 = .error .undefinedFitness := by
  have haccepted : rejection? (Queens.ofSize 1).breed [[0, 0]]
      ⟨0, .ofDecimal false 1 (-1), none⟩ = none := Option.isNone_iff_eq_none.1 (by decide +kernel)
  have hmore : (Queens.ofSize 1).breed.fitness? [0, 0] = none :=
    Queens.fitness?_eq_none_iff.2 (by decide)
  refine ⟨haccepted, ?_⟩
  rw [← geneticLog_result]
  exact geneticLog_of_lacks haccepted _ ⟨[0, 0], List.mem_singleton_self _, hmore⟩

end ProblemSolving
