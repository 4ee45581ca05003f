import ProblemSolving.Proofs.Local.Ancestry

/-!
# Picking parents

A wheel can be made of the weights of a population unless they add up to infinity.

* `Breeds.endsByWeight` : a search over genomes that all have a fitness has an outcome, unless it
  comes to a generation whose weights add up to infinity.
* `fitnessLimit` : fewer than `2 ^ 53` weights up to this one do not.
* `parentSelection_total` : when a genetic search has an outcome.
* `hugeFitness_overflows` : two finite weights may add up to infinity.
-/

namespace ProblemSolving

variable {γ ρ : Type} {breed : Breed γ} {config : GeneticConfig}

/-! ## Runs -/

/-- How a run over some generations ends: well, and each generation that was bred from has a finite
total weight, or for the infinite one of the last generation. -/
def EndsByWeight (generations : List (List (Individual γ)))
    (result : Except GeneticFailure (GeneticOutcome γ)) : Prop :=
  ((∃ out, result = .ok out) ∧
      ∀ g ∈ generations.dropLast, (totalWeight g).isInfinite = false) ∨
    (result = .error .infiniteTotal ∧
      ∃ g, generations.getLast? = some g ∧ (totalWeight g).isInfinite = true)

theorem Evolves.endsByWeight {left generation : Nat} {population : List (Individual γ)}
    {best : Individual γ} {later : List (List (Individual γ))}
    {result : Except GeneticFailure (GeneticOutcome γ)}
    (htotal : ∀ genes, breed.fitness? genes ≠ none)
    (h : Evolves breed config left generation population best later result) :
    EndsByWeight (population :: later) result := by
  induction h with
  | spent => exact .inl ⟨⟨_, rfl⟩, nofun⟩
  | reached => exact .inl ⟨⟨_, rfl⟩, nofun⟩
  | overflows _ hinfinite => exact .inr ⟨rfl, _, rfl, hinfinite⟩
  | undefined hgenes =>
    obtain ⟨genes, hnone⟩ := hgenes
    exact absurd hnone (htotal genes)
  | breeds hfinite _ _ _ ih =>
    rcases ih with ⟨hok, hlater⟩ | ⟨herror, hlast⟩
    · refine .inl ⟨hok, ?_⟩
      rw [List.dropLast_cons_cons]
      exact List.forall_mem_cons.2 ⟨hfinite, hlater⟩
    · refine .inr ⟨herror, ?_⟩
      rw [List.getLast?_cons_cons]
      exact hlast

theorem Breeds.endsByWeight {first : List (List γ)} {generations : List (List (Individual γ))}
    {result : Except GeneticFailure (GeneticOutcome γ)}
    (htotal : ∀ genes, breed.fitness? genes ≠ none)
    (h : Breeds breed first config generations result) : EndsByWeight generations result := by
  cases h with
  | undefined hgenes =>
    obtain ⟨genes, hnone⟩ := hgenes
    exact absurd hnone (htotal genes)
  | begins _ _ _ hlater => exact hlater.endsByWeight htotal

/-! ## Limited fitness -/

/-- Fewer than `2 ^ 53` weights up to this one have a finite total. -/
def fitnessLimit : Double := .ofNat (2 ^ 971)

theorem absUnits_fitnessLimit : fitnessLimit.absUnits ≤ 2 ^ 2045 := by decide +kernel

theorem isFinite_totalWeight {population : List (Individual γ)}
    (hlength : population.length < 2 ^ 53)
    (h : ∀ i ∈ population, (weightOfFitness i.fitness).le fitnessLimit = true) :
    (totalWeight population).isInfinite = false := by
  have hfinite : (totalWeight population).isFinite = true := by
    refine isFinite_weightTotal (e := 2045) le_rfl (by rwa [List.length_map]) ?_
    refine List.forall_mem_map.2 fun i hi => ?_
    have hnonneg := weightOfFitness_nonneg i.fitness
    exact ⟨hnonneg, (Double.absUnits_le hnonneg (h i hi)).trans absUnits_fitnessLimit⟩
  exact (Double.isFinite_iff.1 hfinite).2

/-- Parents are picked from a population by its wheel, and a spin gives the place of a member,
whatever is drawn; there is no wheel exactly if the weights add up to infinity. Where every genome
has a fitness and the first population is accepted, a genetic search has an outcome unless it is to
breed from a generation of an infinite total weight. It has one if there are fewer than `2 ^ 53`
individuals and no weight is above the limit. -/
theorem parentSelection_total [RandomSource ρ] {first : List (List γ)}
    (htotal : ∀ genes, breed.fitness? genes ≠ none)
    (haccepted : rejection? breed first config = none) (source : ρ) :
    let log := (geneticLog breed first config source).1
    log.2 = (geneticSearch breed first config source).1 ∧
    (∀ population : List (Individual γ), population ≠ [] →
      (Wheel.ofWeights? (population.map fun i => weightOfFitness i.fitness) = none ↔
        (totalWeight population).isInfinite = true) ∧
      ∀ wheel ∈ Wheel.ofWeights? (population.map fun i => weightOfFitness i.fitness),
        Draw.Always (wheel.spin : Draw ρ Nat) (· < population.length)) ∧
    EndsByWeight log.1 log.2 ∧
    (first.length < 2 ^ 53 →
      (∀ genes fitness, breed.fitness? genes = some fitness →
        (weightOfFitness fitness).le fitnessLimit = true) →
      ∃ out, log.2 = .ok out) := by
  intro log
  have hbreeds : Breeds breed first config log.1 log.2 := geneticLog_always haccepted source
  have hends := hbreeds.endsByWeight htotal
  refine ⟨geneticLog_result breed first config source, fun population hne => ⟨?_, ?_⟩, hends,
    fun hlength hlimit => ?_⟩
  · exact ofWeights?_population
  · intro wheel hwheel
    have hspin := Wheel.spin_always (ρ := ρ) hwheel (List.map_eq_nil_iff.not.2 hne)
    rwa [List.length_map] at hspin
  · rcases hends with ⟨hok, -⟩ | ⟨-, g, hlast, hinfinite⟩
    · exact hok
    · have hdescends := hbreeds.descends haccepted g (List.mem_of_getLast? hlast)
      have hfinite := isFinite_totalWeight (hdescends.length_eq ▸ hlength) fun i hi =>
        hlimit _ _ (hdescends.evaluated i hi)
      rw [hinfinite] at hfinite
      contradiction

/-- Fitness of every kind: undefined, below zero, infinite, and at the limit. -/
def mixedFitness : Breed Nat where
  pool := []
  fitness? genes := some <| match genes with
    | [0] => .nan false
    | [1] => .ofInt (-1)
    | [2] => .infinity
    | _ => fitnessLimit

theorem mixedFitness_total :
    ∃ out, (geneticSearch mixedFitness [[0], [1], [2], [3], [4]] ⟨3, .zero, none⟩
      (⟨[], 1⟩ : SplitMix)).1 = .ok out := by
  have haccepted : rejection? mixedFitness [[0], [1], [2], [3], [4]] ⟨3, .zero, none⟩ = none :=
    Option.isNone_iff_eq_none.1 (by decide +kernel)
  have hlimit : ∀ genes fitness, mixedFitness.fitness? genes = some fitness →
      (weightOfFitness fitness).le fitnessLimit = true := by
    intro genes fitness hfitness
    obtain rfl := Option.some.inj hfitness
    split <;> decide +kernel
  obtain ⟨hlog, -, -, hbounded⟩ :=
    parentSelection_total (fun _ => Option.some_ne_none _) haccepted (⟨[], 1⟩ : SplitMix)
  rw [hlog] at hbounded
  exact hbounded (by decide) hlimit

/-- One fitness for all genomes, finite but more than half of the greatest double. -/
def hugeFitness : Breed Nat where
  pool := []
  fitness? _ := some (.ofDecimal false 1 308)

/-- The weights of an accepted population, all of them finite, add up to infinity. -/
theorem hugeFitness_overflows :
    (∀ genes, hugeFitness.fitness? genes ≠ none) ∧
      rejection? hugeFitness [[0], [0]] ⟨1, .zero, none⟩ = none ∧
      (Double.ofDecimal false 1 308).isFinite = true ∧
      (geneticSearch hugeFitness [[0], [0]] ⟨1, .zero, none⟩ (⟨[], 0⟩ : SplitMix)).1 =
        .error .infiniteTotal := by
  have hresult : (match (geneticSearch hugeFitness [[0], [0]] ⟨1, .zero, none⟩
      (⟨[], 0⟩ : SplitMix)).1 with
    | .error .infiniteTotal => true
    | _ => false) = true := by
    decide +kernel
  refine ⟨fun _ => Option.some_ne_none _, Option.isNone_iff_eq_none.1 (by decide +kernel),
    by decide +kernel, ?_⟩
  generalize (geneticSearch hugeFitness [[0], [0]] ⟨1, .zero, none⟩ (⟨[], 0⟩ : SplitMix)).1 = result
    at hresult ⊢
  split at hresult
  next => rfl
  next => contradiction

end ProblemSolving
