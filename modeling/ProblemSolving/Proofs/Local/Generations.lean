import ProblemSolving.Proofs.Local.Offspring

/-!
# Generations

* `evolveLog`, `geneticLog` : a genetic search that notes its generations.
* `snd_geneticLog` : it draws what a genetic search draws, and ends as that ends.
* `Evolves`, `Breeds` : what a genetic search can do from one generation on, and from its first
  genomes.
* `geneticLog_always`, `breeds_of_ok` : it does nothing else, whatever is drawn.
-/

namespace ProblemSolving

variable {γ ρ : Type}

/-! ## A search that is noted -/

section
variable [RandomSource ρ]

/-- Breeds generations and notes those that follow the given one. -/
def evolveLog (breed : Breed γ) (config : GeneticConfig) :
    (left generation : Nat) → (population : List (Individual γ)) → (best : Individual γ) →
      Draw ρ (List (List (Individual γ)) × Except GeneticFailure (GeneticOutcome γ))
  | 0, generation, _, best => return ([], .ok ⟨best, generation, config.reached best.fitness⟩)
  | left + 1, generation, population, best => do
    if config.reached best.fitness then return ([], .ok ⟨best, generation, true⟩)
    else match Wheel.ofWeights? (population.map fun i => weightOfFitness i.fitness) with
    | none => return ([], .error .infiniteTotal)
    | some wheel =>
      match ← litter breed config.mutationRate wheel population.toArray population.length with
      | .error failure => return ([], .error failure)
      | .ok next =>
        let best := match fittest? next with
          | some leader => fitter best leader
          | none => best
        let run ← evolveLog breed config left (generation + 1) next best
        return (next :: run.1, run.2)

/-- Noting the generations changes neither the outcome nor what is drawn. -/
theorem snd_evolveLog (breed : Breed γ) (config : GeneticConfig) (left generation : Nat)
    (population : List (Individual γ)) (best : Individual γ) :
    (Prod.snd <$> evolveLog breed config left generation population best : Draw ρ _) =
      evolve breed config left generation population best := by
  induction left generalizing generation population best with
  | zero => rfl
  | succ left ih =>
    unfold evolveLog evolve
    split
    · rfl
    · cases Wheel.ofWeights? (population.map fun i => weightOfFitness i.fitness) with
      | none => rfl
      | some wheel =>
        dsimp only
        rw [map_bind]
        refine bind_congr fun children => ?_
        cases children with
        | error failure => rfl
        | ok next =>
          dsimp only
          rw [map_bind]
          exact ih _ _ _

/-- Breeds from a first population and notes the generations, the first one included. -/
def geneticLog (breed : Breed γ) (population : List (List γ)) (config : GeneticConfig) :
    Draw ρ (List (List (Individual γ)) × Except GeneticFailure (GeneticOutcome γ)) :=
  match rejection? breed population config with
  | some reason => return ([], .error (.rejected reason))
  | none =>
    match population.mapM breed.individual with
    | .error failure => return ([], .error failure)
    | .ok individuals =>
      match fittest? individuals with
      | none => return ([individuals], .error (.rejected .emptyPopulation))
      | some best => do
        let run ← evolveLog breed config config.generations 0 individuals best
        return (individuals :: run.1, run.2)

theorem snd_geneticLog (breed : Breed γ) (population : List (List γ)) (config : GeneticConfig) :
    (Prod.snd <$> geneticLog breed population config : Draw ρ _) =
      geneticSearch breed population config := by
  unfold geneticLog geneticSearch
  cases rejection? breed population config with
  | some reason => rfl
  | none =>
    cases population.mapM breed.individual with
    | error failure => rfl
    | ok individuals =>
      dsimp only
      cases fittest? individuals with
      | none => rfl
      | some best =>
        dsimp only
        rw [map_bind]
        exact snd_evolveLog breed config config.generations 0 individuals best

end

/-! ## Leaders -/

theorem fitter_eq (best next : Individual γ) :
    fitter best next = best ∨ fitter best next = next := by
  unfold fitter
  split
  · exact .inr rfl
  · exact .inl rfl

theorem foldl_fitter_mem (best : Individual γ) (population : List (Individual γ)) :
    population.foldl fitter best ∈ best :: population := by
  induction population generalizing best with
  | nil => exact List.mem_singleton_self best
  | cons i population ih =>
    rcases List.mem_cons.1 (ih (fitter best i)) with heq | hmem
    · rw [List.foldl_cons, heq]
      rcases fitter_eq best i with h | h <;> simp [h]
    · exact List.mem_cons_of_mem _ (List.mem_cons_of_mem _ hmem)

theorem fittest?_mem {population : List (Individual γ)} {leader : Individual γ}
    (h : fittest? population = some leader) : leader ∈ population := by
  cases population with
  | nil => cases h
  | cons first rest =>
    obtain rfl := Option.some.inj h
    exact foldl_fitter_mem first rest

theorem fittest?_isSome {population : List (Individual γ)} (h : population ≠ []) :
    ∃ leader, fittest? population = some leader := by
  cases population with
  | nil => exact absurd rfl h
  | cons first rest => exact ⟨_, rfl⟩

/-! ## What a search can do -/

/-- The sum of the weights by which parents are picked. -/
def totalWeight (population : List (Individual γ)) : Double :=
  weightTotal (population.map fun i => weightOfFitness i.fitness)

theorem ofWeights?_population {population : List (Individual γ)} :
    Wheel.ofWeights? (population.map fun i => weightOfFitness i.fitness) = none ↔
      (totalWeight population).isInfinite = true :=
  Wheel.ofWeights?_eq_none_iff <| List.forall_mem_map.2 fun i _ => weightOfFitness_nonneg i.fitness

/-- What a genetic search can do from one generation on: the generations that follow and how it
ends. -/
inductive Evolves (breed : Breed γ) (config : GeneticConfig) :
    (left generation : Nat) → (population : List (Individual γ)) → (best : Individual γ) →
      (later : List (List (Individual γ))) → Except GeneticFailure (GeneticOutcome γ) → Prop
  | spent {generation : Nat} {population : List (Individual γ)} {best : Individual γ} :
      Evolves breed config 0 generation population best []
        (.ok ⟨best, generation, config.reached best.fitness⟩)
  | reached {left generation : Nat} {population : List (Individual γ)} {best : Individual γ}
      (hreached : config.reached best.fitness = true) :
      Evolves breed config (left + 1) generation population best [] (.ok ⟨best, generation, true⟩)
  | overflows {left generation : Nat} {population : List (Individual γ)} {best : Individual γ}
      (hunreached : config.reached best.fitness = false)
      (htotal : (totalWeight population).isInfinite = true) :
      Evolves breed config (left + 1) generation population best [] (.error .infiniteTotal)
  | undefined {left generation : Nat} {population : List (Individual γ)} {best : Individual γ}
      (hgenes : ∃ genes, breed.fitness? genes = none) :
      Evolves breed config (left + 1) generation population best [] (.error .undefinedFitness)
  | breeds {left generation : Nat} {population next : List (Individual γ)}
      {best leader : Individual γ} {later : List (List (Individual γ))}
      {result : Except GeneticFailure (GeneticOutcome γ)}
      (htotal : (totalWeight population).isInfinite = false)
      (hoffspring : Offspring breed config.mutationRate population next)
      (hleader : fittest? next = some leader)
      (hlater : Evolves breed config left (generation + 1) next (fitter best leader) later result) :
      Evolves breed config (left + 1) generation population best (next :: later) result

theorem evolveLog_always [RandomSource ρ] {breed : Breed γ} {config : GeneticConfig} {n : Nat}
    (hrate : config.mutationRate.isNaN = false) (hn : 0 < n) (left generation : Nat)
    {population : List (Individual γ)} (hshape : Shaped n population) (best : Individual γ) :
    Draw.Always (evolveLog breed config left generation population best : Draw ρ _) fun run =>
      Evolves breed config left generation population best run.1 run.2 := by
  -- the induction carries the shape, by which a spin gives a member and a cut lies within it
  induction left generalizing generation population best with
  | zero => exact .pure .spent
  | succ left ih =>
    unfold evolveLog
    split
    next hreached => exact .pure (.reached hreached)
    next hunreached =>
      split
      next hnone =>
        exact .pure (.overflows (Bool.eq_false_iff.2 hunreached) (ofWeights?_population.1 hnone))
      next wheel hwheel =>
        have htotal : (totalWeight population).isInfinite = false := by
          rw [← Bool.not_eq_true, ← ofWeights?_population, hwheel]
          exact nofun
        have hspin := Wheel.spin_always (ρ := ρ) hwheel
          (List.map_eq_nil_iff.not.2 hshape.ne_nil)
        rw [List.length_map] at hspin
        refine (litter_always hrate hn hshape hspin population.length).bind fun children h => ?_
        cases children with
        | error failure =>
          obtain ⟨rfl, genes, -, hnone⟩ := h
          exact .pure (.undefined ⟨genes, hnone⟩)
        | ok next =>
          obtain ⟨hlength, hinherits, hevaluated⟩ := h
          have hoffspring : Offspring breed config.mutationRate population next :=
            ⟨hlength, hinherits, hevaluated⟩
          have hnext := hoffspring.shaped hshape
          obtain ⟨leader, hleader⟩ := fittest?_isSome hnext.ne_nil
          dsimp only
          rw [hleader]
          exact (ih (generation + 1) hnext (fitter best leader)).bind fun run hrun =>
            .pure (.breeds htotal hoffspring hleader hrun)

/-! ## First populations -/

/-- A population that is not rejected has a shape, and its rate is a number. -/
theorem shape_of_accepted {breed : Breed γ} {population : List (List γ)} {config : GeneticConfig}
    (h : rejection? breed population config = none) :
    population ≠ [] ∧ (∃ n, 0 < n ∧ ∀ genes ∈ population, genes.length = n) ∧
      config.mutationRate.isNaN = false := by
  unfold rejection? at h
  split at h
  next => cases h
  next first rest =>
    split at h
    next => cases h
    next hfirst =>
      split at h
      next => cases h
      next hlengths =>
        split at h
        next => cases h
        next hrate =>
          refine ⟨List.cons_ne_nil _ _, ⟨first.length, ?_, fun genes hgenes => ?_⟩, ?_⟩
          · simpa [List.length_pos_iff] using hfirst
          · simpa using List.findIdx?_eq_none_iff.1 hlengths genes hgenes
          · simp only [Bool.not_eq_true', Bool.not_eq_false, Bool.and_eq_true] at hrate
            exact (Double.le_iff.1 hrate.1).2.1

/-- What a genetic search can do from its first genomes: its generations and how it ends. -/
inductive Breeds (breed : Breed γ) (population : List (List γ)) (config : GeneticConfig) :
    List (List (Individual γ)) → Except GeneticFailure (GeneticOutcome γ) → Prop
  | undefined (hgenes : ∃ genes, breed.fitness? genes = none) :
      Breeds breed population config [] (.error .undefinedFitness)
  | begins {individuals : List (Individual γ)} {best : Individual γ}
      {later : List (List (Individual γ))} {result : Except GeneticFailure (GeneticOutcome γ)}
      (hgenes : individuals.map Individual.genes = population)
      (hevaluated : ∀ i ∈ individuals, breed.Evaluated i)
      (hbest : fittest? individuals = some best)
      (hlater : Evolves breed config config.generations 0 individuals best later result) :
      Breeds breed population config (individuals :: later) result

theorem geneticLog_always [RandomSource ρ] {breed : Breed γ} {population : List (List γ)}
    {config : GeneticConfig} (h : rejection? breed population config = none) :
    Draw.Always (geneticLog breed population config : Draw ρ _) fun run =>
      Breeds breed population config run.1 run.2 := by
  obtain ⟨hne, ⟨n, hn, hlengths⟩, hrate⟩ := shape_of_accepted h
  have hindividuals := breed.mapM_individual population
  unfold geneticLog
  rw [h]
  dsimp only
  split
  next failure hfailure =>
    rw [hfailure] at hindividuals
    obtain ⟨rfl, genes, -, hnone⟩ := hindividuals
    exact .pure (.undefined ⟨genes, hnone⟩)
  next individuals hok =>
    rw [hok] at hindividuals
    obtain ⟨rfl, hevaluated⟩ := hindividuals
    have hshape : Shaped n individuals :=
      ⟨List.map_eq_nil_iff.not.1 hne, List.forall_mem_map.1 hlengths⟩
    obtain ⟨best, hbest⟩ := fittest?_isSome hshape.ne_nil
    rw [hbest]
    exact (evolveLog_always hrate hn _ 0 hshape best).bind fun run hrun =>
      .pure (.begins rfl hevaluated hbest hrun)

theorem geneticLog_result [RandomSource ρ] (breed : Breed γ) (population : List (List γ))
    (config : GeneticConfig) (source : ρ) :
    (geneticLog breed population config source).1.2 =
      (geneticSearch breed population config source).1 :=
  congrArg (fun act => (act source).1) (snd_geneticLog breed population config)

/-- A search with an outcome began, and bred up to it. -/
theorem breeds_of_ok [RandomSource ρ] {breed : Breed γ} {population : List (List γ)}
    {config : GeneticConfig} {source : ρ} {out : GeneticOutcome γ}
    (h : (geneticSearch breed population config source).1 = .ok out) :
    rejection? breed population config = none ∧
      Breeds breed population config (geneticLog breed population config source).1.1 (.ok out) := by
  cases hrejection : rejection? breed population config with
  | some reason =>
    unfold geneticSearch at h
    rw [hrejection] at h
    cases h
  | none =>
    have hbreeds : Breeds breed population config (geneticLog breed population config source).1.1
        (geneticLog breed population config source).1.2 := geneticLog_always hrejection source
    rw [geneticLog_result, h] at hbreeds
    exact ⟨rfl, hbreeds⟩

/-- Two generations, in which every other gene mutates. -/
def twoGenerations : GeneticConfig := ⟨2, .ofDecimal false 5 (-1), none⟩

theorem exists_outcome {β : Type} {result : Except GeneticFailure (GeneticOutcome γ)}
    {f : GeneticOutcome γ → β} {x : β} (h : result.toOption.map f = some x) :
    ∃ out, result = .ok out ∧ f out = x := by
  cases result with
  | error failure => cases h
  | ok out => exact ⟨out, rfl, Option.some.inj h⟩

end ProblemSolving
