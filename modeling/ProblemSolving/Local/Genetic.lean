import ProblemSolving.Local.Landscape
import ProblemSolving.Local.Roulette
import ProblemSolving.Number.Decimal

/-!
# Genetic search

A population of genomes of one length. Each generation draws two parents by fitness for every
child, joins them at a random cut, and mutates the child gene by gene.

* `Breed` : the genes there are, and the fitness of a genome.
* `Rejection` : why a search is not begun.
* `GeneticFailure` : why a search has no outcome.
* `geneticSearch` : the search.
* `neighborPopulation` : a first population around the initial state of a landscape.
-/

namespace ProblemSolving

/-- The genes that mutation may put in, and the fitness to be maximized; some genomes may have
none. -/
structure Breed (γ : Type) where
  pool : List γ
  fitness? : List γ → Option Double

/-- How a genetic search runs. -/
structure GeneticConfig where
  generations : Nat := 1000
  mutationRate : Double := .ofDecimal false 1 (-1)
  /-- The fitness that is good enough. -/
  targetFitness : Option Double := none

/-- A genome with its fitness. -/
structure Individual (γ : Type) where
  genes : List γ
  fitness : Double

/-- Where a genetic search ended. -/
structure GeneticOutcome (γ : Type) where
  best : Individual γ
  generations : Nat
  reachedTarget : Bool

/-- Why a search is not begun. -/
inductive Rejection where
  | emptyPopulation
  | emptyGenome
  | inconsistentGenomeLength (index expected actual : Nat)
  | emptyGenePool (rate : Double)
  | invalidMutationRate (rate : Double)

/-- The sentence that reports a rejection. -/
def Rejection.message : Rejection → String
  | emptyPopulation => "population must contain at least one individual"
  | emptyGenome => "individuals must contain at least one gene"
  | inconsistentGenomeLength index expected actual =>
    "individual " ++ toString index ++ " has " ++ toString actual ++ " genes, expected "
      ++ toString expected
  | emptyGenePool rate =>
    "gene pool is empty but mutation rate is " ++ rate.text Double.sentence
  | invalidMutationRate rate =>
    "mutation rate " ++ rate.text Double.sentence ++ " is outside [0, 1]"

/-- Why a search has no outcome. -/
inductive GeneticFailure where
  | rejected (reason : Rejection)
  /-- A genome came up that has no fitness. -/
  | undefinedFitness
  /-- The weights of a population add up to infinity. -/
  | infiniteTotal

variable {γ : Type}

/-- Checks the shape of a population and the mutation rate. -/
def rejection? (breed : Breed γ) (population : List (List γ)) (config : GeneticConfig) :
    Option Rejection :=
  match population with
  | [] => some .emptyPopulation
  | first :: _ =>
    if first.isEmpty then some .emptyGenome
    else match population.findIdx? (fun genes => genes.length != first.length) with
    | some index =>
      some (.inconsistentGenomeLength index first.length
        ((population[index]?.map List.length).getD 0))
    | none =>
      if !(Double.zero.le config.mutationRate && config.mutationRate.le .one) then
        some (.invalidMutationRate config.mutationRate)
      else if breed.pool.isEmpty && Double.zero.lt config.mutationRate then
        some (.emptyGenePool config.mutationRate)
      else none

/-- Whether a fitness is good enough. -/
def GeneticConfig.reached (config : GeneticConfig) (fitness : Double) : Bool :=
  match config.targetFitness with
  | some target => target.le fitness
  | none => false

/-- The fitter of two; the first keeps its place unless it is beaten. -/
def fitter (best next : Individual γ) : Individual γ :=
  if best.fitness.lt next.fitness then next else best

/-- The fittest of a population, the first one of several. -/
def fittest? : List (Individual γ) → Option (Individual γ)
  | [] => none
  | first :: rest => some (rest.foldl fitter first)

/-- Evaluates a genome. -/
def Breed.individual (breed : Breed γ) (genes : List γ) : Except GeneticFailure (Individual γ) :=
  match breed.fitness? genes with
  | some fitness => .ok ⟨genes, fitness⟩
  | none => .error .undefinedFitness

section
variable {ρ : Type} [RandomSource ρ]

/-- Joins the genes of two parents at a random cut of the first. -/
def crossover (x y : List γ) : Draw ρ (List γ) := do
  let cut ← Draw.below64 x.length
  return x.take cut ++ y.drop cut

/-- Replaces a gene by one of the pool with probability `rate`. -/
def mutateGene (pool : List γ) (rate : Double) (gene : γ) : Draw ρ γ := do
  if (← Draw.unit : Double).lt rate then return (← Draw.choose pool).getD gene
  else return gene

/-- Gives each gene its chance to mutate; a rate of zero draws nothing. -/
def mutate (pool : List γ) (rate : Double) (genes : List γ) : Draw ρ (List γ) :=
  if rate.le .zero then return genes else genes.mapM (mutateGene pool rate)

/-- The genome of a child of two parents picked by the wheel. -/
def offspring (breed : Breed γ) (rate : Double) (wheel : Wheel) (parents : Array (Individual γ)) :
    Draw ρ (List γ) := do
  let pick : Draw ρ (List γ) := do
    return (parents[← wheel.spin]?.map Individual.genes).getD []
  let x ← pick
  let y ← pick
  mutate breed.pool rate (← crossover x y)

/-- The children of a population, `count` of them. -/
def litter (breed : Breed γ) (rate : Double) (wheel : Wheel) (parents : Array (Individual γ)) :
    (count : Nat) → Draw ρ (Except GeneticFailure (List (Individual γ)))
  | 0 => return .ok []
  | count + 1 => do
    match breed.individual (← offspring breed rate wheel parents) with
    | .error failure => return .error failure
    | .ok child =>
      return (← litter breed rate wheel parents count).map (child :: ·)

/-- Breeds generations until the best individual is good enough, with `left` more to go. -/
def evolve (breed : Breed γ) (config : GeneticConfig) :
    (left generation : Nat) → (population : List (Individual γ)) → (best : Individual γ) →
      Draw ρ (Except GeneticFailure (GeneticOutcome γ))
  | 0, generation, _, best => return .ok ⟨best, generation, config.reached best.fitness⟩
  | left + 1, generation, population, best => do
    if config.reached best.fitness then return .ok ⟨best, generation, true⟩
    else match Wheel.ofWeights? (population.map fun i => weightOfFitness i.fitness) with
    | none => return .error .infiniteTotal
    | some wheel =>
      match ← litter breed config.mutationRate wheel population.toArray population.length with
      | .error failure => return .error failure
      | .ok next =>
        let best := match fittest? next with
          | some leader => fitter best leader
          | none => best
        evolve breed config left (generation + 1) next best

/-- Breeds from a first population. -/
def geneticSearch (breed : Breed γ) (population : List (List γ)) (config : GeneticConfig) :
    Draw ρ (Except GeneticFailure (GeneticOutcome γ)) :=
  match rejection? breed population config with
  | some reason => return .error (.rejected reason)
  | none =>
    match population.mapM breed.individual with
    | .error failure => return .error failure
    | .ok individuals =>
      match fittest? individuals with
      | none => return .error (.rejected .emptyPopulation)
      | some best => evolve breed config config.generations 0 individuals best

/-- Random neighbours of the initial state, `count` of them; without any move, the state itself. -/
def neighborPopulation {α κ : Type} (L : Landscape (List γ) α κ) :
    (count : Nat) → Draw ρ (List (List γ))
  | 0 => return []
  | count + 1 => do
    let genes := match ← Draw.choose (L.moves L.initial) with
      | some move => L.apply L.initial move
      | none => L.initial
    return genes :: (← neighborPopulation L count)

end

end ProblemSolving
