import ProblemSolving.Random.SplitMix
import ProblemSolving.Proofs.Local.Generations

/-!
# Where genes come from

* `Descends` : a population that first genomes may lead to. It has their shape, and each gene stands
  where it stood in one of them, or comes from the pool.
* `Descends.offspring` : so do the children of such a population.
* `Evolves.isChain`, `Evolves.ends` : each generation is the offspring of the one before, and the
  outcome of a search agrees with its generations.
* `Breeds.descends` : all generations of a search descend from its first genomes.
* `geneticSearch_sound` : a genetic search keeps the shape of its population, and reports
  consistently.
-/

namespace ProblemSolving

variable {γ ρ : Type} {breed : Breed γ} {config : GeneticConfig}

/-! ## One generation -/

/-- A population that first genomes may lead to: as many genomes, of the same lengths, and each gene
stands where it stood in one of them or, if there is mutation, comes from the pool. -/
structure Descends (breed : Breed γ) (rate : Double) (first : List (List γ))
    (population : List (Individual γ)) : Prop where
  length_eq : population.length = first.length
  length_genes : ∀ i ∈ population, ∀ genes ∈ first, i.genes.length = genes.length
  evaluated : ∀ i ∈ population, breed.fitness? i.genes = some i.fitness
  source : ∀ i ∈ population, ∀ (j : Nat) (gene : γ), i.genes[j]? = some gene →
    (∃ genes ∈ first, genes[j]? = some gene) ∨ (Double.zero.lt rate = true ∧ gene ∈ breed.pool)

section
variable {rate : Double} {first : List (List γ)} {parents next : List (Individual γ)}

theorem descends_first {individuals : List (Individual γ)} {n : Nat}
    (hlengths : ∀ genes ∈ individuals.map Individual.genes, genes.length = n)
    (hevaluated : ∀ i ∈ individuals, breed.Evaluated i) :
    Descends breed rate (individuals.map Individual.genes) individuals where
  length_eq := (List.length_map _).symm
  length_genes _ hi genes hgenes :=
    (hlengths _ (List.mem_map_of_mem hi)).trans (hlengths genes hgenes).symm
  evaluated := hevaluated
  source _ hi _ _ hgene := .inl ⟨_, List.mem_map_of_mem hi, hgene⟩

theorem Descends.shaped (h : Descends breed rate first parents) {n : Nat} (hne : first ≠ [])
    (hlengths : ∀ genes ∈ first, genes.length = n) : Shaped n parents where
  ne_nil := by
    rw [← List.length_pos_iff, h.length_eq, List.length_pos_iff]
    exact hne
  length_eq i hi := by
    obtain ⟨genes, hgenes⟩ := List.exists_mem_of_ne_nil first hne
    rw [h.length_genes i hi genes hgenes, hlengths genes hgenes]

/-- The children of a population descend from whatever it descends from. -/
theorem Descends.offspring (h : Descends breed rate first parents) {n : Nat} (hne : first ≠ [])
    (hlengths : ∀ genes ∈ first, genes.length = n) (hnext : Offspring breed rate parents next) :
    Descends breed rate first next where
  length_eq := hnext.length_eq.trans h.length_eq
  length_genes child hchild genes hgenes := by
    rw [(hnext.inherits child hchild).length_eq (h.shaped hne hlengths), hlengths genes hgenes]
  evaluated := hnext.evaluated
  source child hchild j gene hgene := by
    obtain ⟨x, hx, y, hy, cut, hcut, -, -, hmutates⟩ := hnext.inherits child hchild
    rcases hmutates j gene hgene with hcrossed | hpool
    · rw [getElem?_cut hcut.le] at hcrossed
      split at hcrossed
      · exact h.source x hx j gene hcrossed
      · exact h.source y hy j gene hcrossed
    · exact .inr hpool

end

/-! ## A run -/

section
variable {left generation : Nat} {population : List (Individual γ)} {best : Individual γ}
  {later : List (List (Individual γ))} {result : Except GeneticFailure (GeneticOutcome γ)}

/-- Each generation is the offspring of the one before. -/
theorem Evolves.isChain (h : Evolves breed config left generation population best later result) :
    (population :: later).IsChain (Offspring breed config.mutationRate) := by
  induction h with
  | spent => exact .singleton _
  | reached => exact .singleton _
  | overflows => exact .singleton _
  | undefined => exact .singleton _
  | breeds _ hoffspring _ _ ih => exact List.isChain_cons_cons.2 ⟨hoffspring, ih⟩

/-- An outcome after some generations more. -/
structure Ends (config : GeneticConfig) (left generation : Nat) (best : Individual γ)
    (later : List (List (Individual γ))) (out : GeneticOutcome γ) : Prop where
  generations_eq : out.generations = generation + later.length
  length_le : later.length ≤ left
  best_mem : out.best = best ∨ ∃ g ∈ later, out.best ∈ g
  reached_eq : out.reachedTarget = config.reached out.best.fitness
  early : out.generations < generation + left → out.reachedTarget = true

theorem Evolves.ends (h : Evolves breed config left generation population best later result) :
    ∀ out, result = .ok out → Ends config left generation best later out := by
  induction h with
  | spent =>
    rintro out ⟨⟩
    exact ⟨rfl, le_rfl, .inl rfl, rfl, fun hlt => absurd hlt (Nat.lt_irrefl _)⟩
  | reached hreached =>
    rintro out ⟨⟩
    exact ⟨rfl, Nat.zero_le _, .inl rfl, hreached.symm, fun _ => rfl⟩
  | overflows => exact fun out => nofun
  | undefined => exact fun out => nofun
  | breeds _ _ hleader _ ih =>
    intro out hout
    obtain ⟨hgenerations, hlength, hbest, hreached, hearly⟩ := ih out hout
    refine ⟨?_, Nat.succ_le_succ hlength, ?_, hreached, fun hlt => hearly (by omega)⟩
    · rw [hgenerations, List.length_cons]
      omega
    · rcases hbest with heq | ⟨g, hg, hmem⟩
      · rcases fitter_eq _ _ with hkept | hbeaten
        · exact .inl (heq.trans hkept)
        · refine .inr ⟨_, List.mem_cons_self, ?_⟩
          rw [heq, hbeaten]
          exact fittest?_mem hleader
      · exact .inr ⟨g, List.mem_cons_of_mem _ hg, hmem⟩

end

/-- All generations of a search descend from its first genomes. -/
theorem Breeds.descends {first : List (List γ)} {generations : List (List (Individual γ))}
    {result : Except GeneticFailure (GeneticOutcome γ)}
    (h : Breeds breed first config generations result)
    (haccepted : rejection? breed first config = none) :
    ∀ g ∈ generations, Descends breed config.mutationRate first g := by
  obtain ⟨hne, ⟨n, -, hlengths⟩, -⟩ := shape_of_accepted haccepted
  cases h with
  | undefined => exact nofun
  | begins hgenes hevaluated _ hlater =>
    subst hgenes
    exact hlater.isChain.induction _ _ (fun g next hnext hg => hg.offspring hne hlengths hnext)
      (fun _ => descends_first hlengths hevaluated)

theorem reached_iff {fitness : Double} :
    config.reached fitness = true ↔
      ∃ target, config.targetFitness = some target ∧ target.le fitness = true := by
  unfold GeneticConfig.reached
  cases config.targetFitness with
  | none => simp
  | some target => simp

/-- A genetic search that has an outcome keeps its population as large as it was and its genomes as
long, generation by generation. Both parents of a child are members of the generation before, and
the cut lies within both. Each gene stands where it stood in a first genome or, only if there is
mutation, comes from the pool. The best individual is a member of some generation and has the
fitness of its genes. The search runs for as many generations as it may, unless it reaches its
target, and says so. -/
theorem geneticSearch_sound [RandomSource ρ] {population : List (List γ)} {source : ρ}
    {out : GeneticOutcome γ} (h : (geneticSearch breed population config source).1 = .ok out) :
    let log := (geneticLog breed population config source).1
    log.2 = .ok out ∧
    (log.1.head?.map (List.map Individual.genes) = some population ∧
      log.1.length = out.generations + 1 ∧
      log.1.IsChain (Offspring breed config.mutationRate)) ∧
    (∀ g ∈ log.1, Descends breed config.mutationRate population g) ∧
    (∃ g ∈ log.1, out.best ∈ g) ∧
    breed.fitness? out.best.genes = some out.best.fitness ∧
    out.generations ≤ config.generations ∧
    (out.reachedTarget = true ↔
      ∃ target, config.targetFitness = some target ∧ target.le out.best.fitness = true) ∧
    (out.generations < config.generations → out.reachedTarget = true) := by
  intro log
  obtain ⟨haccepted, hbreeds⟩ := breeds_of_ok h
  refine ⟨(geneticLog_result breed population config source).trans h, ?_⟩
  change Breeds breed population config log.1 (.ok out) at hbreeds
  have hdescends := hbreeds.descends haccepted
  generalize log.1 = generations at hbreeds hdescends ⊢
  cases hbreeds with
  | @begins individuals best later _ hgenes hevaluated hbest hlater =>
    subst hgenes
    have hends := hlater.ends out rfl
    have hmem : ∃ g ∈ individuals :: later, out.best ∈ g := by
      rcases hends.best_mem with heq | ⟨g, hg, hmem⟩
      · exact ⟨individuals, List.mem_cons_self, heq ▸ fittest?_mem hbest⟩
      · exact ⟨g, List.mem_cons_of_mem _ hg, hmem⟩
    have hgenerations : out.generations = later.length :=
      hends.generations_eq.trans (Nat.zero_add _)
    refine ⟨⟨rfl, congrArg (· + 1) hgenerations.symm, hlater.isChain⟩, hdescends, hmem, ?_,
      hgenerations ▸ hends.length_le, ?_, fun hlt => hends.early (by omega)⟩
    · obtain ⟨g, hg, hbest⟩ := hmem
      exact (hdescends g hg).evaluated _ hbest
    · rw [hends.reached_eq, reached_iff]

/-- A genome is as fit as the sum of its genes, and sevens come in by mutation. -/
def sums : Breed Nat where
  pool := [7]
  fitness? genes := some (.ofNat genes.sum)

theorem sums_bred :
    ∃ out, (geneticSearch sums [[1, 2], [3, 4]] twoGenerations (⟨[], 9⟩ : SplitMix)).1 = .ok out ∧
      out.generations = 2 ∧ out.best.genes = [7, 7] ∧
      sums.fitness? [7, 7] = some out.best.fitness ∧
      ∀ g ∈ (geneticLog sums [[1, 2], [3, 4]] twoGenerations (⟨[], 9⟩ : SplitMix)).1.1,
        Descends sums twoGenerations.mutationRate [[1, 2], [3, 4]] g := by
  obtain ⟨out, hout, hcomputed⟩ : ∃ out,
      (geneticSearch sums [[1, 2], [3, 4]] twoGenerations (⟨[], 9⟩ : SplitMix)).1 = .ok out ∧
        (out.generations, out.best.genes) = (2, [7, 7]) :=
    exists_outcome (by decide +kernel)
  obtain ⟨hgenerations, hgenes⟩ := Prod.mk.inj hcomputed
  obtain ⟨-, -, hdescends, -, hfitness, -, -, -⟩ := geneticSearch_sound hout
  rw [hgenes] at hfitness
  exact ⟨out, hout, hgenerations, hgenes, hfitness, hdescends⟩

end ProblemSolving
