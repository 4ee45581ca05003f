import ProblemSolving.Proofs.Local.Ancestry

/-!
# Genomes without fitness

* `evolveLog_lacks`, `geneticLog_lacks` : a search fails for want of a fitness only if a first
  genome, or a child of a generation, has none.
* `geneticLog_cases` : the ways in which a search ends.
* `geneticLog_of_lacks` : it fails if a first genome has no fitness.
* `geneticLog_defined` : it does not fail so if all genomes of the length that is bred have one.
-/

namespace ProblemSolving

variable {γ ρ : Type} {breed : Breed γ} {config : GeneticConfig}

section
variable [RandomSource ρ] {n : Nat}

/-- Breeding fails for want of a fitness only if a child of a generation has none. -/
theorem evolveLog_lacks (hrate : config.mutationRate.isNaN = false) (hn : 0 < n)
    (left generation : Nat) {population : List (Individual γ)} (hshape : Shaped n population)
    (best : Individual γ) :
    Draw.Always (evolveLog breed config left generation population best : Draw ρ _) fun run =>
      run.2 = .error .undefinedFitness →
        ∃ g ∈ population :: run.1, breed.LacksChild config.mutationRate g := by
  induction left generalizing generation population best with
  | zero => exact .pure fun hfailed => by cases hfailed
  | succ left ih =>
    unfold evolveLog
    split
    next => exact .pure fun hfailed => by cases hfailed
    next =>
      split
      next => exact .pure fun hfailed => by cases hfailed
      next wheel hwheel =>
        have hspin := Wheel.spin_always (ρ := ρ) hwheel
          (List.map_eq_nil_iff.not.2 hshape.ne_nil)
        rw [List.length_map] at hspin
        refine (litter_always hrate hn hshape hspin population.length).bind fun children h => ?_
        cases children with
        | error failure =>
          exact .pure fun _ => ⟨population, List.mem_cons_self, h.2⟩
        | ok next =>
          obtain ⟨hlength, hinherits, hevaluated⟩ := h
          have hoffspring : Offspring breed config.mutationRate population next :=
            ⟨hlength, hinherits, hevaluated⟩
          refine (ih (generation + 1) (hoffspring.shaped hshape) _).bind fun run hrun => .pure ?_
          intro hfailed
          obtain ⟨g, hg, hlacks⟩ := hrun hfailed
          exact ⟨g, List.mem_cons_of_mem _ hg, hlacks⟩

/-- A search fails for want of a fitness only if a first genome, or a child of a generation, has
none. -/
theorem geneticLog_lacks {first : List (List γ)} (haccepted : rejection? breed first config = none) :
    Draw.Always (geneticLog breed first config : Draw ρ _) fun run =>
      run.2 = .error .undefinedFitness → (∃ genes ∈ first, breed.fitness? genes = none) ∨
        ∃ g ∈ run.1, breed.LacksChild config.mutationRate g := by
  obtain ⟨hne, ⟨n, hn, hlengths⟩, hrate⟩ := shape_of_accepted haccepted
  have hindividuals := breed.mapM_individual first
  unfold geneticLog
  rw [haccepted]
  dsimp only
  split
  next failure hfailure =>
    rw [hfailure] at hindividuals
    exact .pure fun _ => .inl hindividuals.2
  next individuals hok =>
    rw [hok] at hindividuals
    obtain ⟨rfl, -⟩ := hindividuals
    have hshape : Shaped n individuals :=
      ⟨List.map_eq_nil_iff.not.1 hne, List.forall_mem_map.1 hlengths⟩
    obtain ⟨best, hbest⟩ := fittest?_isSome hshape.ne_nil
    rw [hbest]
    exact (evolveLog_lacks hrate hn _ 0 hshape best).bind fun run hrun =>
      .pure fun hfailed => .inr (hrun hfailed)

/-! ## How a search ends -/

theorem Evolves.cases_result {left generation : Nat} {population : List (Individual γ)}
    {best : Individual γ} {later : List (List (Individual γ))}
    {result : Except GeneticFailure (GeneticOutcome γ)}
    (h : Evolves breed config left generation population best later result) :
    (∃ out, result = .ok out) ∨ result = .error .undefinedFitness ∨
      (result = .error .infiniteTotal ∧
        ∃ g ∈ population :: later, (totalWeight g).isInfinite = true) := by
  induction h with
  | spent => exact .inl ⟨_, rfl⟩
  | reached => exact .inl ⟨_, rfl⟩
  | overflows _ htotal => exact .inr (.inr ⟨rfl, _, List.mem_cons_self, htotal⟩)
  | undefined => exact .inr (.inl rfl)
  | breeds _ _ _ _ ih =>
    refine ih.imp_right (Or.imp_right (And.imp_right ?_))
    rintro ⟨g, hg, hinfinite⟩
    exact ⟨g, List.mem_cons_of_mem _ hg, hinfinite⟩

variable {first : List (List γ)} (haccepted : rejection? breed first config = none) (source : ρ)
include haccepted

/-- A search that is begun has an outcome, or lacks a fitness, or comes to a generation of an
infinite total weight. -/
theorem geneticLog_cases :
    let log := (geneticLog breed first config source).1
    (∃ out, log.2 = .ok out) ∨ log.2 = .error .undefinedFitness ∨
      (log.2 = .error .infiniteTotal ∧ ∃ g ∈ log.1, (totalWeight g).isInfinite = true) := by
  intro log
  have hbreeds : Breeds breed first config log.1 log.2 := geneticLog_always haccepted source
  generalize log.1 = generations at hbreeds ⊢
  generalize log.2 = result at hbreeds ⊢
  cases hbreeds with
  | undefined => exact .inr (.inl rfl)
  | begins _ _ _ hlater => exact hlater.cases_result

/-- It fails if a first genome has no fitness. -/
theorem geneticLog_of_lacks (h : ∃ genes ∈ first, breed.fitness? genes = none) :
    (geneticLog breed first config source).1.2 = .error .undefinedFitness := by
  have hbreeds := geneticLog_always haccepted source
  generalize (geneticLog breed first config source).1 = log at hbreeds ⊢
  obtain ⟨generations, result⟩ := log
  cases hbreeds with
  | undefined => rfl
  | begins hgenes hevaluated _ _ =>
    subst hgenes
    obtain ⟨genes, hmem, hnone⟩ := h
    obtain ⟨i, hi, rfl⟩ := List.mem_map.1 hmem
    have hsome := hevaluated i hi
    unfold Breed.Evaluated at hsome
    rw [hnone] at hsome
    cases hsome

/-- It lacks none if all genomes of the length that is bred have a fitness. -/
theorem geneticLog_defined {n : Nat} (hlengths : ∀ genes ∈ first, genes.length = n)
    (hdefined : ∀ genes : List γ, genes.length = n → breed.fitness? genes ≠ none) :
    (geneticLog breed first config source).1.2 ≠ .error .undefinedFitness := by
  intro hfailed
  have hbreeds := geneticLog_always haccepted source
  rcases geneticLog_lacks haccepted source hfailed with ⟨genes, hgenes, hnone⟩ |
    ⟨g, hg, genes, hinherits, hnone⟩
  · exact hdefined genes (hlengths genes hgenes) hnone
  · have hshape := (hbreeds.descends haccepted g hg).shaped (shape_of_accepted haccepted).1 hlengths
    exact hdefined genes (hinherits.length_eq hshape) hnone

end
end ProblemSolving
