import ProblemSolving.Local.Genetic
import ProblemSolving.Proofs.Local.Roulette
import ProblemSolving.Proofs.Random.UnitInterval

/-!
# Offspring

* `Breed.Evaluated` : an individual has the fitness of its genes.
* `Mutates`, `Inherits` : genes after mutation, and genes of a child.
* `Offspring`, `Breed.LacksChild` : the next generation of a population, or why there is none.
* `litter_always` : a litter is one, whatever is drawn.
-/

namespace ProblemSolving

variable {γ ρ : Type}

/-! ## Individuals -/

/-- The fitness of an individual is the one of its genes. -/
def Breed.Evaluated (breed : Breed γ) (i : Individual γ) : Prop :=
  breed.fitness? i.genes = some i.fitness

/-- What evaluating a genome gives: an individual of these genes, or word that they have no
fitness. -/
def Breed.Evaluates (breed : Breed γ) (genes : List γ) :
    Except GeneticFailure (Individual γ) → Prop
  | .ok i => i.genes = genes ∧ breed.Evaluated i
  | .error failure => failure = .undefinedFitness ∧ breed.fitness? genes = none

theorem Breed.evaluates_individual (breed : Breed γ) (genes : List γ) :
    breed.Evaluates genes (breed.individual genes) := by
  unfold individual
  cases h : breed.fitness? genes with
  | none => exact ⟨rfl, h⟩
  | some fitness => exact ⟨rfl, h⟩

theorem Breed.mapM_individual (breed : Breed γ) (population : List (List γ)) :
    match population.mapM breed.individual with
    | .ok individuals =>
      individuals.map Individual.genes = population ∧ ∀ i ∈ individuals, breed.Evaluated i
    | .error failure =>
      failure = .undefinedFitness ∧ ∃ genes ∈ population, breed.fitness? genes = none := by
  induction population with
  | nil => exact ⟨rfl, nofun⟩
  | cons genes population ih =>
    have hgenes := breed.evaluates_individual genes
    rw [List.mapM_cons]
    cases hi : breed.individual genes with
    | error failure =>
      rw [hi] at hgenes
      exact ⟨hgenes.1, genes, List.mem_cons_self, hgenes.2⟩
    | ok i =>
      rw [hi] at hgenes
      cases hrest : population.mapM breed.individual with
      | error failure =>
        rw [hrest] at ih
        obtain ⟨hfailure, lacking, hmem, hnone⟩ := ih
        exact ⟨hfailure, lacking, List.mem_cons_of_mem _ hmem, hnone⟩
      | ok individuals =>
        rw [hrest] at ih
        obtain ⟨rfl, hevaluated⟩ := hgenes
        exact ⟨congrArg (i.genes :: ·) ih.1, List.forall_mem_cons.2 ⟨hevaluated, ih.2⟩⟩

/-! ## Children -/

/-- Genes after mutation: as many, each of them as it was or, if there is mutation, from the pool. -/
def Mutates (pool : List γ) (rate : Double) (genes mutated : List γ) : Prop :=
  mutated.length = genes.length ∧ ∀ (j : Nat) (gene : γ), mutated[j]? = some gene →
    genes[j]? = some gene ∨ (Double.zero.lt rate = true ∧ gene ∈ pool)

/-- Genes of a child: those of one parent up to a cut and those of another from there on, after
mutation. -/
def Inherits (breed : Breed γ) (rate : Double) (parents : List (Individual γ)) (genes : List γ) :
    Prop :=
  ∃ x ∈ parents, ∃ y ∈ parents, ∃ cut, cut < x.genes.length ∧ cut ≤ y.genes.length ∧
    Mutates breed.pool rate (x.genes.take cut ++ y.genes.drop cut) genes

/-- The next generation: as many individuals, all of them children of this one. -/
structure Offspring (breed : Breed γ) (rate : Double) (parents next : List (Individual γ)) :
    Prop where
  length_eq : next.length = parents.length
  inherits : ∀ child ∈ next, Inherits breed rate parents child.genes
  evaluated : ∀ child ∈ next, breed.Evaluated child

/-- Some child of a population would have no fitness. -/
def Breed.LacksChild (breed : Breed γ) (rate : Double) (parents : List (Individual γ)) : Prop :=
  ∃ genes, Inherits breed rate parents genes ∧ breed.fitness? genes = none

/-- There is someone, and all have so many genes. -/
structure Shaped (n : Nat) (population : List (Individual γ)) : Prop where
  ne_nil : population ≠ []
  length_eq : ∀ i ∈ population, i.genes.length = n

theorem getElem?_cut {x y : List γ} {cut : Nat} (h : cut ≤ x.length) (j : Nat) :
    (x.take cut ++ y.drop cut)[j]? = if j < cut then x[j]? else y[j]? := by
  have hlength : (x.take cut).length = cut := List.length_take_of_le h
  split
  next hj => rw [List.getElem?_append_left (by omega), List.getElem?_take_of_lt hj]
  next hj =>
    rw [List.getElem?_append_right (by omega), hlength, List.getElem?_drop]
    congr 1
    omega

theorem length_cut {x y : List γ} {cut n : Nat} (hx : x.length = n) (hy : y.length = n)
    (h : cut < n) : (x.take cut ++ y.drop cut).length = n := by
  rw [List.length_append, List.length_take, List.length_drop]
  omega

theorem Inherits.length_eq {breed : Breed γ} {rate : Double} {parents : List (Individual γ)}
    {genes : List γ} {n : Nat} (h : Inherits breed rate parents genes) (hshape : Shaped n parents) :
    genes.length = n := by
  obtain ⟨x, hx, y, hy, cut, hcut, -, hmutates, -⟩ := h
  have hlength := hshape.length_eq x hx
  rw [hmutates, length_cut hlength (hshape.length_eq y hy) (hlength ▸ hcut)]

theorem Offspring.shaped {breed : Breed γ} {rate : Double} {parents next : List (Individual γ)}
    {n : Nat} (h : Offspring breed rate parents next) (hshape : Shaped n parents) :
    Shaped n next where
  ne_nil := by
    rw [← List.length_pos_iff, h.length_eq, List.length_pos_iff]
    exact hshape.ne_nil
  length_eq child hchild := (h.inherits child hchild).length_eq hshape

section
variable [RandomSource ρ] {breed : Breed γ} {rate : Double}

theorem mutates_of_forall₂ {pool genes mutated : List γ} (hrate : Double.zero.lt rate = true)
    (h : List.Forall₂ (fun old new => new = old ∨ new ∈ pool) genes mutated) :
    Mutates pool rate genes mutated := by
  refine ⟨h.length_eq.symm, ?_⟩
  induction h with
  | nil => exact fun _ _ => nofun
  | cons hgene _ ih =>
    intro j gene hj
    cases j with
    | zero =>
      obtain rfl := Option.some.inj hj
      exact hgene.imp (fun heq => congrArg some heq.symm) fun hmem => ⟨hrate, hmem⟩
    | succ j => exact ih j gene hj

theorem mutateGene_always (pool : List γ) (rate : Double) (gene : γ) :
    Draw.Always (mutateGene pool rate gene : Draw ρ γ) fun new => new = gene ∨ new ∈ pool := by
  refine Draw.unit_always.bind fun u _ => ?_
  split
  next =>
    refine (Draw.choose_always pool).bind fun drawn hdrawn => .pure ?_
    cases drawn with
    | none => exact .inl rfl
    | some new => exact .inr hdrawn
  next => exact .pure (.inl rfl)

theorem mutate_always (pool : List γ) (hrate : rate.isNaN = false) (genes : List γ) :
    Draw.Always (mutate pool rate genes : Draw ρ (List γ)) (Mutates pool rate genes) := by
  unfold mutate
  split
  next => exact .pure ⟨rfl, fun _ _ => .inl⟩
  next hle =>
    have hpos : Double.zero.lt rate = true :=
      StrictScalar.lt_of_not_le (x := Double.zero) (by decide) hrate (Bool.eq_false_iff.2 hle)
    exact (Draw.Always.mapM fun gene _ => mutateGene_always pool rate gene).imp
      fun _ => mutates_of_forall₂ hpos

theorem crossover_always {x : List γ} (hx : x ≠ []) (y : List γ) :
    Draw.Always (crossover x y : Draw ρ (List γ)) fun genes =>
      ∃ cut < x.length, genes = x.take cut ++ y.drop cut :=
  (Draw.below64_always (List.length_pos_iff.2 hx)).bind fun cut hcut => .pure ⟨cut, hcut, rfl⟩

variable {parents : List (Individual γ)} {n : Nat} {wheel : Wheel}

theorem offspring_always (hrate : rate.isNaN = false) (hn : 0 < n) (hshape : Shaped n parents)
    (hspin : Draw.Always (wheel.spin : Draw ρ Nat) (· < parents.length)) :
    Draw.Always (offspring breed rate wheel parents.toArray : Draw ρ (List γ))
      (Inherits breed rate parents) := by
  have hpick : Draw.Always (do
      return (parents.toArray[← wheel.spin]?.map Individual.genes).getD [] : Draw ρ (List γ))
      fun genes => ∃ x ∈ parents, x.genes = genes := by
    refine hspin.bind fun place hplace => .pure ⟨parents[place], List.getElem_mem hplace, ?_⟩
    rw [List.getElem?_toArray, List.getElem?_eq_getElem hplace]
    rfl
  refine hpick.bind fun genes hx => hpick.bind fun genes' hy => ?_
  obtain ⟨x, hx, rfl⟩ := hx
  obtain ⟨y, hy, rfl⟩ := hy
  have hxn := hshape.length_eq x hx
  have hyn := hshape.length_eq y hy
  have hne : x.genes ≠ [] := List.length_pos_iff.1 (hxn ▸ hn)
  refine (crossover_always hne y.genes).bind fun joined hjoined => ?_
  obtain ⟨cut, hcut, rfl⟩ := hjoined
  exact (mutate_always breed.pool hrate _).imp fun mutated hmutated =>
    ⟨x, hx, y, hy, cut, hcut, by omega, hmutated⟩

/-- A litter has so many children, or else one of them would have no fitness. -/
theorem litter_always (hrate : rate.isNaN = false) (hn : 0 < n) (hshape : Shaped n parents)
    (hspin : Draw.Always (wheel.spin : Draw ρ Nat) (· < parents.length)) (count : Nat) :
    Draw.Always (litter breed rate wheel parents.toArray count : Draw ρ _) fun
      | .ok next => next.length = count ∧ (∀ child ∈ next, Inherits breed rate parents child.genes) ∧
          ∀ child ∈ next, breed.Evaluated child
      | .error failure => failure = .undefinedFitness ∧ breed.LacksChild rate parents := by
  induction count with
  | zero => exact .pure ⟨rfl, nofun, nofun⟩
  | succ count ih =>
    unfold litter
    refine (offspring_always hrate hn hshape hspin).bind fun genes hgenes => ?_
    have hchild := breed.evaluates_individual genes
    cases hi : breed.individual genes with
    | error failure =>
      rw [hi] at hchild
      exact .pure ⟨hchild.1, genes, hgenes, hchild.2⟩
    | ok child =>
      rw [hi] at hchild
      obtain ⟨rfl, hchild⟩ := hchild
      refine ih.bind fun rest hrest => .pure ?_
      cases rest with
      | error failure => exact hrest
      | ok next =>
        obtain ⟨hlength, hinherits, hevaluated⟩ := hrest
        exact ⟨congrArg (· + 1) hlength, List.forall_mem_cons.2 ⟨hgenes, hinherits⟩,
          List.forall_mem_cons.2 ⟨hchild, hevaluated⟩⟩

end

end ProblemSolving
