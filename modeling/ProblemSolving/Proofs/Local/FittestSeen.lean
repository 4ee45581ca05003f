import ProblemSolving.Random.SplitMix
import ProblemSolving.Proofs.Local.Generations

/-!
# The fittest individual

The scan of a population begins with its first individual, and so does the search with that of its
first population. One whose fitness is no number is never beaten there.

* `LedByNumber` : the first individual of a population has a number for its fitness.
* `AtLeast` : no individual of a population has a number above some fitness.
* `fittest?_led`, `fittest?_unled` : who leads a population.
* `geneticSearch_fittest` : a genetic search returns the fittest of the generations that a number
  leads, or the first individual of all.
* `undefinedFirst_kept` : so it may return no number though it has seen one.
-/

namespace ProblemSolving

variable {γ ρ : Type} {breed : Breed γ} {config : GeneticConfig}

/-- The first individual, if there is one, has a number for its fitness. -/
def LedByNumber (population : List (Individual γ)) : Prop :=
  ∀ i ∈ population.head?, i.fitness.isNaN = false

/-- Every fitness in a population that is a number is at most the one of `best`. -/
def AtLeast (best : Individual γ) (population : List (Individual γ)) : Prop :=
  ∀ i ∈ population, i.fitness.isNaN = false → i.fitness.le best.fitness = true

theorem AtLeast.mono {best best' : Individual γ} {population : List (Individual γ)}
    (h : AtLeast best population) (hle : best.fitness.le best'.fitness = true) :
    AtLeast best' population :=
  fun i hi hnumber => OrderedScalar.le_trans (κ := Double) (h i hi hnumber) hle

/-! ## The fitter of two -/

section
variable {best next : Individual γ}

theorem fitter_of_isNaN (h : best.fitness.isNaN = true) (next : Individual γ) :
    fitter best next = best := by
  have hlt : best.fitness.lt next.fitness = false := by
    unfold Double.lt
    rw [h]
    rfl
  unfold fitter
  rw [hlt, if_neg Bool.false_ne_true]

theorem le_fitter (h : best.fitness.isNaN = false) (next : Individual γ) :
    best.fitness.le (fitter best next).fitness = true := by
  unfold fitter
  split
  next hlt => exact StrictScalar.le_of_lt (κ := Double) hlt
  next => exact OrderedScalar.le_refl (κ := Double) h

theorem le_fitter_right (h : best.fitness.isNaN = false) (hnext : next.fitness.isNaN = false) :
    next.fitness.le (fitter best next).fitness = true := by
  unfold fitter
  split
  next => exact OrderedScalar.le_refl (κ := Double) hnext
  next hlt => exact StrictScalar.le_of_not_lt (κ := Double) h hnext (Bool.eq_false_iff.2 hlt)

theorem isNaN_fitter (h : best.fitness.isNaN = false) (next : Individual γ) :
    (fitter best next).fitness.isNaN = false :=
  OrderedScalar.isNumber_right (κ := Double) (le_fitter h next)

end

/-! ## The leader of a population -/

theorem foldl_fitter_of_isNaN {first : Individual γ} (h : first.fitness.isNaN = true)
    (rest : List (Individual γ)) : rest.foldl fitter first = first := by
  induction rest with
  | nil => rfl
  | cons i rest ih => rw [List.foldl_cons, fitter_of_isNaN h, ih]

theorem foldl_fitter_of_number {first : Individual γ} (h : first.fitness.isNaN = false)
    (rest : List (Individual γ)) :
    first.fitness.le (rest.foldl fitter first).fitness = true ∧
      AtLeast (rest.foldl fitter first) rest := by
  induction rest generalizing first with
  | nil => exact ⟨OrderedScalar.le_refl (κ := Double) h, nofun⟩
  | cons i rest ih =>
    obtain ⟨hle, hrest⟩ := ih (isNaN_fitter h i)
    refine ⟨OrderedScalar.le_trans (κ := Double) (le_fitter h i) hle,
      List.forall_mem_cons.2 ⟨fun hi => ?_, hrest⟩⟩
    exact OrderedScalar.le_trans (κ := Double) (le_fitter_right h hi) hle

variable {population : List (Individual γ)} {leader : Individual γ}

/-- A population that no number leads is led by its first individual. -/
theorem fittest?_unled (h : fittest? population = some leader) (hled : ¬ LedByNumber population) :
    population.head? = some leader ∧ leader.fitness.isNaN = true := by
  cases population with
  | nil => cases h
  | cons first rest =>
    have hfirst : first.fitness.isNaN = true := by
      by_contra hnumber
      refine hled fun i hi => ?_
      obtain rfl := Option.some.inj hi
      exact Bool.eq_false_iff.2 hnumber
    obtain rfl := Option.some.inj h
    rw [foldl_fitter_of_isNaN hfirst]
    exact ⟨rfl, hfirst⟩

/-- A population that a number leads is led by the greatest one. -/
theorem fittest?_led (h : fittest? population = some leader) (hled : LedByNumber population) :
    leader.fitness.isNaN = false ∧ AtLeast leader population := by
  cases population with
  | nil => cases h
  | cons first rest =>
    obtain rfl := Option.some.inj h
    obtain ⟨hle, hrest⟩ := foldl_fitter_of_number (hled first rfl) rest
    exact ⟨OrderedScalar.isNumber_right (κ := Double) hle,
      List.forall_mem_cons.2 ⟨fun _ => hle, hrest⟩⟩

/-! ## The best of a run -/

section
variable {left generation : Nat} {best : Individual γ} {later : List (List (Individual γ))}
  {result : Except GeneticFailure (GeneticOutcome γ)}

/-- A best individual that is no number stays for good. -/
theorem Evolves.best_of_isNaN
    (h : Evolves breed config left generation population best later result)
    (hbest : best.fitness.isNaN = true) : ∀ out, result = .ok out → out.best = best := by
  induction h with
  | spent =>
    rintro out ⟨⟩
    rfl
  | reached =>
    rintro out ⟨⟩
    rfl
  | overflows => exact fun out => nofun
  | undefined => exact fun out => nofun
  | breeds _ _ _ _ ih =>
    rw [fitter_of_isNaN hbest] at ih
    exact ih hbest

/-- What a best individual that is a number may give way to: one that is fitter, from a generation
that a number leads, and no less fit than any of those. -/
structure Improves (best : Individual γ) (later : List (List (Individual γ)))
    (best' : Individual γ) : Prop where
  le : best.fitness.le best'.fitness = true
  source : best' = best ∨ ∃ g ∈ later, LedByNumber g ∧ best' ∈ g
  atLeast : ∀ g ∈ later, LedByNumber g → AtLeast best' g

theorem Improves.refl (hbest : best.fitness.isNaN = false) : Improves best [] best :=
  ⟨OrderedScalar.le_refl (κ := Double) hbest, .inl rfl, nofun⟩

theorem Improves.cons {next : List (Individual γ)} {best' : Individual γ}
    (hbest : best.fitness.isNaN = false) (hleader : fittest? next = some leader)
    (h : Improves (fitter best leader) later best') : Improves best (next :: later) best' where
  le := OrderedScalar.le_trans (κ := Double) (le_fitter hbest leader) h.le
  source := by
    rcases h.source with heq | ⟨g, hg, hled, hmem⟩
    · rcases fitter_eq best leader with hkept | hbeaten
      · exact .inl (heq.trans hkept)
      · rw [hbeaten] at heq
        refine .inr ⟨next, List.mem_cons_self, ?_, heq ▸ fittest?_mem hleader⟩
        by_contra hled
        have hnumber := isNaN_fitter hbest leader
        rw [hbeaten, (fittest?_unled hleader hled).2] at hnumber
        contradiction
    · exact .inr ⟨g, List.mem_cons_of_mem _ hg, hled, hmem⟩
  atLeast := by
    refine List.forall_mem_cons.2 ⟨fun hled => ?_, h.atLeast⟩
    obtain ⟨hnumber, hatLeast⟩ := fittest?_led hleader hled
    exact (hatLeast.mono (le_fitter_right hbest hnumber)).mono h.le

theorem Evolves.improves
    (h : Evolves breed config left generation population best later result)
    (hbest : best.fitness.isNaN = false) :
    ∀ out, result = .ok out → Improves best later out.best := by
  induction h with
  | spent =>
    rintro out ⟨⟩
    exact .refl hbest
  | reached =>
    rintro out ⟨⟩
    exact .refl hbest
  | overflows => exact fun out => nofun
  | undefined => exact fun out => nofun
  | breeds _ _ hleader _ ih =>
    intro out hout
    exact (ih (isNaN_fitter hbest _) out hout).cons hbest hleader

end

/-- If a number leads the first population, a genetic search returns a number: the fitness of an
individual of some generation that a number leads, and at least every number in such a generation.
Else it returns the first individual, whose fitness is none. So it returns the fittest individual
that it has seen if numbers lead all generations. -/
theorem geneticSearch_fittest [RandomSource ρ] {first : List (List γ)} {source : ρ}
    {out : GeneticOutcome γ} (h : (geneticSearch breed first config source).1 = .ok out) :
    let generations := (geneticLog breed first config source).1.1
    ((∀ g ∈ generations.head?, LedByNumber g) →
      out.best.fitness.isNaN = false ∧
      (∃ g ∈ generations, LedByNumber g ∧ out.best ∈ g) ∧
      ∀ g ∈ generations, LedByNumber g → AtLeast out.best g) ∧
    ((∀ g ∈ generations.head?, ¬ LedByNumber g) →
      out.best.fitness.isNaN = true ∧ generations.head?.bind List.head? = some out.best) ∧
    ((∀ g ∈ generations, LedByNumber g) →
      out.best.fitness.isNaN = false ∧ ∀ g ∈ generations, AtLeast out.best g) := by
  obtain ⟨-, hbreeds⟩ := breeds_of_ok h
  intro generations
  change Breeds breed first config generations (.ok out) at hbreeds
  generalize generations = log at hbreeds ⊢
  cases hbreeds with
  | @begins individuals best later _ hgenes hevaluated hbest hlater =>
    have hfirst (hled : LedByNumber individuals) : out.best.fitness.isNaN = false ∧
        (∃ g ∈ individuals :: later, LedByNumber g ∧ out.best ∈ g) ∧
        ∀ g ∈ individuals :: later, LedByNumber g → AtLeast out.best g := by
      obtain ⟨hnumber, hatLeast⟩ := fittest?_led hbest hled
      have himproves := hlater.improves hnumber out rfl
      refine ⟨OrderedScalar.isNumber_right (κ := Double) himproves.le, ?_,
        List.forall_mem_cons.2 ⟨fun _ => hatLeast.mono himproves.le, himproves.atLeast⟩⟩
      rcases himproves.source with heq | ⟨g, hg, hgled, hmem⟩
      · exact ⟨individuals, List.mem_cons_self, hled, heq ▸ fittest?_mem hbest⟩
      · exact ⟨g, List.mem_cons_of_mem _ hg, hgled, hmem⟩
    refine ⟨fun hled => hfirst (hled individuals rfl), fun hunled => ?_, fun hled => ?_⟩
    · obtain ⟨hhead, hundefined⟩ := fittest?_unled hbest (hunled individuals rfl)
      rw [hlater.best_of_isNaN hundefined out rfl]
      exact ⟨hundefined, hhead⟩
    · obtain ⟨hnumber, -, hatLeast⟩ := hfirst (hled individuals List.mem_cons_self)
      exact ⟨hnumber, fun g hg => hatLeast g hg (hled g hg)⟩

/-- A genome is as fit as the sum of its genes, unless that is zero. -/
def positives : Breed Nat where
  pool := [0, 3]
  fitness? genes := some (if genes.sum = 0 then .nan false else .ofNat genes.sum)

theorem positives_bred :
    ∃ out,
      (geneticSearch positives [[1], [0], [2]] twoGenerations (⟨[], 2⟩ : SplitMix)).1 = .ok out ∧
      out.best.genes = [3] ∧ out.best.fitness.isNaN = false ∧
      (∃ g ∈ (geneticLog positives [[1], [0], [2]] twoGenerations (⟨[], 2⟩ : SplitMix)).1.1,
        ∃ i ∈ g, i.fitness.isNaN = true) ∧
      ∀ g ∈ (geneticLog positives [[1], [0], [2]] twoGenerations (⟨[], 2⟩ : SplitMix)).1.1,
        AtLeast out.best g := by
  obtain ⟨out, hout, hgenes⟩ : ∃ out,
      (geneticSearch positives [[1], [0], [2]] twoGenerations (⟨[], 2⟩ : SplitMix)).1 = .ok out ∧
        out.best.genes = [3] :=
    exists_outcome (by decide +kernel)
  have hled : ∀ g ∈ (geneticLog positives [[1], [0], [2]] twoGenerations
      (⟨[], 2⟩ : SplitMix)).1.1, LedByNumber g := by
    unfold LedByNumber
    decide +kernel
  obtain ⟨-, -, hall⟩ := geneticSearch_fittest hout
  exact ⟨out, hout, hgenes, (hall hled).1, by decide +kernel, (hall hled).2⟩

/-- A search may return no number though it has seen one, and a number though it has seen a greater
one: where the first individual of the first population, or of a later one, has no number for its
fitness. -/
theorem undefinedFirst_kept :
    ((∃ out,
        (geneticSearch positives [[0], [1]] ⟨0, .zero, none⟩ (⟨[], 0⟩ : SplitMix)).1 = .ok out ∧
          out.best.fitness.isNaN = true) ∧
      ∃ g ∈ (geneticLog positives [[0], [1]] ⟨0, .zero, none⟩ (⟨[], 0⟩ : SplitMix)).1.1,
        ∃ i ∈ g, i.fitness.isNaN = false) ∧
    ((∃ out,
        (geneticSearch positives [[1], [0], [2]] twoGenerations (⟨[], 8⟩ : SplitMix)).1 = .ok out ∧
          out.best.fitness = .ofNat 2) ∧
      ∃ g ∈ (geneticLog positives [[1], [0], [2]] twoGenerations (⟨[], 8⟩ : SplitMix)).1.1,
        ∃ i ∈ g, i.fitness = .ofNat 3) :=
  ⟨⟨exists_outcome (by decide +kernel), by decide +kernel⟩,
    ⟨exists_outcome (by decide +kernel), by decide +kernel⟩⟩

end ProblemSolving
