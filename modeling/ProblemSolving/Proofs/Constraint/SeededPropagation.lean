import ProblemSolving.Proofs.Constraint.ArcConsistency
import ProblemSolving.Proofs.Constraint.Meaning

/-!
# Propagation after one variable is restricted

* `Model.arcsInto` : the arcs to a variable from its neighbours.
* `Settled.seeds_restrictTo` : once domains are arc consistent, restricting a variable takes support
  from no other arcs.
* `seededPropagation_asStrong` : so propagation from these arcs comes to what propagation from all
  arcs comes to.
-/

namespace ProblemSolving

variable {ν : Type} {m : Model ν} {d : Domains}

/-- The arcs to a variable from its neighbours. -/
def Model.arcsInto (m : Model ν) (v : Nat) : List Arc := (m.neighbors v).map fun n => (n, v)

theorem Model.Linked.mem_arcsInto_iff (hm : m.Linked) {v : Nat} {arc : Arc} :
    arc ∈ m.arcsInto v ↔ arc.2 = v ∧ arc.2 ∈ m.neighbors arc.1 := by
  obtain ⟨a, b⟩ := arc
  unfold arcsInto
  simp only [List.mem_map, Prod.mk.injEq]
  constructor
  · rintro ⟨_, hn, rfl, rfl⟩
    exact ⟨rfl, hm.mem_neighbors_comm.1 hn⟩
  · rintro ⟨rfl, hb⟩
    exact ⟨a, hm.mem_neighbors_comm.1 hb, rfl, rfl⟩

theorem Model.Settled.restrictTo (h : m.Settled d []) (v ix : Nat) {a b : Nat}
    (hb : b ∈ m.neighbors a) (hv : b ≠ v) : unsupported m (d.restrictTo v ix) a b = [] := by
  rw [unsupported_eq_nil_iff]
  intro x hx
  rw [Domains.isAlive_restrictTo, Bool.and_eq_true] at hx
  obtain ⟨y, hy, hcompatible⟩ := unsupported_eq_nil_iff.1 (h a b hb List.not_mem_nil) x hx.1
  have hother : (b != v) = true := by simpa using hv
  exact ⟨y, by rw [Domains.isAlive_restrictTo, hy, hother]; rfl, hcompatible⟩

theorem Model.Settled.seeds_restrictTo (h : m.Settled d []) (hm : m.Linked) (v ix : Nat) :
    m.Seeds (d.restrictTo v ix) (m.arcsInto v) where
  arcs _ harc := (hm.mem_arcsInto_iff.1 harc).2
  settled a b hb hqueue := by
    apply h.restrictTo v ix hb
    rintro rfl
    exact hqueue (hm.mem_arcsInto_iff.2 ⟨rfl, hb⟩)

/-- **Propagation from the arcs to a restricted variable is as strong as from all arcs.** In
arc-consistent domains of which one variable is restricted to one value, both come to the same
verdict, if no relation is undefined that they ask, and leave the same values, all with support. -/
theorem seededPropagation_asStrong [BEq ν] (hm : m.Built) (hd : d.BelongsTo m)
    (h : isArcConsistent m d = true) (assigned : Array (Option Nat)) (v ix : Nat) :
    let seeded := propagate m (d.restrictTo v ix) (m.arcsInto v)
    let full := propagate m (d.restrictTo v ix) m.allArcs
    infer m .arcConsistency (d.restrictTo v ix) assigned v ix = seeded ∧
      (seeded.2 ≠ .foreign ∧ full.2 ≠ .foreign) ∧
      (seeded.2 = .undefined ∨ full.2 = .undefined → ¬ m.Total) ∧
      (seeded.2 ≠ .undefined → full.2 ≠ .undefined →
        seeded.2 = full.2 ∧
        (seeded.2 = .consistent →
          (∀ w jx, seeded.1.isAlive w jx = full.1.isAlive w jx) ∧
          seeded.1.alive = full.1.alive ∧ seeded.1.sizes = full.1.sizes ∧
          isArcConsistent m seeded.1 = true ∧ isArcConsistent m full.1 = true)) := by
  intro seeded full
  have hlinked := hm.linked
  have hd' := hd.restrictTo v ix
  have hseeded := (hlinked.isArcConsistent_iff.1 h).seeds_restrictTo hlinked v ix
  have hfull := hlinked.covers_allArcs.seeds (d.restrictTo v ix)
  refine ⟨rfl, ⟨propagate_ne_foreign hlinked hd' hseeded.arcs,
    propagate_ne_foreign hlinked hd' hfull.arcs⟩, ?_, ?_⟩
  · rintro (hundefined | hundefined) ht
    · exact propagate_ne_undefined hlinked ht _ _ hundefined
    · exact propagate_ne_undefined hlinked ht _ _ hundefined
  · intro hdefined hdefined'
    have hverdict : seeded.2 = full.2 := hseeded.verdict_eq hlinked hd' hfull hdefined hdefined'
    refine ⟨hverdict, fun hconsistent => ?_⟩
    have hconsistent' : full.2 = .consistent := hverdict ▸ hconsistent
    obtain ⟨halive, hsizes⟩ := hseeded.marks_eq hlinked hd' hfull hconsistent hconsistent'
    have hlive : ∀ w jx, seeded.1.isAlive w jx = full.1.isAlive w jx := by
      intro w jx
      unfold Domains.isAlive Domains.isAlive?
      rw [show seeded.1.alive = full.1.alive from halive]
    exact ⟨hlive, halive, hsizes, (hseeded.greatestWithin hlinked hd' hconsistent).arcConsistent,
      (hfull.greatestWithin hlinked hd' hconsistent').arcConsistent⟩

/-- Three variables of two values in a row, each different from the next one. -/
def twoColouredRow : Model Nat :=
  .build [.addVariable "a" #[0, 1], .addVariable "b" #[0, 1], .addVariable "c" #[0, 1],
    .addConstraint 0 1 .unequal, .addConstraint 1 2 .unequal]

/-- One value of the first variable decides the others, two arcs away as well. -/
theorem twoColouredRow_asStrong :
    twoColouredRow.Built ∧ (Domains.full twoColouredRow).BelongsTo twoColouredRow ∧
      isArcConsistent twoColouredRow (.full twoColouredRow) = true ∧
      twoColouredRow.arcsInto 0 = [(1, 0)] ∧
      (infer twoColouredRow .arcConsistency ((Domains.full twoColouredRow).restrictTo 0 0)
        #[some 0, none, none] 0 0).1.alive = #[#[true, false], #[false, true], #[true, false]] ∧
      (propagate twoColouredRow ((Domains.full twoColouredRow).restrictTo 0 0)
        twoColouredRow.allArcs).1.alive = #[#[true, false], #[false, true], #[true, false]] := by
  have hm : twoColouredRow.Built := Model.built_build _
  have hd := Domains.belongsTo_full twoColouredRow
  have hac : isArcConsistent twoColouredRow (.full twoColouredRow) = true := by cbv
  have hseeded : (propagate twoColouredRow ((Domains.full twoColouredRow).restrictTo 0 0)
      (twoColouredRow.arcsInto 0)).1.alive = #[#[true, false], #[false, true], #[true, false]] := by
    cbv
  obtain ⟨hinfer, -, -, hsame⟩ :=
    seededPropagation_asStrong hm hd hac #[some 0, none, none] 0 0
  obtain ⟨-, hmarks⟩ := hsame (by cbv; decide) (by cbv; decide)
  obtain ⟨-, halive, -⟩ := hmarks (by cbv)
  exact ⟨hm, hd, hac, by cbv, by rw [hinfer]; exact hseeded, by rw [← halive]; exact hseeded⟩

end ProblemSolving
