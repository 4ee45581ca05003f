import ProblemSolving.Proofs.Constraint.ArcQueue

/-!
# Propagation computes the greatest arc-consistent subdomains

* `Model.GreatestWithin` : the union of all arc-consistent subdomains of given domains.
* `Model.Seeds` : a queue of arcs of a model with every arc that has to be revised.
* `Seeds.greatestWithin`, `Seeds.draws` : what a run from such a queue leaves and keeps.
* `Seeds.verdict_eq`, `Seeds.marks_eq` : it does not depend on the queue.
* `Model.Covers` : a queue of all arcs of a model, in any order and with repetitions.
* `propagate_greatest` : all of it, and that propagation ends.
-/

namespace ProblemSolving

variable {ν : Type} {m : Model ν}

/-! ## The greatest arc-consistent subdomains -/

/-- What is alive in these domains is alive in the others. -/
def Domains.Within (sub d : Domains) : Prop :=
  ∀ v ix, sub.isAlive v ix = true → d.isAlive v ix = true

/-- The choice takes a live place for each variable, with the value that the assignment gives it. -/
def Domains.Draws (d : Domains) (m : Model ν) (a : Assignment ν) (choice : Nat → Nat) : Prop :=
  ∀ v < m.size, d.isAlive v (choice v) = true ∧ a.get? v = (m.domain v)[choice v]?

/-- Domains are arc consistent and the union of all arc-consistent subdomains of others, so they keep
every solution that can be drawn from those. -/
structure Model.GreatestWithin (m : Model ν) (d d' : Domains) : Prop where
  arcConsistent : isArcConsistent m d' = true
  isAlive_iff : ∀ v ix, d'.isAlive v ix = true ↔ ∃ sub : Domains,
    sub.BelongsTo m ∧ sub.Within d ∧ isArcConsistent m sub = true ∧ sub.isAlive v ix = true
  draws : ∀ (a : Assignment ν) choice, a.Satisfies m → d.Draws m a choice → d'.Draws m a choice

/-- A queue of arcs of a model in which every arc waits that has live values without support. -/
structure Model.Seeds (m : Model ν) (d : Domains) (queue : List Arc) : Prop where
  arcs : ∀ arc ∈ queue, arc.2 ∈ m.neighbors arc.1
  settled : m.Settled d queue

/-- A queue of all arcs of a model, in any order and with any repetitions. -/
def Model.Covers (m : Model ν) (queue : List Arc) : Prop :=
  ∀ arc : Arc, arc ∈ queue ↔ arc.2 ∈ m.neighbors arc.1

theorem Model.Linked.covers_allArcs (hm : m.Linked) : m.Covers m.allArcs :=
  fun _ => hm.mem_allArcs_iff

theorem Model.Covers.seeds {queue : List Arc} (hq : m.Covers queue) (d : Domains) :
    m.Seeds d queue where
  arcs arc := (hq arc).1
  settled a b hb hqueue := absurd ((hq (a, b)).2 hb) hqueue

theorem Model.Settled.sustains {d : Domains} (h : m.Settled d []) :
    m.Sustains fun v ix => d.isAlive v ix = true :=
  fun a x b hx hb => unsupported_eq_nil_iff.1 (h a b hb List.not_mem_nil) x hx

theorem Domains.Draws.fits {d : Domains} {a : Assignment ν} {choice : Nat → Nat}
    (h : d.Draws m a choice) (hm : m.Linked) (hd : d.BelongsTo m) (ha : a.Satisfies m) :
    m.Fits choice :=
  Model.fits_of_satisfies hm ha fun v hv =>
    ⟨hd.lt_size v (choice v) (h v hv).1, (h v hv).2⟩

theorem Domains.Within.pruneAll {sub d : Domains} (h : sub.Within d) (v : Nat) (places : List Nat) :
    (sub.pruneAll v places).Within d := by
  intro w jx hlive
  rw [Domains.isAlive_pruneAll, Bool.and_eq_true] at hlive
  exact h w jx hlive.1

theorem propagate_within (d : Domains) (queue : List Arc) : (propagate m d queue).1.Within d :=
  propagate_preserves (p := fun d' => d'.Within d) (fun _ v places h => h.pruneAll v places) queue
    fun _ _ h => h

/-! ## Marks -/

theorem propagate_size_marks (d : Domains) (queue : List Arc) (v : Nat) :
    ((propagate m d queue).1.alive[v]?).map Array.size = (d.alive[v]?).map Array.size := by
  refine propagate_preserves (m := m)
    (p := fun d' => (d'.alive[v]?).map Array.size = (d.alive[v]?).map Array.size) ?_ queue rfl
  intro d' w places h
  rw [← h]
  unfold Domains.pruneAll
  clear h
  induction places generalizing d' with
  | nil => rfl
  | cons ix rest ih =>
    rw [List.foldl_cons, ih, Domains.alive_prune, Array.getElem?_modify]
    split
    · cases d'.alive[v]? <;> simp
    · rfl

theorem Domains.alive_eq_of_isAlive {d d' : Domains}
    (hsize : ∀ v : Nat, (d.alive[v]?).map Array.size = (d'.alive[v]?).map Array.size)
    (h : ∀ v ix, d.isAlive v ix = true ↔ d'.isAlive v ix = true) : d.alive = d'.alive := by
  refine Array.ext_getElem? fun v => ?_
  have hv := hsize v
  cases hmarks : d.alive[v]? with
  | none =>
    rw [hmarks, Option.map_none] at hv
    exact (Option.map_eq_none_iff.1 hv.symm).symm
  | some marks =>
    rw [hmarks, Option.map_some] at hv
    obtain ⟨marks', hmarks', hmarksSize⟩ := Option.map_eq_some_iff.1 hv.symm
    rw [hmarks']
    refine congrArg some (Array.ext hmarksSize.symm fun ix hix hix' => ?_)
    have halive := h v ix
    simp only [Domains.isAlive, Domains.isAlive?, hmarks, hmarks', Option.bind_some,
      Array.getElem?_eq_getElem hix, Array.getElem?_eq_getElem hix', Option.getD_some] at halive
    exact Bool.eq_iff_iff.2 halive

/-! ## Queues of the arcs that have to be revised -/

namespace Model.Seeds
variable {d : Domains} {queue : List Arc}

/-- The places of a solution that can be drawn survive, and nothing is wiped out. -/
theorem draws (hq : m.Seeds d queue) (hm : m.Linked) (hd : d.BelongsTo m)
    {a : Assignment ν} {choice : Nat → Nat} (ha : a.Satisfies m) (h : d.Draws m a choice) :
    (propagate m d queue).1.Draws m a choice ∧ (propagate m d queue).2 ≠ .wipedOut := by
  have hf := h.fits hm hd ha
  obtain ⟨hkeeps, hverdict⟩ := propagate_keeps hm (hf.sustains hm) hd
    (by rintro v ix ⟨hv, rfl⟩; exact (h v hv).1) hq.arcs
  refine ⟨fun v hv => ⟨hkeeps v (choice v) ⟨hv, rfl⟩, (h v hv).2⟩, ?_⟩
  rcases hverdict fun v hv => ⟨choice v, hv, rfl⟩ with hverdict | hverdict
  · rw [hverdict]
    decide
  · rw [hverdict]
    decide

theorem keeps_sub (hq : m.Seeds d queue) (hm : m.Linked) (hd : d.BelongsTo m)
    {sub : Domains} (hwithin : sub.Within d) (hsettled : m.Settled sub []) :
    sub.Within (propagate m d queue).1 :=
  (propagate_keeps hm hsettled.sustains hd hwithin hq.arcs).1

theorem greatestWithin (hq : m.Seeds d queue) (hm : m.Linked) (hd : d.BelongsTo m)
    (h : (propagate m d queue).2 = .consistent) : m.GreatestWithin d (propagate m d queue).1 := by
  have hsettled := propagate_settled hm hd hq.arcs hq.settled h
  have hbelongs : (propagate m d queue).1.BelongsTo m :=
    propagate_preserves (p := fun d => d.BelongsTo m) (fun _ v places h => h.pruneAll v places)
      queue hd
  refine ⟨hm.isArcConsistent_iff.2 hsettled, fun v ix => ?_, fun a choice ha hdraws => ?_⟩
  · constructor
    · intro hlive
      exact ⟨_, hbelongs, propagate_within d queue, hm.isArcConsistent_iff.2 hsettled, hlive⟩
    · rintro ⟨sub, -, hwithin, hsub, hlive⟩
      exact hq.keeps_sub hm hd hwithin (hm.isArcConsistent_iff.1 hsub) v ix hlive
  · exact (hq.draws hm hd ha hdraws).1

/-- No queue wipes a variable out if another one leads to consistent domains: what those hold
survives, and every variable that had a value has one there. -/
theorem ne_wipedOut (hq : m.Seeds d queue) (hm : m.Linked) (hd : d.BelongsTo m)
    {other : List Arc} (hother : m.Seeds d other) (h : (propagate m d other).2 = .consistent) :
    (propagate m d queue).2 ≠ .wipedOut := by
  intro hwiped
  obtain ⟨v, ⟨ix, hlive⟩, hdead⟩ := propagate_wipes hm hd hq.arcs hwiped
  obtain ⟨jx, hleft⟩ := propagate_leaves hm hd hother.arcs h hlive
  have hgreatest := hother.greatestWithin hm hd h
  have hsurvives := hq.keeps_sub hm hd (propagate_within d other)
    (hm.isArcConsistent_iff.1 hgreatest.arcConsistent) v jx hleft
  rw [hdead jx] at hsurvives
  contradiction

/-- Two runs come to the same verdict where all relations they ask are defined. -/
theorem verdict_eq (hq : m.Seeds d queue) (hm : m.Linked) (hd : d.BelongsTo m)
    {other : List Arc} (hother : m.Seeds d other) (hdefined : (propagate m d queue).2 ≠ .undefined)
    (hdefined' : (propagate m d other).2 ≠ .undefined) :
    (propagate m d queue).2 = (propagate m d other).2 := by
  have hnot := hq.ne_wipedOut hm hd hother
  have hnot' := hother.ne_wipedOut hm hd hq
  have hforeign := propagate_ne_foreign hm hd hq.arcs
  have hforeign' := propagate_ne_foreign hm hd hother.arcs
  generalize (propagate m d queue).2 = verdict at *
  generalize (propagate m d other).2 = verdict' at *
  cases verdict <;> cases verdict' <;> simp_all

/-- Two runs that end in consistent domains leave the same marks and sizes. -/
theorem marks_eq (hq : m.Seeds d queue) (hm : m.Linked) (hd : d.BelongsTo m)
    {other : List Arc} (hother : m.Seeds d other)
    (h : (propagate m d queue).2 = .consistent) (h' : (propagate m d other).2 = .consistent) :
    (propagate m d queue).1.alive = (propagate m d other).1.alive ∧
      (propagate m d queue).1.sizes = (propagate m d other).1.sizes := by
  have hcounted : ∀ q, (propagate m d q).1.Counted := fun q =>
    propagate_preserves (m := m) (p := Domains.Counted) (fun _ v places h => h.pruneAll v places) q
      hd.counted
  have halive : (propagate m d queue).1.alive = (propagate m d other).1.alive := by
    refine Domains.alive_eq_of_isAlive (fun v => ?_) fun v ix => ?_
    · rw [propagate_size_marks, propagate_size_marks]
    · rw [(hq.greatestWithin hm hd h).isAlive_iff, (hother.greatestWithin hm hd h').isAlive_iff]
  exact ⟨halive, by rw [hcounted queue, hcounted other, halive]⟩

end Model.Seeds

/-! ## Queues of all arcs -/

/-- **Propagation computes the greatest arc-consistent subdomains.** From any queue it ends within a
number of rounds. From a queue of all arcs, in any order, consistent domains are the union of all
arc-consistent subdomains, and no solution can be drawn where a variable is wiped out. Whether one is,
and what is left where none is, does not depend on the order, if all relations are defined. -/
theorem propagate_greatest [BEq ν] (hm : m.Built) {d : Domains} (hd : d.BelongsTo m) :
    (∀ queue, propagateWithin m (queue.length + d.liveCount * m.size) d queue =
      some (propagate m d queue)) ∧
    ∀ queue, m.Covers queue →
      (propagate m d queue).2 ≠ .foreign ∧
      ((propagate m d queue).2 = .undefined → ¬ m.Total) ∧
      ((propagate m d queue).2 = .consistent → m.GreatestWithin d (propagate m d queue).1) ∧
      ((propagate m d queue).2 = .wipedOut →
        ∀ (a : Assignment ν) choice, a.Satisfies m → ¬ d.Draws m a choice) ∧
      ∀ other, m.Covers other → (propagate m d queue).2 ≠ .undefined →
        (propagate m d other).2 ≠ .undefined →
        (propagate m d queue).2 = (propagate m d other).2 ∧
        ((propagate m d queue).2 = .consistent →
          (propagate m d queue).1.alive = (propagate m d other).1.alive ∧
          (propagate m d queue).1.sizes = (propagate m d other).1.sizes) := by
  have hlinked := hm.linked
  refine ⟨fun queue => propagateWithin_eq hlinked d queue (Nat.le_refl _), fun queue hq => ?_⟩
  have hseeds := hq.seeds d
  refine ⟨propagate_ne_foreign hlinked hd hseeds.arcs,
    fun h ht => propagate_ne_undefined hlinked ht d queue h, hseeds.greatestWithin hlinked hd, ?_, ?_⟩
  · intro hwiped a choice ha hdraws
    exact (hseeds.draws hlinked hd ha hdraws).2 hwiped
  · intro other hother hdefined hdefined'
    have hverdict : (propagate m d queue).2 = (propagate m d other).2 :=
      hseeds.verdict_eq hlinked hd (hother.seeds d) hdefined hdefined'
    exact ⟨hverdict, fun h => hseeds.marks_eq hlinked hd (hother.seeds d) h (hverdict ▸ h)⟩

/-- Three variables of three values, each to be below the next one. -/
def ascending : Model Nat where
  vars := #[⟨"x", #[1, 2, 3]⟩, ⟨"y", #[1, 2, 3]⟩, ⟨"z", #[1, 2, 3]⟩]
  constraints := #[⟨0, 1, below⟩, ⟨1, 2, below⟩]
  links := #[[⟨1, [below]⟩], [⟨0, [below.flip]⟩, ⟨2, [below]⟩], [⟨1, [below.flip]⟩]]
where
  /-- The first value is less than the second. -/
  below : Relation Nat := { holds := fun x y => x < y }

theorem built_ascending : ascending.Built := by
  let x : Variable Nat := ⟨"x", #[1, 2, 3]⟩
  let y : Variable Nat := ⟨"y", #[1, 2, 3]⟩
  let z : Variable Nat := ⟨"z", #[1, 2, 3]⟩
  have hx : Model.empty.addVariable "x" #[1, 2, 3] = .ok ⟨#[x], #[], #[[]]⟩ := by cbv
  have hy : Model.addVariable ⟨#[x], #[], #[[]]⟩ "y" #[1, 2, 3] =
    .ok ⟨#[x, y], #[], #[[], []]⟩ := by cbv
  have hz : Model.addVariable ⟨#[x, y], #[], #[[], []]⟩ "z" #[1, 2, 3] =
    .ok ⟨#[x, y, z], #[], #[[], [], []]⟩ := by cbv
  have hxy : Model.addConstraint ⟨#[x, y, z], #[], #[[], [], []]⟩ 0 1 ascending.below =
    .ok ⟨#[x, y, z], #[⟨0, 1, ascending.below⟩],
      #[[⟨1, [ascending.below]⟩], [⟨0, [ascending.below.flip]⟩], []]⟩ := by rfl
  have hyz : Model.addConstraint ⟨#[x, y, z], #[⟨0, 1, ascending.below⟩],
      #[[⟨1, [ascending.below]⟩], [⟨0, [ascending.below.flip]⟩], []]⟩ 1 2 ascending.below =
    .ok ascending := by rfl
  exact .addConstraint (.addConstraint (.addVariable (.addVariable (.addVariable .empty hx) hy) hz)
    hxy) hyz

/-- From the last arc to the first and back, propagation leaves the one solution. -/
theorem ascending_greatest :
    ascending.Built ∧ (Domains.full ascending).BelongsTo ascending ∧
      ascending.Covers (ascending.allArcs.reverse ++ ascending.allArcs) ∧
      ascending.GreatestWithin (.full ascending)
        (propagate ascending (.full ascending) (ascending.allArcs.reverse ++ ascending.allArcs)).1 ∧
      (propagate ascending (.full ascending)
        (ascending.allArcs.reverse ++ ascending.allArcs)).1.alive =
        #[#[true, false, false], #[false, true, false], #[false, false, true]] := by
  have hfull := Domains.belongsTo_full ascending
  have hq : ascending.Covers (ascending.allArcs.reverse ++ ascending.allArcs) := by
    intro arc
    rw [← built_ascending.linked.covers_allArcs arc]
    simp
  have hconsistent : (propagate ascending (.full ascending)
      (ascending.allArcs.reverse ++ ascending.allArcs)).2 = .consistent := by cbv
  obtain ⟨-, hruns⟩ := propagate_greatest built_ascending hfull
  obtain ⟨-, -, hgreatest, -⟩ := hruns _ hq
  exact ⟨built_ascending, hfull, hq, hgreatest hconsistent, by cbv⟩

end ProblemSolving
