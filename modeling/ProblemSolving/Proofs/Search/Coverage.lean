import ProblemSolving.Proofs.Search.OpenClosed

/-!
# What a best-first search has covered

A relation `B g c` says that the cost `g` is as good as the cost `c`. Every step out of a closed
state leads to a state that is open or closed at a cost as good as the cost of that step, unless it
is left out for its depth.

* `BestFirst.Known` : a state is open or closed at a cost.
* `BestFirst.Within` : a state is known at a cost as good as another.
* `BestFirst.CoveredFor` : the invariant, for closed states of certain costs, which are not too deep
  to be expanded; `BestFirst.CoveredFor.turn` : every turn keeps it.
* `BestFirst.CoveredFor.follow` : a path out of a known state ends in a closed state or meets an open
  one; `BestFirst.CoveredFor.waits_before_goal` : a path to a goal meets an open one.
* `BestFirst.Covered` : the invariant for all closed states, while nothing is left out.
-/

namespace ProblemSolving

namespace BestFirst

variable {σ α κ : Type} [Scalar κ] [BEq σ] [Hashable σ]

/-- A state waits with a node of this cost. -/
def Waits (s : BestFirst σ α κ) (state : σ) (g : κ) : Prop :=
  ∃ (n : Placed σ α κ) (f : κ), s.opened[state]? = some ⟨n.id, f⟩ ∧ s.run.tree.Holds n ∧
    n.node.cost = g

/-- A state waits, or was expanded, at this cost. -/
def Known (s : BestFirst σ α κ) (state : σ) (g : κ) : Prop :=
  s.closed[state]? = some g ∨ s.Waits state g

/-- A state is known at a cost as good as the given one. -/
def Within (B : κ → κ → Prop) (s : BestFirst σ α κ) (state : σ) (c : κ) : Prop :=
  ∃ g, s.Known state g ∧ B g c

/-- Every step out of a closed state leads to a state that is known at a cost as good as that of
the step. -/
structure Covered (P : Problem σ α κ) (B : κ → κ → Prop) (s : BestFirst σ α κ) : Prop where
  initial : Within B s P.initial 0
  step : ∀ (state : σ) (g : κ), s.closed[state]? = some g → ∀ a ∈ P.actions state,
    Within B s (P.result state a) (P.pathCost g state a (P.result state a))

/-- The same of the steps that are due, which the cost of a closed state tells. -/
structure CoveredFor (due : κ → Prop) (P : Problem σ α κ) (B : κ → κ → Prop)
    (s : BestFirst σ α κ) : Prop where
  initial : Within B s P.initial 0
  step : ∀ (state : σ) (g : κ), s.closed[state]? = some g → due g → ∀ a ∈ P.actions state,
    Within B s (P.result state a) (P.pathCost g state a (P.result state a))

theorem Covered.coveredFor {P : Problem σ α κ} {B : κ → κ → Prop} {s : BestFirst σ α κ}
    (h : Covered P B s) (due : κ → Prop) : CoveredFor due P B s :=
  ⟨h.initial, fun state g hg _ => h.step state g hg⟩

theorem covered_iff {P : Problem σ α κ} {B : κ → κ → Prop} {s : BestFirst σ α κ} :
    Covered P B s ↔ CoveredFor (fun _ => True) P B s :=
  ⟨fun h => h.coveredFor _, fun h => ⟨h.initial, fun state g hg => h.step state g hg trivial⟩⟩

/-! ## What an offer must respect -/

/-- Among the nodes of one state, the values decide which cost is as good as which. -/
def Sorts (eval : Evaluation σ α κ) (B : κ → κ → Prop) (t : SearchTree σ α κ) : Prop :=
  ∀ {m n : Placed σ α κ} {f f' : κ}, t.Holds m → t.Holds n → m.node.state = n.node.state →
    eval m.node = .ok f → eval n.node = .ok f' →
    (Scalar.le f f' = true → B m.node.cost n.node.cost) ∧
      (Scalar.le f f' = false → B n.node.cost m.node.cost)

/-- The cost `c` of a child, against the cost `g` at which its state was closed, decides which of
them is as good as the other. -/
def Settles (B : κ → κ → Prop) (reopening : Reopening) (g c : κ) : Prop :=
  ((reopening = .onCheaperPath && Scalar.lt c g) = true → B c g) ∧
    ((reopening = .onCheaperPath && Scalar.lt c g) = false → B g c)

section
variable {P : Problem σ α κ} {eval : Evaluation σ α κ} {reopening : Reopening} {policy : TimedPolicy}
  {B : κ → κ → Prop} {s s' : BestFirst σ α κ} {child : Placed σ α κ} {f : κ}
  {kids : List (Placed σ α κ)}

theorem Offered.closed_mono [LawfulBEq σ]
    (h : Offered reopening s child f s') {state : σ} {g : κ}
    (hg : s'.closed[state]? = some g) : s.closed[state]? = some g := by
  cases h with
  | reopened =>
    have hg' : (s.reopen child.node.state).closed[state]? = some g := hg
    rw [getElem?_reopen] at hg'
    split at hg'
    · contradiction
    · exact hg'
  | _ => exact hg

theorem Offers.closed_mono [LawfulBEq σ]
    (h : Offers eval reopening policy s kids s') {state : σ} {g : κ}
    (hg : s'.closed[state]? = some g) : s.closed[state]? = some g := by
  induction h with
  | nil => exact hg
  | deep _ _ ih => exact ih hg
  | offer _ offered _ ih => exact offered.closed_mono (ih hg)

theorem Sound.value_of_entry (h : Sound P eval s) {state : σ} {n : Placed σ α κ} {f : κ}
    (hentry : s.opened[state]? = some ⟨n.id, f⟩) (hn : s.run.tree.Holds n) :
    n.node.state = state ∧ eval n.node = .ok f := by
  obtain ⟨x, hx, hid, hstate, hf⟩ := h.opened state _ hentry
  obtain ⟨hxheld, hxvalue⟩ := h.waiting x hx
  obtain rfl : x.item = n := hxheld.eq hn hid
  exact ⟨hstate, hxvalue.trans (congrArg _ hf)⟩

theorem Sound.exists_entry (h : Sound P eval s) {state : σ} {e : OpenEntry κ}
    (he : s.opened[state]? = some e) :
    ∃ n : Placed σ α κ, s.run.tree.Holds n ∧ s.opened[state]? = some ⟨n.id, e.f⟩ := by
  obtain ⟨x, hx, hid, -, -⟩ := h.opened state e he
  exact ⟨x.item, (h.waiting x hx).1, by rw [he, hid]⟩

/-! ## One offer -/

section
variable [LawfulBEq σ]

theorem known_enter_self (held : s.run.tree.Holds child) :
    (s.enter child f).Known child.node.state child.node.cost :=
  .inr ⟨child, f, by simp [getElem?_enter], held, rfl⟩

theorem Known.enter {state : σ} {g : κ} (h : s.Known state g) (hne : state ≠ child.node.state) :
    (s.enter child f).Known state g := by
  rcases h with hclosed | ⟨n, f', hentry, hn, hcost⟩
  · exact .inl hclosed
  · refine .inr ⟨n, f', ?_, hn, hcost⟩
    rw [getElem?_enter, if_neg (by simpa using hne.symm)]
    exact hentry

omit [Scalar κ] in
theorem Known.reopen {state reopened : σ} {g : κ} (h : s.Known state g) (hne : state ≠ reopened) :
    (s.reopen reopened).Known state g := by
  rcases h with hclosed | hwaits
  · refine .inl ?_
    rw [getElem?_reopen, if_neg (by simpa using hne.symm)]
    exact hclosed
  · exact .inr hwaits

omit [Scalar κ] [LawfulBEq σ] in
/-- A search knows all states as well as another one, if it still knows them at the same cost, but
for one that it knows at a cost that is as good as before. -/
theorem Within.improve (trans : ∀ {a b c : κ}, B a b → B b c → B a c) {state₀ : σ} {c₀ : κ}
    (self : s'.Known state₀ c₀) (better : ∀ g, s.Known state₀ g → B c₀ g)
    (other : ∀ state g, state ≠ state₀ → s.Known state g → s'.Known state g)
    {state : σ} {c : κ} (h : Within B s state c) : Within B s' state c := by
  obtain ⟨g, hknown, hg⟩ := h
  by_cases hstate : state = state₀
  · subst hstate
    exact ⟨c₀, self, trans (better g hknown) hg⟩
  · exact ⟨g, other state g hstate hknown, hg⟩

/-- After an offer the child's state is known at a cost as good as the child's, and every other
state is known as well as before. -/
theorem Offered.within (ho : Offered reopening s child f s') (h : Sound P eval s)
    (held : s.run.tree.Holds child) (value : eval child.node = .ok f)
    (trans : ∀ {a b c : κ}, B a b → B b c → B a c) (refl : B child.node.cost child.node.cost)
    (sorts : Sorts eval B s.run.tree)
    (settles : ∀ g, s.closed[child.node.state]? = some g →
      Settles B reopening g child.node.cost) :
    Within B s' child.node.state child.node.cost ∧
      ∀ state c, Within B s state c → Within B s' state c := by
  cases ho with
  | dropped closed hdear =>
    exact ⟨⟨_, .inl closed, (settles _ closed).2 hdear⟩, fun _ _ hw => hw⟩
  | kept closed opened hle =>
    obtain ⟨n, hn, hentry⟩ := h.exists_entry opened
    obtain ⟨hstate, hvalue⟩ := h.value_of_entry hentry hn
    have hB := (sorts hn held hstate hvalue value).1 hle
    exact ⟨⟨_, .inr ⟨n, _, hentry, hn, rfl⟩, hB⟩, fun _ _ hw => hw⟩
  | replaced closed opened hlt =>
    have hself : (s.enter child f).Known _ _ := known_enter_self held
    refine ⟨⟨_, hself, refl⟩, fun _ _ => Within.improve (B := B) trans hself ?_ ?_⟩
    · rintro g (hg | ⟨n, f', hentry, hn, rfl⟩)
      · cases closed.symm.trans hg
      · obtain ⟨hstate, hvalue⟩ := h.value_of_entry hentry hn
        cases opened.symm.trans hentry
        exact (sorts hn held hstate hvalue value).2 hlt
    · exact fun _ _ hne hknown => hknown.enter hne
  | new closed opened =>
    have hself : (s.enter child f).Known _ _ := known_enter_self held
    refine ⟨⟨_, hself, refl⟩, fun _ _ => Within.improve (B := B) trans hself ?_ ?_⟩
    · rintro g (hg | ⟨n, f', hentry, -, -⟩)
      · cases closed.symm.trans hg
      · cases opened.symm.trans hentry
    · exact fun _ _ hne hknown => hknown.enter hne
  | reopened closed opened hcheaper =>
    have hself : ((s.reopen child.node.state).enter child f).Known _ _ := known_enter_self held
    refine ⟨⟨_, hself, refl⟩, fun _ _ => Within.improve (B := B) trans hself ?_ ?_⟩
    · rintro g (hg | ⟨n, f', hentry, -, -⟩)
      · exact (settles g hg).1 (by
          cases closed.symm.trans hg
          exact hcheaper)
      · cases opened.symm.trans hentry
    · exact fun _ _ hne hknown => (hknown.reopen hne).enter hne

/-! ## All children -/

/-- After the children were offered, each one's state is known at a cost as good as the child's, or
the child is too deep, which is counted; and every other state is known as well as before. -/
theorem Offers.within (ho : Offers eval reopening policy s kids s') (h : Sound P eval s)
    (held : ∀ kid ∈ kids, s.run.tree.Holds kid)
    (trans : ∀ {a b c : κ}, B a b → B b c → B a c)
    (refl : ∀ kid ∈ kids, B kid.node.cost kid.node.cost)
    (sorts : Sorts eval B s.run.tree)
    (settles : ∀ kid ∈ kids, ∀ g, s.closed[kid.node.state]? = some g →
      Settles B reopening g kid.node.cost) :
    (∀ kid ∈ kids, Within B s' kid.node.state kid.node.cost ∨
        policy.maxDepth < kid.node.depth ∧ 0 < s'.run.stats.depthSkipped) ∧
      ∀ state c, Within B s state c → Within B s' state c := by
  induction ho with
  | nil => exact ⟨by simp, fun _ _ hw => hw⟩
  | @deep s child rest s' deep later ih =>
    have hcounted : s.run.stats.depthSkipped + 1 ≤ s'.run.stats.depthSkipped := later.depthSkipped
    obtain ⟨hrest, hmono⟩ := ih h.skipDeep (fun kid hkid => held kid (List.mem_cons_of_mem _ hkid))
      (fun kid hkid => refl kid (List.mem_cons_of_mem _ hkid)) sorts
      (fun kid hkid g hg => settles kid (List.mem_cons_of_mem _ hkid) g hg)
    refine ⟨?_, hmono⟩
    intro kid hkid
    rcases List.mem_cons.1 hkid with rfl | hkid
    · exact .inr ⟨deep, by omega⟩
    · exact hrest kid hkid
  | @offer s child f s₁ rest s' value offered later ih =>
    have hchild := held child (List.mem_cons_self ..)
    obtain ⟨hself, hmono⟩ := offered.within (B := B) h hchild value trans
      (refl child (List.mem_cons_self ..)) sorts (settles child (List.mem_cons_self ..))
    obtain ⟨hrest, hmono'⟩ := ih (h.offered hchild value offered)
      (by rw [offered.tree]; exact fun kid hkid => held kid (List.mem_cons_of_mem _ hkid))
      (fun kid hkid => refl kid (List.mem_cons_of_mem _ hkid))
      (by rw [offered.tree]; exact sorts)
      (fun kid hkid g hg => settles kid (List.mem_cons_of_mem _ hkid) g (offered.closed_mono hg))
    refine ⟨?_, fun state c hw => hmono' state c (hmono state c hw)⟩
    intro kid hkid
    rcases List.mem_cons.1 hkid with rfl | hkid
    · exact .inl (hmono' _ _ hself)
    · exact hrest kid hkid

/-! ## Turns -/

variable {here : Placed σ α κ} {rest : Frontier (Ranked κ) (Placed σ α κ)} {run : Run σ α κ}

theorem Known.close (h : Sound P eval s) (hnext : s.next? = some (here, f, rest))
    (hkeeps : s.run.tree.Keeps run.tree) {state : σ} {g : κ} (hknown : s.Known state g) :
    (s.close here rest run).Known state g := by
  obtain ⟨hheld, -, hentry⟩ := h.next hnext
  unfold Known Waits BestFirst.close
  simp only [Std.HashMap.getElem?_insert, Std.HashMap.getElem?_erase]
  by_cases hstate : here.node.state = state
  · subst hstate
    left
    rcases hknown with hclosed | ⟨n, f', hentry', hn, rfl⟩
    · cases (h.apart _ _ hclosed).symm.trans hentry
    · obtain ⟨hid, -⟩ := OpenEntry.mk.inj (Option.some.inj (hentry.symm.trans hentry'))
      rw [hheld.eq hn hid]
      simp
  · simp only [beq_iff_eq, hstate, if_false]
    rcases hknown with hclosed | ⟨n, f', hentry', hn, hcost⟩
    · exact .inl hclosed
    · exact .inr ⟨n, f', hentry', hkeeps _ _ hn, hcost⟩

theorem Turn.depthSkipped (ht : Turn P eval reopening policy s here f rest run kids s')
    (h : Sound P eval s) : s.run.stats.depthSkipped ≤ s'.run.stats.depthSkipped := by
  have hrun := (Run.expand_ok ht.expand).2
  have hoffers := (ht.closes h).2.depthSkipped
  have hclose : (s.close here rest run).run.stats.depthSkipped = s.run.stats.depthSkipped := by
    show run.stats.depthSkipped = _
    rw [hrun]
    rfl
  rwa [hclose] at hoffers

theorem Turn.depthSkipped_eq_zero (ht : Turn P eval reopening policy s here f rest run kids s')
    (h : Sound P eval s) (hskipped : s'.run.stats.depthSkipped = 0) :
    s.run.stats.depthSkipped = 0 := by
  have hle := ht.depthSkipped h
  omega

/-- A turn keeps the coverage, unless it leaves out a step that is due. -/
theorem CoveredFor.turn {due : κ → Prop} (hc : CoveredFor due P B s) (h : Sound P eval s)
    (ht : Turn P eval reopening policy s here f rest run kids s')
    (trans : ∀ {a b c : κ}, B a b → B b c → B a c)
    (refl : ∀ kid ∈ kids, B kid.node.cost kid.node.cost)
    (sorts : Sorts eval B s'.run.tree)
    (settles : ∀ kid ∈ kids, ∀ g, (s.close here rest run).closed[kid.node.state]? = some g →
      Settles B reopening g kid.node.cost)
    (shallow : due here.node.cost →
      here.node.depth < policy.maxDepth ∨ s'.run.stats.depthSkipped = 0) :
    CoveredFor due P B s' := by
  obtain ⟨hclose, hoffers⟩ := ht.closes h
  rw [hoffers.tree] at sorts
  obtain ⟨hkids, hmono⟩ := hoffers.within (B := B) hclose ht.expands.holds trans refl sorts settles
  have hkept : ∀ state c, Within B s state c → Within B s' state c := by
    rintro state c ⟨g, hknown, hg⟩
    exact hmono state c ⟨g, hknown.close h ht.next ht.expands.keeps, hg⟩
  refine ⟨hkept _ _ hc.initial, ?_⟩
  intro state g hg hdue a ha
  have hg' : (s.closed.insert here.node.state here.node.cost)[state]? = some g :=
    hoffers.closed_mono hg
  rw [Std.HashMap.getElem?_insert] at hg'
  split at hg'
  next hstate =>
    obtain rfl := eq_of_beq hstate
    obtain rfl := Option.some.inj hg'
    obtain ⟨kid, hkid, hnode⟩ := ht.expands.exists_kid ha
    have hdepth := ht.expands.depth_eq hkid
    have hoffered := shallow hdue
    rcases hkids kid hkid with hwithin | ⟨hdeep, hskipped⟩
    · rwa [hnode] at hwithin
    · omega
  next => exact hkept _ _ (hc.step state g hg' hdue a ha)

/-- A turn keeps the coverage, if nothing was left out. -/
theorem Covered.turn (hc : Covered P B s) (h : Sound P eval s)
    (ht : Turn P eval reopening policy s here f rest run kids s')
    (trans : ∀ {a b c : κ}, B a b → B b c → B a c)
    (refl : ∀ kid ∈ kids, B kid.node.cost kid.node.cost)
    (sorts : Sorts eval B s'.run.tree)
    (settles : ∀ kid ∈ kids, ∀ g, (s.close here rest run).closed[kid.node.state]? = some g →
      Settles B reopening g kid.node.cost)
    (hskipped : s'.run.stats.depthSkipped = 0) : Covered P B s' :=
  covered_iff.2 ((covered_iff.1 hc).turn h ht trans refl sorts settles fun _ => .inr hskipped)

theorem covered_enter_root {run : Run σ α κ} {root : Placed σ α κ} (held : run.tree.Holds root)
    (hroot : root.node = SearchTree.rootNode P.initial) (refl : B 0 0) :
    Covered P B ((fresh run).enter root f) := by
  have hself : ((fresh run).enter root f).Known root.node.state root.node.cost :=
    known_enter_self held
  rw [hroot] at hself
  refine ⟨⟨0, hself, refl⟩, ?_⟩
  intro state g hg
  have hnone : (Std.HashMap.emptyWithCapacity : Std.HashMap σ κ)[state]? = some g := hg
  simp at hnone

end

/-! ## Paths through what is covered -/

/-- A path out of a known state ends in a closed state, or some state on it waits. What is claimed of
the cost `g` of a known state and of the path ahead of it, `Φ`, is carried along; it tells that the
steps are due. -/
theorem CoveredFor.follow {due : κ → Prop} {Φ : σ → κ → List α → Prop} {t : σ}
    (hc : CoveredFor due P B s)
    (ready : ∀ state g a as, s.closed[state]? = some g → Φ state g (a :: as) → due g)
    (step : ∀ state g a as g', s.closed[state]? = some g → a ∈ P.actions state →
      P.Path (P.result state a) as t → Φ state g (a :: as) →
      B g' (P.pathCost g state a (P.result state a)) → Φ (P.result state a) g' as)
    {state : σ} {as : List α} (hp : P.Path state as t) {g : κ} (hknown : s.Known state g)
    (hΦ : Φ state g as) :
    (∃ g, s.closed[t]? = some g) ∨
      ∃ mid g bs, s.Waits mid g ∧ P.Path mid bs t ∧ Φ mid g bs := by
  induction hp generalizing g with
  | nil state =>
    rcases hknown with hclosed | hwaits
    · exact .inl ⟨g, hclosed⟩
    · exact .inr ⟨state, g, [], hwaits, .nil state, hΦ⟩
  | @cons state t a as legal later ih =>
    rcases hknown with hclosed | hwaits
    · obtain ⟨g', hknown', hB⟩ := hc.step state g hclosed (ready state g a as hclosed hΦ) a legal
      exact ih step hknown' (step state g a as g' hclosed legal later hΦ hB)
    · exact .inr ⟨state, g, a :: as, hwaits, .cons legal later, hΦ⟩

/-- On the way to a goal some state waits, for a goal is never closed. -/
theorem CoveredFor.waits_before_goal {due : κ → Prop} {Φ : σ → κ → List α → Prop} {as : List α}
    {t : σ} (hc : CoveredFor due P B s) (h : Sound P eval s)
    (start : ∀ g, B g 0 → Φ P.initial g as)
    (ready : ∀ state g a as, s.closed[state]? = some g → Φ state g (a :: as) → due g)
    (step : ∀ state g a as g', s.closed[state]? = some g → a ∈ P.actions state →
      P.Path (P.result state a) as t → Φ state g (a :: as) →
      B g' (P.pathCost g state a (P.result state a)) → Φ (P.result state a) g' as)
    (hp : P.Path P.initial as t) (hgoal : P.isGoal t = true) :
    ∃ mid g bs, s.Waits mid g ∧ P.Path mid bs t ∧ Φ mid g bs := by
  obtain ⟨g₀, hknown, hg₀⟩ := hc.initial
  rcases hc.follow ready step hp hknown (start g₀ hg₀) with ⟨g, hclosed⟩ | hwaits
  · have hnot := (h.closed t g hclosed).1
    rw [hgoal] at hnot
    contradiction
  · exact hwaits

theorem Covered.waits_before_goal {Φ : σ → κ → List α → Prop} {as : List α} {t : σ}
    (hc : Covered P B s) (h : Sound P eval s) (start : ∀ g, B g 0 → Φ P.initial g as)
    (step : ∀ state g a as g', s.closed[state]? = some g → a ∈ P.actions state →
      P.Path (P.result state a) as t → Φ state g (a :: as) →
      B g' (P.pathCost g state a (P.result state a)) → Φ (P.result state a) g' as)
    (hp : P.Path P.initial as t) (hgoal : P.isGoal t = true) :
    ∃ mid g bs, s.Waits mid g ∧ P.Path mid bs t ∧ Φ mid g bs :=
  (covered_iff.1 hc).waits_before_goal h start (fun _ _ _ _ _ _ => trivial) step hp hgoal

end

end BestFirst

end ProblemSolving
