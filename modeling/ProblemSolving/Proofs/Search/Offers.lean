import ProblemSolving.Proofs.Search.LiveEntries

/-!
# Offers

* `BestFirst.Sound` : every open state has its entry on the frontier, every entry its node in the
  tree, and no state is open and closed at once.
* `BestFirst.Offered` : what the offer of one child can do.
* `BestFirst.entries_offerAll` : what waits after all offers.
* `BestFirst.Offers`, `BestFirst.Offers.sound` : the offers of all children keep the books in order.
-/

namespace ProblemSolving

namespace BestFirst

open scoped List

variable {σ α κ : Type} [Scalar κ] [BEq σ] [Hashable σ]

/-! ## One offer -/

/-- What an offer can do, by what is known of the child's state. -/
inductive Offered (reopening : Reopening) (s : BestFirst σ α κ) (child : Placed σ α κ) (f : κ) :
    BestFirst σ α κ → Prop
  | dropped {g : κ} (closed : s.closed[child.node.state]? = some g)
      (h : (reopening = .onCheaperPath && Scalar.lt child.node.cost g) = false) :
      Offered reopening s child f s.suppress
  | reopened {g : κ} (closed : s.closed[child.node.state]? = some g)
      (opened : s.opened[child.node.state]? = none)
      (h : (reopening = .onCheaperPath && Scalar.lt child.node.cost g) = true) :
      Offered reopening s child f ((s.reopen child.node.state).enter child f)
  | kept {e : OpenEntry κ} (closed : s.closed[child.node.state]? = none)
      (opened : s.opened[child.node.state]? = some e) (h : Scalar.le e.f f = true) :
      Offered reopening s child f s.suppress
  | replaced {e : OpenEntry κ} (closed : s.closed[child.node.state]? = none)
      (opened : s.opened[child.node.state]? = some e) (h : Scalar.le e.f f = false) :
      Offered reopening s child f (s.enter child f)
  | new (closed : s.closed[child.node.state]? = none)
      (opened : s.opened[child.node.state]? = none) :
      Offered reopening s child f (s.enter child f)

theorem enterOpen_of_none {s : BestFirst σ α κ} {child : Placed σ α κ} {f : κ}
    (h : s.opened[child.node.state]? = none) : s.enterOpen child f = s.enter child f := by
  simp [enterOpen, h]

theorem enterOpen_of_some {s : BestFirst σ α κ} {child : Placed σ α κ} {f : κ} {e : OpenEntry κ}
    (h : s.opened[child.node.state]? = some e) :
    s.enterOpen child f = if Scalar.le e.f f then s.suppress else s.enter child f := by
  simp [enterOpen, h]

/-- No state is open and closed at once. -/
def Apart (s : BestFirst σ α κ) : Prop :=
  ∀ (state : σ) (g : κ), s.closed[state]? = some g → s.opened[state]? = none

theorem Apart.offer {s : BestFirst σ α κ} (h : s.Apart) (reopening : Reopening)
    (child : Placed σ α κ) (f : κ) :
    Offered reopening s child f (s.offer reopening child f) := by
  unfold BestFirst.offer
  rw [Std.HashMap.get?_eq_getElem?]
  cases hclosed : s.closed[child.node.state]? with
  | some g =>
    have hopened := h _ _ hclosed
    dsimp only
    split
    next hcheaper =>
      have hnone : (s.reopen child.node.state).opened[child.node.state]? = none := hopened
      rw [enterOpen_of_none hnone]
      exact .reopened hclosed hopened hcheaper
    next hdear => exact .dropped hclosed (eq_false_of_ne_true hdear)
  | none =>
    dsimp only
    cases hopened : s.opened[child.node.state]? with
    | none =>
      rw [enterOpen_of_none hopened]
      exact .new hclosed hopened
    | some e =>
      rw [enterOpen_of_some hopened]
      split
      next hle => exact .kept hclosed hopened hle
      next hlt => exact .replaced hclosed hopened (eq_false_of_ne_true hlt)

/-! ## What waits after offers -/

theorem entries_enter (s : BestFirst σ α κ) (child : Placed σ α κ) (f : κ) :
    ∃ arrival, (s.enter child f).frontier.waiting.entries ~
      ⟨⟨f, arrival⟩, child⟩ :: s.frontier.waiting.entries :=
  ⟨_, Ranked.entries_add ..⟩

theorem entries_enterOpen (s : BestFirst σ α κ) (child : Placed σ α κ) (f : κ) :
    ∀ x ∈ (s.enterOpen child f).frontier.waiting.entries,
      x ∈ s.frontier.waiting.entries ∨ x.item = child := by
  have henter : ∀ x ∈ (s.enter child f).frontier.waiting.entries,
      x ∈ s.frontier.waiting.entries ∨ x.item = child := by
    obtain ⟨arrival, hentries⟩ := entries_enter s child f
    intro x hx
    rcases List.mem_cons.1 (hentries.mem_iff.1 hx) with rfl | hx
    · exact .inr rfl
    · exact .inl hx
  unfold enterOpen
  split
  · split
    · exact fun x hx => .inl hx
    · exact henter
  · exact henter

theorem entries_offer (reopening : Reopening) (s : BestFirst σ α κ) (child : Placed σ α κ) (f : κ) :
    ∀ x ∈ (s.offer reopening child f).frontier.waiting.entries,
      x ∈ s.frontier.waiting.entries ∨ x.item = child := by
  unfold BestFirst.offer
  split
  · split
    · exact entries_enterOpen (s.reopen child.node.state) child f
    · exact fun x hx => .inl hx
  · exact entries_enterOpen s child f

/-- What waits after the offers waited before or is a child that is not too deep. -/
theorem entries_offerAll (eval : Evaluation σ α κ) (reopening : Reopening) (policy : TimedPolicy)
    (s : BestFirst σ α κ) (kids : List (Placed σ α κ)) :
    ∀ x ∈ (offerAll eval reopening policy s kids).1.frontier.waiting.entries,
      x ∈ s.frontier.waiting.entries ∨ x.item ∈ kids ∧ x.item.node.depth ≤ policy.maxDepth := by
  induction kids generalizing s with
  | nil => exact fun x hx => .inl hx
  | cons child rest ih =>
    have hrest : ∀ x : Entry κ (Placed σ α κ),
        x.item ∈ rest ∧ x.item.node.depth ≤ policy.maxDepth →
        x.item ∈ child :: rest ∧ x.item.node.depth ≤ policy.maxDepth :=
      fun x hx => ⟨List.mem_cons_of_mem _ hx.1, hx.2⟩
    intro x hx
    unfold offerAll at hx
    split at hx
    · exact (ih s.skipDeep x hx).imp_right (hrest x)
    next hdepth =>
    split at hx
    · exact .inl hx
    next f _ =>
    rcases ih (s.offer reopening child f) x hx with hx | hx
    · refine (entries_offer reopening s child f x hx).imp_right fun hchild => ?_
      rw [hchild]
      exact ⟨List.mem_cons_self .., Nat.le_of_not_lt hdepth⟩
    · exact .inr (hrest x hx)

/-! ## Soundness -/

/-- The books of a search are in order: the tree is grown from the root, every entry on the frontier
waits with the value of its node, every open state has its entry there, and every closed state was
expanded. -/
structure Sound (P : Problem σ α κ) (eval : Evaluation σ α κ) (s : BestFirst σ α κ) : Prop where
  grown : s.run.tree.Grown P
  counted : s.frontier.waiting.Counted
  waiting : ∀ x ∈ s.frontier.waiting.entries,
    s.run.tree.Holds x.item ∧ eval x.item.node = .ok x.key.priority
  opened : ∀ state e, s.opened[state]? = some e → ∃ x ∈ s.frontier.waiting.entries,
    x.item.id = e.node ∧ x.item.node.state = state ∧ x.key.priority = e.f
  closed : ∀ state g, s.closed[state]? = some g → P.isGoal state = false ∧
    ∃ n, s.run.tree.Holds n ∧ n.node.state = state ∧ n.node.cost = g ∧
      ∀ a ∈ P.actions state, ∃ kid, s.run.tree.Holds kid ∧
        kid.node = SearchTree.child P n a
  apart : s.Apart

section
variable {P : Problem σ α κ} {eval : Evaluation σ α κ} {s s' : BestFirst σ α κ}
  {child : Placed σ α κ} {f : κ}

theorem Sound.suppress (h : Sound P eval s) : Sound P eval s.suppress :=
  ⟨h.grown, h.counted, h.waiting, h.opened, h.closed, h.apart⟩

theorem Sound.skipDeep (h : Sound P eval s) : Sound P eval s.skipDeep :=
  ⟨h.grown, h.counted, h.waiting, h.opened, h.closed, h.apart⟩

variable [LawfulBEq σ]

theorem getElem?_enter (s : BestFirst σ α κ) (child : Placed σ α κ) (f : κ) (state : σ) :
    (s.enter child f).opened[state]? =
      if child.node.state == state then some ⟨child.id, f⟩ else s.opened[state]? :=
  Std.HashMap.getElem?_insert

omit [Scalar κ] in
theorem getElem?_reopen (s : BestFirst σ α κ) (state t : σ) :
    (s.reopen state).closed[t]? = if state == t then none else s.closed[t]? :=
  Std.HashMap.getElem?_erase

theorem Sound.reopen (h : Sound P eval s) (state : σ) : Sound P eval (s.reopen state) := by
  have hclosed : ∀ (t : σ) (g : κ), (s.reopen state).closed[t]? = some g → s.closed[t]? = some g := by
    intro t g ht
    rw [getElem?_reopen] at ht
    split at ht
    · contradiction
    · exact ht
  exact ⟨h.grown, h.counted, h.waiting, h.opened, fun t g ht => h.closed t g (hclosed t g ht),
    fun t g ht => h.apart t g (hclosed t g ht)⟩

theorem Sound.enter (h : Sound P eval s) (held : s.run.tree.Holds child)
    (value : eval child.node = .ok f) (hclosed : s.closed[child.node.state]? = none) :
    Sound P eval (s.enter child f) := by
  obtain ⟨arrival, hentries⟩ := entries_enter s child f
  refine ⟨h.grown, h.counted.add child f, ?_, ?_, h.closed, ?_⟩
  · intro x hx
    rcases List.mem_cons.1 (hentries.mem_iff.1 hx) with rfl | hx
    · exact ⟨held, value⟩
    · exact h.waiting x hx
  · intro state e he
    rw [getElem?_enter] at he
    split at he
    next hstate =>
      obtain rfl := Option.some.inj he
      exact ⟨_, hentries.mem_iff.2 (List.mem_cons_self ..), rfl, eq_of_beq hstate, rfl⟩
    next =>
      obtain ⟨x, hx, hid, hstate, hf⟩ := h.opened state e he
      exact ⟨x, hentries.mem_iff.2 (List.mem_cons_of_mem _ hx), hid, hstate, hf⟩
  · intro state g hg
    have hne : child.node.state ≠ state := by
      rintro rfl
      cases hclosed.symm.trans hg
    rw [getElem?_enter, if_neg (by simpa using hne)]
    exact h.apart state g hg

theorem Sound.offered {reopening : Reopening} (h : Sound P eval s)
    (held : s.run.tree.Holds child) (value : eval child.node = .ok f)
    (ho : Offered reopening s child f s') : Sound P eval s' := by
  cases ho with
  | dropped => exact h.suppress
  | kept => exact h.suppress
  | replaced closed => exact h.enter held value closed
  | new closed => exact h.enter held value closed
  | reopened =>
    apply (h.reopen _).enter held value
    rw [getElem?_reopen, if_pos (beq_self_eq_true _)]

end

/-! ## Children offered one after the other -/

/-- The children are offered in order, except for those that lie too deep. -/
inductive Offers (eval : Evaluation σ α κ) (reopening : Reopening) (policy : TimedPolicy) :
    BestFirst σ α κ → List (Placed σ α κ) → BestFirst σ α κ → Prop
  | nil (s) : Offers eval reopening policy s [] s
  | deep {s child rest s'} (deep : policy.maxDepth < child.node.depth)
      (later : Offers eval reopening policy s.skipDeep rest s') :
      Offers eval reopening policy s (child :: rest) s'
  | offer {s child f s₁ rest s'} (value : eval child.node = .ok f)
      (offered : Offered reopening s child f s₁)
      (later : Offers eval reopening policy s₁ rest s') :
      Offers eval reopening policy s (child :: rest) s'

section
variable {P : Problem σ α κ} {eval : Evaluation σ α κ} {reopening : Reopening} {policy : TimedPolicy}
  {s s' : BestFirst σ α κ} {child : Placed σ α κ} {f : κ} {kids : List (Placed σ α κ)}

theorem Offered.tree (h : Offered reopening s child f s') : s'.run.tree = s.run.tree := by
  cases h <;> rfl

theorem Offered.log (h : Offered reopening s child f s') : s'.run.log = s.run.log := by
  cases h <;> rfl

theorem Offered.depthSkipped (h : Offered reopening s child f s') :
    s'.run.stats.depthSkipped = s.run.stats.depthSkipped := by
  cases h <;> rfl

theorem Offers.tree (h : Offers eval reopening policy s kids s') :
    s'.run.tree = s.run.tree := by
  induction h with
  | nil => rfl
  | deep _ _ ih => exact ih
  | offer _ offered _ ih => exact ih.trans offered.tree

theorem Offers.log (h : Offers eval reopening policy s kids s') : s'.run.log = s.run.log := by
  induction h with
  | nil => rfl
  | deep _ _ ih => exact ih
  | offer _ offered _ ih => exact ih.trans offered.log

theorem Offers.depthSkipped (h : Offers eval reopening policy s kids s') :
    s.run.stats.depthSkipped ≤ s'.run.stats.depthSkipped := by
  induction h with
  | nil => exact Nat.le_refl _
  | deep _ _ ih => exact Nat.le_of_succ_le ih
  | offer _ offered _ ih => rw [← offered.depthSkipped]; exact ih

theorem Offers.ordered [OrderedScalar κ] (h : Offers eval reopening policy s kids s')
    (ho : s.frontier.waiting.Ordered) : s'.frontier.waiting.Ordered := by
  induction h with
  | nil => exact ho
  | deep _ _ ih => exact ih ho
  | offer _ offered _ ih =>
    apply ih
    cases offered with
    | dropped => exact ho
    | kept => exact ho
    | _ => exact ho.add _ _

variable [LawfulBEq σ]

theorem Sound.offers (h : Sound P eval s) (held : ∀ kid ∈ kids, s.run.tree.Holds kid)
    (hoffers : offerAll eval reopening policy s kids = (s', none)) :
    Offers eval reopening policy s kids s' := by
  induction kids generalizing s with
  | nil =>
    obtain rfl : s = s' := by simpa [offerAll] using hoffers
    exact .nil s
  | cons child rest ih =>
    have hchild := held child (List.mem_cons_self ..)
    have hrest : ∀ kid ∈ rest, s.run.tree.Holds kid :=
      fun kid hkid => held kid (List.mem_cons_of_mem _ hkid)
    unfold offerAll at hoffers
    split at hoffers
    next hdeep => exact .deep hdeep (ih h.skipDeep hrest hoffers)
    next =>
      split at hoffers
      next => simp at hoffers
      next f value =>
        have ho := h.apart.offer reopening child f
        refine .offer value ho (ih (h.offered hchild value ho) ?_ hoffers)
        rw [ho.tree]
        exact hrest

theorem Offers.sound (ho : Offers eval reopening policy s kids s') (h : Sound P eval s)
    (held : ∀ kid ∈ kids, s.run.tree.Holds kid) : Sound P eval s' := by
  induction ho with
  | nil => exact h
  | deep _ _ ih =>
    exact ih h.skipDeep fun kid hkid => held kid (List.mem_cons_of_mem _ hkid)
  | offer value offered _ ih =>
    apply ih (h.offered (held _ (List.mem_cons_self ..)) value offered)
    intro kid hkid
    rw [offered.tree]
    exact held kid (List.mem_cons_of_mem _ hkid)

end

end BestFirst

end ProblemSolving
