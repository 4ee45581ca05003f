import ProblemSolving.Proofs.Search.Offers

/-!
# Open and closed states

* `BestFirst.Sound.next` : the node that is taken is open, and waits with its own value.
* `BestFirst.Sound.rank_next` : that value is the least of all open ones.
* `BestFirst.Sound.turn` : every turn keeps the books in order.
* `BestFirst.bestFirst_ends` : what else every turn keeps holds when the search ends.
-/

namespace ProblemSolving

namespace BestFirst

variable {σ α κ : Type} [Scalar κ] [BEq σ] [Hashable σ]

variable {P : Problem σ α κ} {eval : Evaluation σ α κ} {reopening : Reopening} {policy : TimedPolicy}
  {s s' : BestFirst σ α κ} {here : Placed σ α κ} {f : κ}
  {rest : Frontier (Ranked κ) (Placed σ α κ)} {run : Run σ α κ} {kids : List (Placed σ α κ)}

theorem pops_of_next? (h : s.next? = some (here, f, rest)) :
    Pops s.opened here f rest s.frontier :=
  pops_of_popLive? h

/-- The node that is taken stands in the tree and waits with its own value. -/
theorem Sound.next (h : Sound P eval s) (hnext : s.next? = some (here, f, rest)) :
    s.run.tree.Holds here ∧ eval here.node = .ok f ∧ s.opened[here.node.state]? = some ⟨here.id, f⟩ := by
  have hpops := pops_of_next? hnext
  obtain ⟨skipped, key, hentries, -⟩ := hpops.entries
  have hmem : ⟨key, here⟩ ∈ s.frontier.waiting.entries := hentries.mem_iff.2 (by simp)
  have hheld : s.run.tree.Holds here := (h.waiting _ hmem).1
  obtain ⟨x, hx, hid, -, hf⟩ := h.opened _ _ hpops.entry
  obtain ⟨hxheld, hxvalue⟩ := h.waiting x hx
  have hxhere : x.item = here := hxheld.eq hheld hid
  rw [hxhere, hf] at hxvalue
  exact ⟨hheld, hxvalue, hpops.entry⟩

theorem Turn.expands (ht : Turn P eval reopening policy s here f rest run kids s') :
    SearchTree.Expands P s.run.tree here run.tree kids :=
  (Run.expand_ok ht.expand).1

/-- The node that is taken has the least value of all that wait. -/
theorem Sound.rank_next [OrderedScalar κ] (h : Sound P eval s) (ho : s.frontier.waiting.Ordered)
    (hnext : s.next? = some (here, f, rest)) {state : σ} {e : OpenEntry κ}
    (hentry : s.opened[state]? = some e) : (Scalar.rank f e.f).isLE := by
  have hpops := pops_of_next? hnext
  obtain ⟨-, hvalue, -⟩ := h.next hnext
  obtain ⟨-, key, hkey, hleast⟩ := hpops.least ho
  obtain rfl : f = key.priority := Except.ok.inj (hvalue.symm.trans (h.waiting _ hkey).2)
  obtain ⟨x, hx, hid, hstate, hf⟩ := h.opened state e hentry
  obtain ⟨skipped, key', hentries, hskipped⟩ := hpops.entries
  rw [← hf]
  rcases List.mem_append.1 (hentries.mem_iff.1 hx) with hskip | hmem
  · exact absurd hid.symm (hskipped x hskip e (by rw [hstate, hentry]))
  rcases List.mem_cons.1 hmem with rfl | hmem
  · have hsame : key.priority = key'.priority :=
      Except.ok.inj (hvalue.symm.trans (h.waiting _ hx).2)
    have hcmp : Std.ReflCmp (Scalar.rank : κ → κ → Ordering) := inferInstance
    rw [hsame, hcmp.compare_self]
    rfl
  · exact hleast x hmem

variable [LawfulBEq σ]

theorem Sound.opened_eq_none (h : Sound P eval s)
    (hempty : s.opened.isEmpty = true ∨ s.next? = none) (state : σ) : s.opened[state]? = none := by
  rcases hempty with hempty | hnone
  · exact Std.HashMap.getElem?_of_isEmpty hempty
  · cases hentry : s.opened[state]? with
    | none => rfl
    | some e =>
      obtain ⟨x, hx, hid, hstate, -⟩ := h.opened state e hentry
      have hsize : s.frontier.waiting.entries.length ≤ s.frontier.size κ := h.counted.ge
      have hstale := stale_of_popLive?_none hsize hnone x hx
      exact absurd hid.symm (hstale e (by rw [hstate, hentry]))

theorem Sound.close (h : Sound P eval s) (hnext : s.next? = some (here, f, rest))
    (hgoal : P.isGoal here.node.state = false)
    (hexpands : SearchTree.Expands P s.run.tree here run.tree kids) :
    Sound P eval (s.close here rest run) := by
  have hpops := pops_of_next? hnext
  obtain ⟨skipped, key, hentries, hskipped⟩ := hpops.entries
  obtain ⟨hheld, -, -⟩ := h.next hnext
  constructor
  case grown => exact h.grown.expands hheld hexpands
  case counted => exact hpops.counted h.counted
  case waiting =>
    intro x hx
    have hmem : x ∈ s.frontier.waiting.entries :=
      hentries.mem_iff.2 (List.mem_append_right _ (List.mem_cons_of_mem _ hx))
    obtain ⟨hxheld, hxvalue⟩ := h.waiting x hmem
    exact ⟨hxheld.keeps hexpands.keeps, hxvalue⟩
  case opened =>
    intro state e he
    have he' : (s.opened.erase here.node.state)[state]? = some e := he
    rw [Std.HashMap.getElem?_erase] at he'
    split at he'
    · contradiction
    next hne =>
    obtain ⟨x, hx, hid, hstate, hf⟩ := h.opened state e he'
    refine ⟨x, ?_, hid, hstate, hf⟩
    rcases List.mem_append.1 (hentries.mem_iff.1 hx) with hskip | hmem
    · exact absurd hid.symm (hskipped x hskip e (by rw [hstate, he']))
    rcases List.mem_cons.1 hmem with rfl | hmem
    · exact absurd (beq_iff_eq.2 hstate) hne
    · exact hmem
  case closed =>
    intro state g hg
    have hg' : (s.closed.insert here.node.state here.node.cost)[state]? = some g := hg
    rw [Std.HashMap.getElem?_insert] at hg'
    split at hg'
    next hstate =>
      obtain rfl := eq_of_beq hstate
      obtain rfl := Option.some.inj hg'
      refine ⟨hgoal, here, hheld.keeps hexpands.keeps, rfl, rfl, ?_⟩
      intro a ha
      obtain ⟨kid, hkid, hnode⟩ := hexpands.exists_kid ha
      exact ⟨kid, hexpands.holds kid hkid, hnode⟩
    next =>
      obtain ⟨hnot, n, hn, hstate, hcost, hkids⟩ := h.closed state g hg'
      refine ⟨hnot, n, hn.keeps hexpands.keeps, hstate, hcost, ?_⟩
      intro a ha
      obtain ⟨kid, hkid, hnode⟩ := hkids a ha
      exact ⟨kid, hkid.keeps hexpands.keeps, hnode⟩
  case apart =>
    intro state g hg
    have hg' : (s.closed.insert here.node.state here.node.cost)[state]? = some g := hg
    show (s.opened.erase here.node.state)[state]? = none
    rw [Std.HashMap.getElem?_insert] at hg'
    rw [Std.HashMap.getElem?_erase]
    split
    · rfl
    next hne =>
      rw [if_neg hne] at hg'
      exact h.apart state g hg'

theorem Turn.closes (ht : Turn P eval reopening policy s here f rest run kids s')
    (h : Sound P eval s) : Sound P eval (s.close here rest run) ∧
      Offers eval reopening policy (s.close here rest run) kids s' := by
  have hclose := h.close ht.next ht.notGoal ht.expands
  exact ⟨hclose, hclose.offers ht.expands.holds ht.offers⟩

theorem Sound.turn (h : Sound P eval s)
    (ht : Turn P eval reopening policy s here f rest run kids s') : Sound P eval s' := by
  obtain ⟨hclose, hoffers⟩ := ht.closes h
  exact hoffers.sound hclose ht.expands.holds

theorem Turn.ordered [OrderedScalar κ]
    (ht : Turn P eval reopening policy s here f rest run kids s') (h : Sound P eval s)
    (ho : s.frontier.waiting.Ordered) : s'.frontier.waiting.Ordered :=
  (ht.closes h).2.ordered ((pops_of_next? ht.next).least ho).1

omit [LawfulBEq σ] in
/-- What waits after a turn waited before, with a value no less than the one that was taken, or is a
child. -/
theorem Turn.entries [OrderedScalar κ]
    (ht : Turn P eval reopening policy s here f rest run kids s') (h : Sound P eval s)
    (ho : s.frontier.waiting.Ordered) : ∀ x ∈ s'.frontier.waiting.entries,
      x ∈ s.frontier.waiting.entries ∧ (Scalar.rank f x.key.priority).isLE ∨ x.item ∈ kids := by
  intro x hx
  have hoffered := entries_offerAll eval reopening policy (s.close here rest run) kids
  rw [ht.offers] at hoffered
  refine (hoffered x hx).imp (fun hrest => ?_) And.left
  have hpops := pops_of_next? ht.next
  obtain ⟨-, key, hkey, hleast⟩ := hpops.least ho
  obtain ⟨skipped, _, hentries, -⟩ := hpops.entries
  obtain rfl : f = key.priority :=
    Except.ok.inj ((h.next ht.next).2.1.symm.trans (h.waiting _ hkey).2)
  exact ⟨hentries.mem_iff.2 (List.mem_append_right _ (List.mem_cons_of_mem _ hrest)),
    hleast x hrest⟩

theorem sound_fresh {run : Run σ α κ} (h : run.tree.Grown P) : Sound P eval (fresh run) where
  grown := h
  counted := Ranked.counted_empty
  waiting x hx := by cases hx
  opened state e he := by simp [fresh] at he
  closed state g hg := by simp [fresh] at hg
  apart state g hg := by simp [fresh]

theorem sound_start (P : Problem σ α κ) (policy : TimedPolicy)
    (heval : eval (SearchTree.rootNode P.initial) = .ok f) :
    Sound P eval ((fresh (Run.start P policy).1).enter (Run.start P policy).2 f) :=
  (sound_fresh SearchTree.grown_root).enter (Run.holds_start P policy) heval
    Std.HashMap.getElem?_emptyWithCapacity

/-- What holds at first and is kept by every turn of a search in order holds when the search ends,
unless the root already shows a violation. -/
theorem bestFirst_ends {I : BestFirst σ α κ → Prop} (algorithm : String)
    (start : ∀ f, eval (SearchTree.rootNode P.initial) = .ok f →
      I ((fresh (Run.start P policy).1).enter (Run.start P policy).2 f))
    (keep : ∀ {s here f rest run kids s'}, Sound P eval s → I s →
      Turn P eval reopening policy s here f rest run kids s' → I s') :
    (∃ violation, eval (SearchTree.rootNode P.initial) = .error violation ∧
        bestFirst P eval reopening policy algorithm =
          (Run.start P policy).1.finish algorithm (.contractViolation violation)) ∨
      ∃ s, Sound P eval s ∧ I s ∧
        Ends P eval reopening policy s algorithm (bestFirst P eval reopening policy algorithm) := by
  rcases bestFirst_ends_of_turns (I := fun s => Sound P eval s ∧ I s) algorithm
    (fun f heval => ⟨sound_start P policy heval, start f heval⟩)
    (fun hs ht => ⟨hs.1.turn ht, keep hs.1 hs.2 ht⟩) with hviolation | ⟨s, ⟨hsound, hI⟩, hends⟩
  · exact .inl hviolation
  · exact .inr ⟨s, hsound, hI, hends⟩

/-! ## Searches that reach a goal -/

/-- The goal that is reached within a number of turns by taking live nodes alone, and the run until
then. -/
def reach? (P : Problem σ α κ) (eval : Evaluation σ α κ) (reopening : Reopening)
    (policy : TimedPolicy) : (turns : Nat) → BestFirst σ α κ → Option (Placed σ α κ × Run σ α κ)
  | 0, _ => none
  | turns + 1, s =>
    match s.next? with
    | none => none
    | some (here, f, rest) =>
      if P.isGoal here.node.state then some (here, s.noted)
      else match s.noted.expand P here f with
      | (_, .error _) => none
      | (run, .ok kids) =>
        match offerAll eval reopening policy (s.close here rest run) kids with
        | (_, some _) => none
        | (s', none) => reach? P eval reopening policy turns s'

/-- A search that reaches a goal within its budget ends there: its test for open states never stops
it before. -/
theorem loop_of_reach? (algorithm : String) (htime : ∀ n, policy.timeIsUp n = false)
    {turns left : Nat} (hleft : turns ≤ left)
    (h : reach? P eval reopening policy turns s = some (here, run)) :
    loop P eval reopening policy algorithm left s = run.finish algorithm (.goalReached here.id) := by
  induction turns generalizing s left with
  | zero => cases h
  | succ turns ih =>
    obtain ⟨left, rfl⟩ := Nat.exists_eq_add_of_le' (Nat.le_trans (Nat.le_add_left 1 turns) hleft)
    unfold reach? at h
    split at h
    · cases h
    next here' f rest hnext =>
    have hopen : s.opened.isEmpty = false := isEmpty_eq_false_of_entry (pops_of_next? hnext).entry
    have hnext' : popLive? s.opened (s.frontier.size κ) s.frontier = some (here', f, rest) := hnext
    unfold loop
    simp only [hopen, htime, hnext', Bool.false_eq_true, if_false]
    split at h
    next hgoal =>
      cases h
      rw [if_pos hgoal]
      rfl
    next hgoal =>
      rw [if_neg hgoal]
      split at h
      · cases h
      next run' kids hexpand =>
      have hexpand' : (s.run.noteHighWater s.frontier.highWater).expand P here' f =
          (run', .ok kids) := hexpand
      rw [hexpand']
      dsimp only
      split at h
      · cases h
      next s' hoffers =>
      have hoffers' : offerAll eval reopening policy ⟨run', rest, s.opened.erase here'.node.state,
          s.closed.insert here'.node.state here'.node.cost⟩ kids = (s', none) := hoffers
      rw [hoffers']
      exact ih (Nat.le_of_succ_le_succ hleft) h

theorem bestFirst_of_reach? (algorithm : String) (turns : Nat)
    (heval : eval (SearchTree.rootNode P.initial) = .ok f)
    (htime : ∀ n, policy.timeIsUp n = false) (hturns : turns ≤ policy.maxExpansions)
    (h : reach? P eval reopening policy turns
      ((fresh (Run.start P policy).1).enter (Run.start P policy).2 f) = some (here, run)) :
    bestFirst P eval reopening policy algorithm =
      run.finish algorithm (.goalReached here.id) := by
  rw [bestFirst_eq_loop algorithm heval]
  exact loop_of_reach? algorithm htime hturns h

end BestFirst

end ProblemSolving
