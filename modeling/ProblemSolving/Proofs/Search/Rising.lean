import ProblemSolving.Proofs.Search.Coverage
import ProblemSolving.Proofs.Search.Iteration
import ProblemSolving.Proofs.Search.Once
import ProblemSolving.Proofs.StateSpace.Lineage

/-!
# Values that never fall

If no child is worth less than its parent, then what waits is worth at least as much as all that was
chosen, and a child of a closed state comes too late to be cheaper.

* `SearchTree.Climbs`, `SearchTree.Ranks` : how values are to grow along a way and at one state.
* `SearchTree.ClimbsThroughout` : so they do in every tree that comes before.
* `BestFirst.Rising` : nothing that waits is worth less than what was chosen or closed;
  `BestFirst.Rising.turn` : every turn keeps it so.
* `BestFirst.Rising.not_cheaper` : no child of the node that is taken reopens a state.
* `bestFirst_never` : it makes no difference whether states may be reopened.
* `bestFirst_once_of_climbs` : no state is expanded twice.
* `bestFirst_ascends` : the values of the expansions never fall.
-/

namespace ProblemSolving

variable {σ α κ : Type} [Scalar κ]

/-- The values of the tree are numbers, and no child is worth less than its parent. -/
structure SearchTree.Climbs (P : Problem σ α κ) (eval : Evaluation σ α κ) (t : SearchTree σ α κ) :
    Prop where
  number : ∀ {n : Placed σ α κ} {f : κ}, t.Holds n → eval n.node = .ok f → Scalar.isNaN f = false
  rises : ∀ {parent kid : Placed σ α κ} {a : α} {f f' : κ}, t.Holds parent → t.Holds kid →
    a ∈ P.actions parent.node.state → kid.node = child P parent a → eval parent.node = .ok f →
    eval kid.node = .ok f' → Scalar.le f f' = true

/-- Among the nodes of one state a greater value does not go with a lesser cost. -/
def SearchTree.Ranks (eval : Evaluation σ α κ) (t : SearchTree σ α κ) : Prop :=
  ∀ ⦃m n : Placed σ α κ⦄ ⦃f f' : κ⦄, t.Holds m → t.Holds n → m.node.state = n.node.state →
    eval m.node = .ok f → eval n.node = .ok f' → Scalar.le f f' = true →
    Scalar.lt n.node.cost m.node.cost = false

namespace SearchTree

variable {P : Problem σ α κ} {eval eval' : Evaluation σ α κ} {t t' : SearchTree σ α κ}

theorem Climbs.congr (h : t.Climbs P eval) (same : ∀ n, t.Holds n → eval' n.node = eval n.node) :
    t.Climbs P eval' where
  number hn hf := h.number hn ((same _ hn).symm.trans hf)
  rises hp hn ha hkid hf hf' :=
    h.rises hp hn ha hkid ((same _ hp).symm.trans hf) ((same _ hn).symm.trans hf')

theorem Ranks.congr (h : t.Ranks eval) (same : ∀ n, t.Holds n → eval' n.node = eval n.node) :
    t.Ranks eval' :=
  fun _ _ _ _ hm hn hstate hf hf' =>
    h hm hn hstate ((same _ hm).symm.trans hf) ((same _ hn).symm.trans hf')

/-- So it is in every tree that a search may have grown on the way to this one. -/
def ClimbsThroughout (P : Problem σ α κ) (eval : Evaluation σ α κ) (t : SearchTree σ α κ) : Prop :=
  ∀ t' : SearchTree σ α κ, t'.Keeps t → t'.Grown P → t'.Fair → t'.Climbs P eval ∧ t'.Ranks eval

theorem Climbs.le_kid {parent kid : Placed σ α κ} {kids : List (Placed σ α κ)} {f f' : κ}
    (h : t'.Climbs P eval) (hexpands : Expands P t parent t' kids) (hparent : t.Holds parent)
    (hkid : kid ∈ kids) (hf : eval parent.node = .ok f) (hf' : eval kid.node = .ok f') :
    Scalar.le f f' = true := by
  obtain ⟨a, ha, hchild⟩ := hexpands.exists_action hkid
  exact h.rises (hparent.keeps hexpands.keeps) (hexpands.holds kid hkid) ha hchild.symm hf hf'

end SearchTree

namespace BestFirst

open OrderedScalar

variable [BEq σ] [Hashable σ]

/-- The frontier is in order, and nothing that waits is worth less than a node that was chosen, or
than the node with which a state was closed. -/
structure Rising (eval : Evaluation σ α κ) (s : BestFirst σ α κ) : Prop where
  ordered : s.frontier.waiting.Ordered
  closed : ∀ (state : σ) (g : κ), s.closed[state]? = some g →
    ∃ n f, s.run.tree.Holds n ∧ n.node.state = state ∧ n.node.cost = g ∧ eval n.node = .ok f ∧
      ∀ x ∈ s.frontier.waiting.entries, Scalar.le f x.key.priority = true
  chosen : ∀ f ∈ s.run.chosen, ∀ x ∈ s.frontier.waiting.entries,
    Scalar.le f x.key.priority = true
  ascending : s.run.chosen.Pairwise fun f g => Scalar.le f g = true

variable {P : Problem σ α κ} {eval eval' : Evaluation σ α κ} {reopening : Reopening}
  {policy : TimedPolicy} {s s' : BestFirst σ α κ} {here : Placed σ α κ} {f : κ}
  {rest : Frontier (Ranked κ) (Placed σ α κ)} {run : Run σ α κ} {kids : List (Placed σ α κ)}

theorem rising_start [OrderedScalar κ] (P : Problem σ α κ) (policy : TimedPolicy) (f : κ) :
    Rising eval ((fresh (Run.start P policy).1).enter (Run.start P policy).2 f) := by
  have hnone : ((fresh (Run.start P policy).1).enter (Run.start P policy).2 f).run.chosen = [] :=
    Run.chosen_start P policy
  constructor
  case ordered => exact Ranked.ordered_empty.add _ _
  case closed =>
    intro state g hg
    have hempty : (Std.HashMap.emptyWithCapacity : Std.HashMap σ κ)[state]? = some g := hg
    simp at hempty
  case chosen => simp [hnone]
  case ascending => simp [hnone]

theorem Sound.exists_key (h : Sound P eval s) (hnext : s.next? = some (here, f, rest)) :
    ∃ x ∈ s.frontier.waiting.entries, x.key.priority = f := by
  obtain ⟨skipped, key, hentries, -⟩ := (pops_of_next? hnext).entries
  have hmem : ⟨key, here⟩ ∈ s.frontier.waiting.entries := hentries.mem_iff.2 (by simp)
  have hvalue := (h.waiting _ hmem).2.symm.trans (h.next hnext).2.1
  exact ⟨_, hmem, Except.ok.inj hvalue⟩

theorem Rising.chosen_le (hr : Rising eval s) (h : Sound P eval s)
    (hnext : s.next? = some (here, f, rest)) : ∀ g ∈ s.run.chosen, Scalar.le g f = true := by
  obtain ⟨x, hx, rfl⟩ := h.exists_key hnext
  exact fun g hg => hr.chosen g hg x hx

variable [OrderedScalar κ] [LawfulBEq σ]

/-- Every state that is closed when the node is taken was closed with a node of no greater value. -/
theorem Rising.closed_le (hr : Rising eval s) (h : Sound P eval s)
    (hnext : s.next? = some (here, f, rest)) (number : Scalar.isNaN f = false) {state : σ} {g : κ}
    (hg : (s.close here rest run).closed[state]? = some g) :
    ∃ n f', s.run.tree.Holds n ∧ n.node.state = state ∧ n.node.cost = g ∧
      eval n.node = .ok f' ∧ Scalar.le f' f = true := by
  have hg' : (s.closed.insert here.node.state here.node.cost)[state]? = some g := hg
  rw [Std.HashMap.getElem?_insert] at hg'
  split at hg'
  next hstate =>
    obtain ⟨hheld, hvalue, -⟩ := h.next hnext
    exact ⟨here, f, hheld, eq_of_beq hstate, Option.some.inj hg', hvalue, le_refl number⟩
  next =>
    obtain ⟨n, f', hn, hstate, hcost, hvalue, hbelow⟩ := hr.closed state g hg'
    obtain ⟨x, hx, rfl⟩ := h.exists_key hnext
    exact ⟨n, f', hn, hstate, hcost, hvalue, hbelow x hx⟩

/-- Nothing that waits after a turn is worth less than the node that was taken. -/
theorem Turn.le_waiting (ht : Turn P eval reopening policy s here f rest run kids s')
    (h : Sound P eval s) (ho : s.frontier.waiting.Ordered) (climbs : s'.run.tree.Climbs P eval) :
    ∀ x ∈ s'.frontier.waiting.entries, Scalar.le f x.key.priority = true := by
  intro x hx
  obtain ⟨hheld, hvalue, -⟩ := h.next ht.next
  obtain ⟨hxheld, hxvalue⟩ := (h.turn ht).waiting x hx
  rcases ht.entries h ho x hx with ⟨-, hrank⟩ | hkid
  · exact le_of_rank (climbs.number (hheld.keeps ht.keeps) hvalue) (climbs.number hxheld hxvalue)
      hrank
  · rw [(ht.closes h).2.tree] at climbs
    exact climbs.le_kid ht.expands hheld hkid hvalue hxvalue

theorem Rising.turn (hr : Rising eval s) (h : Sound P eval s)
    (ht : Turn P eval reopening policy s here f rest run kids s')
    (climbs : s'.run.tree.Climbs P eval) : Rising eval s' := by
  obtain ⟨hheld, hvalue, -⟩ := h.next ht.next
  have hnumber := climbs.number (hheld.keeps ht.keeps) hvalue
  have hwaiting := ht.le_waiting h hr.ordered climbs
  obtain ⟨hascending, hmem⟩ :=
    Run.chosen_expand ht.expand hr.ascending (hr.chosen_le h ht.next)
  have hoffers := (ht.closes h).2
  have hrun : s'.run.chosen = run.chosen := by
    unfold Run.chosen
    rw [hoffers.log]
    rfl
  constructor
  case ordered => exact ht.ordered h hr.ordered
  case closed =>
    intro state g hg
    obtain ⟨n, f', hn, hstate, hcost, hvalue', hle⟩ :=
      hr.closed_le h ht.next hnumber (hoffers.closed_mono hg)
    exact ⟨n, f', hn.keeps ht.keeps, hstate, hcost, hvalue',
      fun x hx => le_trans hle (hwaiting x hx)⟩
  case chosen =>
    intro g hg x hx
    rw [hrun] at hg
    rcases hmem g hg with hold | rfl
    · exact le_trans (hr.chosen_le h ht.next g hold) (hwaiting x hx)
    · exact hwaiting x hx
  case ascending =>
    rw [hrun]
    exact hascending

/-- No child is cheaper than the node with which its state was closed. -/
theorem Rising.not_cheaper (hr : Rising eval s) (h : Sound P eval s)
    (hnext : s.next? = some (here, f, rest))
    (hexpands : SearchTree.Expands P s.run.tree here run.tree kids)
    (climbs : run.tree.Climbs P eval) (ranks : run.tree.Ranks eval) {kid : Placed σ α κ}
    (hkid : kid ∈ kids) {f' g : κ} (hf' : eval kid.node = .ok f')
    (hg : (s.close here rest run).closed[kid.node.state]? = some g) :
    Scalar.lt kid.node.cost g = false := by
  obtain ⟨hheld, hvalue, -⟩ := h.next hnext
  have hnumber := climbs.number (hheld.keeps hexpands.keeps) hvalue
  obtain ⟨n, f₀, hn, hstate, rfl, hvalue₀, hle⟩ := hr.closed_le h hnext hnumber hg
  have hrises := climbs.le_kid hexpands hheld hkid hvalue hf'
  exact ranks (hn.keeps hexpands.keeps) (hexpands.holds kid hkid) hstate hvalue₀ hf'
    (le_trans hle hrises)

/-! ## Searches that need not reopen -/

section
variable {child : Placed σ α κ}

omit [OrderedScalar κ] [LawfulBEq σ]

theorem offer_eq_never
    (h : ∀ g, s.closed[child.node.state]? = some g → Scalar.lt child.node.cost g = false) (f : κ) :
    s.offer .onCheaperPath child f = s.offer .never child f := by
  unfold BestFirst.offer
  rw [Std.HashMap.get?_eq_getElem?]
  cases hclosed : s.closed[child.node.state]? with
  | none => rfl
  | some g => simp [h g hclosed]

/-- Children that have the same values and are not cheaper than what was closed are offered
alike. -/
theorem offerAll_eq_never (same : ∀ kid ∈ kids, eval kid.node = eval' kid.node)
    (h : ∀ kid ∈ kids, ∀ f g, eval kid.node = .ok f → s.closed[kid.node.state]? = some g →
      Scalar.lt kid.node.cost g = false) :
    offerAll eval .onCheaperPath policy s kids = offerAll eval' .never policy s kids := by
  induction kids generalizing s with
  | nil => rfl
  | cons kid rest ih =>
    have hrest := fun n hn => same n (List.mem_cons_of_mem kid hn)
    have hkid := h kid (List.mem_cons_self ..)
    have hlater := fun n hn => h n (List.mem_cons_of_mem kid hn)
    rw [offerAll, offerAll, ← same kid (List.mem_cons_self ..)]
    split
    · exact ih hrest hlater
    split
    · rfl
    next f hvalue =>
      rw [offer_eq_never (fun g hg => hkid f g hvalue hg) f]
      refine ih hrest ?_
      rw [closed_offer_never]
      exact hlater

theorem advance_related {reopening' : Reopening}
    (same : policy.timeIsUp s.noted.stats.expansions = false → ∀ {here f rest run kids},
      s.next? = some (here, f, rest) → P.isGoal here.node.state = false →
      s.noted.expand P here f = (run, .ok kids) →
      offerAll eval reopening policy (s.close here rest run) kids =
        offerAll eval' reopening' policy (s.close here rest run) kids)
    (algorithm algorithm' : String) :
    Sum.LiftRel Result.Agree Eq
      ((iteration P eval reopening policy algorithm).advance s)
      ((iteration P eval' reopening' policy algorithm').advance s) := by
  dsimp only [iteration]
  split
  · exact .inl (Run.agree_finish ..)
  next htime =>
  cases hnext : s.next? with
  | none => exact .inl (Run.agree_finish ..)
  | some taken =>
  obtain ⟨here, f, rest⟩ := taken
  dsimp only
  split
  · exact .inl (Run.agree_finish ..)
  next hgoal =>
  cases hexpand : s.noted.expand P here f with
  | mk run outcome =>
  cases outcome with
  | error violation => exact .inl (Run.agree_finish ..)
  | ok kids =>
  dsimp only
  rw [same (eq_false_of_ne_true htime) hnext (eq_false_of_ne_true hgoal) hexpand]
  split
  · exact .inl (Run.agree_finish ..)
  · exact .inr rfl

theorem keeps_run_of_expand {algorithm : String}
    (hended : (iteration P eval reopening policy algorithm).ended? s = none)
    (htime : policy.timeIsUp s.noted.stats.expansions = false)
    (hnext : s.next? = some (here, f, rest))
    (hgoal : P.isGoal here.node.state = false) (hexpand : s.noted.expand P here f = (run, .ok kids))
    (left : Nat) :
    run.tree.Keeps ((iteration P eval reopening policy algorithm).run (left + 1) s).tree := by
  have htree := tree_offerAll eval reopening policy (s.close here rest run) kids
  cases hoffers : offerAll eval reopening policy (s.close here rest run) kids with
  | mk s' outcome =>
  have hadvance : (iteration P eval reopening policy algorithm).advance s =
      match outcome with
      | some violation => .inl (s'.run.finish algorithm (.contractViolation violation))
      | none => .inr s' := by
    simp only [iteration, htime, hnext, hgoal, hexpand, hoffers, Bool.false_eq_true, if_false]
    cases outcome <;> rfl
  rw [hoffers] at htree
  have hkeeps : run.tree.Keeps s'.run.tree := by
    rw [htree]
    exact .refl _
  cases outcome with
  | some violation =>
    rw [Iteration.run_of_inl hended hadvance]
    exact hkeeps
  | none =>
    rw [Iteration.run_of_inr hended hadvance, ← loop_eq_run]
    exact hkeeps.trans (keeps_loop algorithm left s')

end

/-- A search that may reopen states, with rounds left, on its way to an outcome. The outcome is
carried along because it is its tree that climbs. -/
structure Underway (P : Problem σ α κ) (eval : Evaluation σ α κ) (policy : TimedPolicy)
    (algorithm : String) (r : Result σ α κ) (left : Nat) (s : BestFirst σ α κ) : Prop where
  sound : Sound P eval s
  fair : s.run.tree.Fair
  rising : Rising eval s
  outcome : (iteration P eval .onCheaperPath policy algorithm).run left s = r

section
variable {r : Result σ α κ} {left : Nat} {algorithm : String}

theorem Underway.turn (climbs : r.tree.ClimbsThroughout P eval)
    (h : Underway P eval policy algorithm r (left + 1) s)
    (hended : (iteration P eval .onCheaperPath policy algorithm).ended? s = none)
    (hadvance : (iteration P eval .onCheaperPath policy algorithm).advance s = .inr s') :
    Underway P eval policy algorithm r left s' := by
  obtain ⟨here, f, rest, run, kids, ht⟩ := turn_of_inr hadvance
  have hsound := h.sound.turn ht
  have houtcome : (iteration P eval .onCheaperPath policy algorithm).run left s' = r :=
    (Iteration.run_of_inr hended hadvance left).symm.trans h.outcome
  have hfair : s'.run.tree.Fair := by
    rw [(ht.closes h.sound).2.tree]
    exact h.fair.expands (h.sound.next ht.next).1 ht.expands
  have hkeeps : s'.run.tree.Keeps r.tree := by
    rw [← houtcome, ← loop_eq_run]
    exact keeps_loop algorithm left s'
  exact ⟨hsound, hfair, h.rising.turn h.sound ht (climbs _ hkeeps hsound.grown hfair).1, houtcome⟩

theorem Underway.offers
    (same : ∀ node : Node σ α κ, P.Attained node.state node.cost → eval node = eval' node)
    (climbs : r.tree.ClimbsThroughout P eval)
    (h : Underway P eval policy algorithm r (left + 1) s)
    (hended : (iteration P eval .onCheaperPath policy algorithm).ended? s = none)
    (htime : policy.timeIsUp s.noted.stats.expansions = false)
    (hnext : s.next? = some (here, f, rest))
    (hgoal : P.isGoal here.node.state = false)
    (hexpand : s.noted.expand P here f = (run, .ok kids)) :
    offerAll eval .onCheaperPath policy (s.close here rest run) kids =
      offerAll eval' .never policy (s.close here rest run) kids := by
  -- the children stand in the tree of the outcome, which climbs, so none of them reopens a state
  obtain ⟨hexpands, -⟩ := Run.expand_ok hexpand
  obtain ⟨hheld, -, -⟩ := h.sound.next hnext
  have hgrown := h.sound.grown.expands hheld hexpands
  have hkeeps := keeps_run_of_expand hended htime hnext hgoal hexpand left
  rw [h.outcome] at hkeeps
  obtain ⟨hclimbs, hranks⟩ := climbs _ hkeeps hgrown (h.fair.expands hheld hexpands)
  refine offerAll_eq_never ?_ ?_
  · exact fun kid hkid => same kid.node (hgrown.attained (hexpands.holds kid hkid))
  · exact fun kid hkid f' g hf' hg =>
      h.rising.not_cheaper h.sound hnext hexpands hclimbs hranks hkid hf' hg

end

theorem underway_start (P : Problem σ α κ) (eval : Evaluation σ α κ) (policy : TimedPolicy)
    (algorithm : String) {f : κ} (heval : eval (SearchTree.rootNode P.initial) = .ok f) :
    Underway P eval policy algorithm (bestFirst P eval .onCheaperPath policy algorithm)
      policy.maxExpansions ((fresh (Run.start P policy).1).enter (Run.start P policy).2 f) where
  sound := sound_start P policy heval
  fair := SearchTree.fair_root
  rising := rising_start P policy f
  outcome := (bestFirst_eq_run algorithm heval policy.maxExpansions).symm

end BestFirst

/-- Where values climb, it makes no difference whether states may be reopened. -/
theorem bestFirst_never [OrderedScalar κ] [BEq σ] [Hashable σ] [LawfulBEq σ] (P : Problem σ α κ)
    {eval eval' : Evaluation σ α κ} (policy : TimedPolicy) (algorithm algorithm' : String)
    (same : ∀ node : Node σ α κ, P.Attained node.state node.cost → eval node = eval' node)
    (climbs :
      (bestFirst P eval .onCheaperPath policy algorithm).tree.ClimbsThroughout P eval) :
    (bestFirst P eval .onCheaperPath policy algorithm).Agree
      (bestFirst P eval' .never policy algorithm') := by
  have hroot := same (SearchTree.rootNode P.initial) Problem.attained_initial
  cases heval : eval (SearchTree.rootNode P.initial) with
  | error violation =>
    rw [BestFirst.bestFirst_of_error algorithm heval,
      BestFirst.bestFirst_of_error algorithm' (hroot.symm.trans heval)]
    exact Run.agree_finish ..
  | ok f =>
    have hrun := BestFirst.underway_start P eval policy algorithm heval
    have hrun' : bestFirst P eval' .never policy algorithm' =
        (BestFirst.iteration P eval' .never policy algorithm').run policy.maxExpansions _ :=
      BestFirst.bestFirst_eq_run algorithm' (hroot.symm.trans heval) policy.maxExpansions
    rw [hrun', ← hrun.outcome]
    refine Iteration.run_related (fun left s t =>
      s = t ∧ BestFirst.Underway P eval policy algorithm _ left s) ?_ ?_ ?_ _ ⟨rfl, hrun⟩
    · rintro left s _ ⟨rfl, -⟩
      dsimp only [BestFirst.iteration]
      split
      · exact .some (Run.agree_finish ..)
      · exact .none
    · rintro s _ ⟨rfl, -⟩
      exact Run.agree_finish ..
    · rintro left s _ ⟨rfl, h⟩ hended
      have hrelated := BestFirst.advance_related
        (fun htime => h.offers same climbs hended htime) algorithm algorithm'
      generalize hs : (BestFirst.iteration P eval .onCheaperPath policy algorithm).advance s = x,
        (BestFirst.iteration P eval' .never policy algorithm').advance s = y at hrelated ⊢
      cases hrelated with
      | inl hagree => exact .inl hagree
      | inr heq =>
        subst heq
        exact .inr ⟨rfl, h.turn climbs hended hs⟩

/-- Where values climb, no state is reopened and none is expanded twice. -/
theorem bestFirst_once_of_climbs [OrderedScalar κ] [BEq σ] [Hashable σ] [LawfulBEq σ]
    {P : Problem σ α κ} {eval : Evaluation σ α κ} {policy : TimedPolicy} {algorithm : String}
    (climbs :
      (bestFirst P eval .onCheaperPath policy algorithm).tree.ClimbsThroughout P eval) :
    let r := bestFirst P eval .onCheaperPath policy algorithm
    r.stats.reopened = 0 ∧ ∃ states, states.Nodup ∧ r.progress.Visits r.tree states := by
  intro r
  have hagree : r.Agree (bestFirst P eval .never policy algorithm) :=
    bestFirst_never P policy algorithm algorithm (fun _ _ => rfl) climbs
  have honce := bestFirst_once P eval policy algorithm
  dsimp only at honce
  rw [← hagree.stats, ← hagree.tree, ← hagree.progress] at honce
  exact honce

/-- Where values climb, the values of the expansions do. -/
theorem bestFirst_ascends [OrderedScalar κ] [BEq σ] [Hashable σ] [LawfulBEq σ]
    {P : Problem σ α κ} {eval : Evaluation σ α κ} {reopening : Reopening} {policy : TimedPolicy}
    {algorithm : String}
    (climbs : ∀ t : SearchTree σ α κ,
      t.Keeps (bestFirst P eval reopening policy algorithm).tree → t.Grown P → t.Climbs P eval)
    {trace : Trace κ} (htrace : (bestFirst P eval reopening policy algorithm).trace = some trace) :
    (trace.events.map (·.f)).Pairwise fun f g => Scalar.le f g = true := by
  let r := bestFirst P eval reopening policy algorithm
  have hkeep : ∀ {s here f rest run kids s'}, BestFirst.Sound P eval s →
      (s.run.tree.Keeps r.tree → BestFirst.Rising eval s) →
      BestFirst.Turn P eval reopening policy s here f rest run kids s' →
      s'.run.tree.Keeps r.tree → BestFirst.Rising eval s' := by
    intro s here f rest run kids s' h hr ht hkeeps
    exact (hr (ht.keeps.trans hkeeps)).turn h ht (climbs _ hkeeps (h.turn ht).grown)
  rcases BestFirst.bestFirst_ends algorithm
    (fun f _ _ => BestFirst.rising_start P policy f) hkeep with
    ⟨violation, -, hviolation⟩ | ⟨s, h, hr, hends⟩
  · rw [hviolation] at htrace
    rw [Run.map_f_events htrace, Run.chosen_start]
    exact .nil
  · have hrising := hr hends.keeps
    rcases hends.chosen htrace with hchosen | ⟨here, f, rest, run, kids, hnext, hexpand, hchosen⟩
    · rw [hchosen]
      exact hrising.ascending
    · rw [hchosen]
      exact (Run.chosen_expand hexpand hrising.ascending (hrising.chosen_le h hnext)).1

end ProblemSolving
