import Mathlib
import ProblemSolving.Proofs.Search.Consistency
import ProblemSolving.Proofs.Search.UnitCost

/-!
# A* over unit steps

If every action costs one, and the estimate is a whole number that no action lowers by more than
one, then A* expands no state twice. So its tree stays small in a small space, and in a small tree
no sum is rounded, which in turn is why no state is expanded twice: both are kept together.

* `Problem.Paced` : such an estimate; `Problem.Paced.le_length` : no way to a goal is shorter.
* `Problem.Compact` : a space that is small enough.
* `SearchTree.Counts` : a tree in which no cost and no value is rounded.
* `SearchTree.Frugal` : a tree that is small because different states were expanded.
* `BestFirst.Straight`, `BestFirst.Straight.turn` : the invariant of the search.
* `astarSearch_shortest` : no state is reopened, and the solutions are shortest, though the policy
  may cut the search at any depth.
-/

namespace ProblemSolving

open Scalar (count)

variable {σ α : Type}

/-- Every action costs one, and the estimate is a whole number that no action lowers by more than
one and that is zero at goals. -/
structure Problem.Paced (P : Problem σ α Double) (h : σ → Nat) : Prop where
  unit : P.pathCost = Problem.unitCost
  heuristic : ∀ node, P.heuristic node = Scalar.ofNat (h node.state)
  step : ∀ s, P.Reachable s → ∀ a ∈ P.actions s, h s ≤ h (P.result s a) + 1
  goal : ∀ s, P.Reachable s → P.isGoal s = true → h s = 0

/-- At most so many states can be reached, none of them has more actions or a greater estimate, and
expanding each of them once comes to small numbers only. -/
structure Problem.Compact (P : Problem σ α Double) (h : σ → Nat) (states most bound : Nat) :
    Prop where
  reachable : ∀ visited : List σ, visited.Nodup → (∀ s ∈ visited, P.Reachable s) →
    visited.length ≤ states
  actions : ∀ s, P.Reachable s → (P.actions s).length ≤ most
  estimate : ∀ s, P.Reachable s → h s ≤ bound
  small : 1 + states * most + bound < 2 ^ 53

variable {P : Problem σ α Double} {h : σ → Nat} {states most bound : Nat}

/-- No way to a goal is shorter than estimated. -/
theorem Problem.Paced.le_length (hp : P.Paced h) {s t : σ} {as : List α} (hs : P.Reachable s)
    (path : P.Path s as t) (ht : P.isGoal t = true) : h s ≤ as.length := by
  induction path with
  | nil s => exact (hp.goal s hs ht).le
  | @cons s t a as legal _ ih =>
    have hstep := hp.step s hs a legal
    have hrest := ih (hs.step legal) ht
    rw [List.length_cons]
    omega

/-! ## Small trees -/

theorem Double.whole_count {n : Nat} (hn : n < 2 ^ 53) : Double.Whole n (count n) := by
  induction n with
  | zero => exact Double.whole_zero
  | succ n ih => exact (ih (by omega)).add (Double.whole_ofNat (n := 1) (by norm_num)) hn

/-- Costs count the actions, and values count those that seem to be left as well. -/
structure SearchTree.Counts (P : Problem σ α Double) (h : σ → Nat) (t : SearchTree σ α Double) :
    Prop where
  cost : ∀ {n}, t.Holds n → Double.Whole n.node.depth n.node.cost
  value : ∀ {n f}, t.Holds n → byTotal P n.node = .ok f →
    Double.Whole (n.node.depth + h n.node.state) f

namespace SearchTree

variable {t t' : SearchTree σ α Double}

theorem Grown.counts (hg : t.Grown P) (hp : P.Paced h)
    (estimate : ∀ s, P.Reachable s → h s ≤ bound) (small : t.size + bound < 2 ^ 53) :
    t.Counts P h := by
  have hdepth : ∀ {n}, t.Holds n → n.node.depth + bound < 2 ^ 53 := by
    intro n hn
    have hle := hg.depth_le hn
    have hlt := get?_lt hn
    omega
  have hcost : ∀ {n}, t.Holds n → Double.Whole n.node.depth n.node.cost := by
    intro n hn
    have hsmall := hdepth hn
    rw [hg.cost_eq_count hp.unit hn]
    exact Double.whole_count (by omega)
  refine ⟨hcost, ?_⟩
  intro n f hn hf
  obtain ⟨rfl, -⟩ := byTotal_ok hf
  have hsmall := hdepth hn
  have hle := estimate _ (hg.reachable hn)
  rw [hp.heuristic]
  exact (hcost hn).add (Double.whole_ofNat (by omega)) (by omega)

theorem Counts.climbs (hc : t.Counts P h) (hg : t.Grown P) (hp : P.Paced h) :
    t.Climbs P (byTotal P) where
  number hn hf := Double.isNaN_of_isFinite (hc.value hn hf).1
  rises {parent kid a f f'} hparent hkid legal hchild hf hf' := by
    have hvalue := hc.value hkid hf'
    have hstep := hp.step _ (hg.reachable hparent) a legal
    rw [hchild] at hvalue
    refine ((hc.value hparent hf).le_iff hvalue).2 ?_
    show _ ≤ parent.node.depth + 1 + h (P.result parent.node.state a)
    omega

theorem Counts.ranks (hc : t.Counts P h) : t.Ranks (byTotal P) := by
  intro m n f f' hm hn hstate hf hf' hle
  have hsum := ((hc.value hm hf).le_iff (hc.value hn hf')).1 hle
  rw [hstate] at hsum
  refine eq_false_of_ne_true fun hlt => ?_
  have hdepth := ((hc.cost hn).lt_iff (hc.cost hm)).1 hlt
  omega

/-- The states are different ones that can be reached, and the tree holds no more than the root and
the children of a node of each of them. -/
structure Frugal (P : Problem σ α Double) (most : Nat) (t : SearchTree σ α Double)
    (visited : List σ) : Prop where
  nodup : visited.Nodup
  reachable : ∀ s ∈ visited, P.Reachable s
  size : t.size ≤ 1 + visited.length * most

section
variable {visited : List σ}

theorem Frugal.length_le (hf : t.Frugal P most visited) (hc : P.Compact h states most bound) :
    visited.length ≤ states :=
  hc.reachable visited hf.nodup hf.reachable

theorem Frugal.size_lt (hf : t.Frugal P most visited) (hc : P.Compact h states most bound) :
    t.size + bound < 2 ^ 53 := by
  have hmost : visited.length * most ≤ states * most := Nat.mul_le_mul_right most (hf.length_le hc)
  have hsmall := hc.small
  have hsize := hf.size
  omega

theorem Frugal.counts (hf : t.Frugal P most visited) (hg : t.Grown P) (hp : P.Paced h)
    (hc : P.Compact h states most bound) : t.Counts P h :=
  hg.counts hp hc.estimate (hf.size_lt hc)

theorem Frugal.expands (hf : t.Frugal P most visited) (hc : P.Compact h states most bound)
    {parent : Placed σ α Double} {kids : List (Placed σ α Double)}
    (hexpands : Expands P t parent t' kids) (hparent : P.Reachable parent.node.state)
    (hnodup : (visited ++ [parent.node.state]).Nodup) :
    t'.Frugal P most (visited ++ [parent.node.state]) where
  nodup := hnodup
  reachable s hs := by
    rcases List.mem_append.1 hs with hold | hnew
    · exact hf.reachable s hold
    · rw [List.mem_singleton.1 hnew]
      exact hparent
  size := by
    have hbefore := hf.size
    have hactions := hc.actions _ hparent
    rw [hexpands.size_eq, List.length_append, List.length_singleton, Nat.succ_mul]
    omega

end

end SearchTree

/-! ## Searches that stay small -/

namespace BestFirst

open Double (Whole)

theorem noMore_iff {x y : Double} {m n : Nat} (hx : Whole m x) (hy : Whole n y) :
    NoMore x y ↔ m ≤ n := by
  show x.value ≤ y.value ↔ m ≤ n
  rw [hx.2, hy.2, Nat.cast_le]

theorem sorts_of_counts {t : SearchTree σ α Double} (hc : t.Counts P h) :
    Sorts (byTotal P) NoMore t := by
  intro m n f f' hm hn hstate hf hf'
  have hle := (hc.value hm hf).le_iff (hc.value hn hf')
  rw [hstate, Nat.add_le_add_iff_right] at hle
  rw [noMore_iff (hc.cost hm) (hc.cost hn), noMore_iff (hc.cost hn) (hc.cost hm), ← hle,
    ← Bool.not_eq_true, hle]
  omega

theorem settles_of_whole {g c : Double} {m n : Nat} (hg : Whole m g) (hc : Whole n c) :
    Settles NoMore .onCheaperPath g c := by
  have hlt := hc.lt_iff hg
  unfold Settles
  rw [noMore_iff hc hg, noMore_iff hg hc]
  simp only [decide_true, Bool.true_and]
  rw [← Bool.not_eq_true, hlt]
  omega

/-- A path of this cost may go on, as far as its depth is concerned. -/
def GoesOn (policy : TimedPolicy) (g : Double) : Prop := g.value < policy.maxDepth

theorem goesOn_iff {policy : TimedPolicy} {x : Double} {n : Nat} (hx : Whole n x) :
    GoesOn policy x ↔ n < policy.maxDepth := by
  unfold GoesOn
  rw [hx.2, Nat.cast_lt]

variable [BEq σ] [Hashable σ] {policy : TimedPolicy} {s s' : BestFirst σ α Double}
  {here : Placed σ α Double} {f : Double} {rest : Frontier (Ranked Double) (Placed σ α Double)}
  {run : Run σ α Double} {kids : List (Placed σ α Double)} {visited : List σ}

/-- No state was expanded twice, so the tree is small, and the search covers every path that the
policy lets it go. -/
structure Straight (P : Problem σ α Double) (most : Nat) (policy : TimedPolicy)
    (s : BestFirst σ α Double) (visited : List σ) : Prop where
  rising : Rising (byTotal P) s
  once : Once s visited
  frugal : s.run.tree.Frugal P most visited
  covered : CoveredFor (GoesOn policy) P NoMore s

variable [LawfulBEq σ]

theorem Straight.expand (hs : Straight P most policy s visited)
    (hc : P.Compact h states most bound) (hsound : Sound P (byTotal P) s)
    (hnext : s.next? = some (here, f, rest))
    (hexpand : s.noted.expand P here f = (run, .ok kids)) :
    run.tree.Grown P ∧ run.tree.Frugal P most (visited ++ [here.node.state]) := by
  obtain ⟨hexpands, -⟩ := Run.expand_ok hexpand
  obtain ⟨hheld, -, -⟩ := hsound.next hnext
  have hfrugal : s.noted.tree.Frugal P most visited := hs.frugal
  exact ⟨hsound.grown.expands hheld hexpands, hfrugal.expands hc hexpands
    (hsound.grown.reachable hheld) (hs.once.expand hsound hnext hexpand).nodup⟩

theorem Straight.offers (hs : Straight P most policy s visited) (hp : P.Paced h)
    (hc : P.Compact h states most bound) (hsound : Sound P (byTotal P) s)
    (hnext : s.next? = some (here, f, rest))
    (hexpand : s.noted.expand P here f = (run, .ok kids)) :
    offerAll (byTotal P) .onCheaperPath policy (s.close here rest run) kids =
      offerAll (byTotal P) .never policy (s.close here rest run) kids := by
  obtain ⟨hgrown, hfrugal⟩ := hs.expand hc hsound hnext hexpand
  have hcounts := hfrugal.counts hgrown hp hc
  refine offerAll_eq_never (fun _ _ => rfl) fun kid hkid f' g hf' hg => ?_
  exact hs.rising.not_cheaper hsound hnext (Run.expand_ok hexpand).1
    (hcounts.climbs hgrown hp) hcounts.ranks hkid hf' hg

theorem Straight.turn (hs : Straight P most policy s visited) (hp : P.Paced h)
    (hc : P.Compact h states most bound) (hsound : Sound P (byTotal P) s)
    (ht : Turn P (byTotal P) .onCheaperPath policy s here f rest run kids s') :
    Straight P most policy s' (visited ++ [here.node.state]) := by
  obtain ⟨hgrown, hfrugal⟩ := hs.expand hc hsound ht.next ht.expand
  have hcounts := hfrugal.counts hgrown hp hc
  obtain ⟨hclose, hoffers⟩ := ht.closes hsound
  have htree : s'.run.tree = run.tree := hoffers.tree
  have hnever : Turn P (byTotal P) .never policy s here f rest run kids s' :=
    ⟨ht.next, ht.notGoal, ht.expand, (hs.offers hp hc hsound ht.next ht.expand).symm.trans ht.offers⟩
  constructor
  case rising =>
    refine hs.rising.turn hsound ht ?_
    rw [htree]
    exact hcounts.climbs hgrown hp
  case once => exact hs.once.turn hsound hnever
  case frugal =>
    rw [htree]
    exact hfrugal
  case covered =>
    obtain ⟨hheld, -, -⟩ := hsound.next ht.next
    have hhere := hcounts.cost (hheld.keeps ht.expands.keeps)
    refine hs.covered.turn hsound ht (fun hab hbc => le_trans hab hbc) (fun _ _ => le_refl _)
      (sorts_of_counts (htree ▸ hcounts)) ?_ fun hdue => .inl ((goesOn_iff hhere).1 hdue)
    intro kid hkid g hg
    obtain ⟨-, n, hn, -, rfl, -⟩ := hclose.closed _ g hg
    exact settles_of_whole (hcounts.cost hn) (hcounts.cost (ht.expands.holds kid hkid))

theorem straight_start (P : Problem σ α Double) (most : Nat) (policy : TimedPolicy) (f : Double) :
    Straight P most policy ((fresh (Run.start P policy).1).enter (Run.start P policy).2 f) [] where
  rising := rising_start P policy f
  once := once_start P policy f
  frugal := ⟨.nil, by simp, Nat.le_add_right 1 _⟩
  covered := by
    have hcovered : Covered P NoMore ((fresh (Run.start P policy).1).enter _ f) :=
      covered_enter_root (Run.holds_start P policy) rfl (le_refl (Double.value 0))
    exact hcovered.coveredFor _

/-! ## The end of the search -/

omit [LawfulBEq σ] in
/-- On the way to a goal some node waits, no deeper than it lies on that way. -/
theorem Straight.waits_before_goal (hs : Straight P most policy s visited)
    (hcounts : s.run.tree.Counts P h) (hsound : Sound P (byTotal P) s) {as : List α} {t : σ}
    (hpath : P.Path P.initial as t) (ht : P.isGoal t = true) (hshort : as.length ≤ policy.maxDepth) :
    ∃ n f bs, s.run.tree.Holds n ∧ s.opened[n.node.state]? = some ⟨n.id, f⟩ ∧
      P.Path n.node.state bs t ∧ n.node.depth + bs.length ≤ as.length := by
  let Φ : σ → Double → List α → Prop := fun _ g bs => g.value + bs.length ≤ as.length
  have hstart : ∀ g, NoMore g 0 → Φ P.initial g as := by
    intro g hg
    have hzero : g.value ≤ 0 := hg.trans_eq MeasuredScalar.value_zero
    show g.value + _ ≤ _
    linarith
  have hready : ∀ state g a bs, s.closed[state]? = some g → Φ state g (a :: bs) →
      GoesOn policy g := by
    intro state g a bs _ hΦ
    have hlength : g.value + (bs.length + 1 : Nat) ≤ as.length := hΦ
    have hdepth : (as.length : ℚ) ≤ policy.maxDepth := Nat.cast_le.2 hshort
    have hpos : (0 : ℚ) < (bs.length + 1 : Nat) := Nat.cast_pos.2 (Nat.succ_pos _)
    show g.value < _
    linarith
  have hstep : ∀ state g a bs g', s.closed[state]? = some g → a ∈ P.actions state →
      P.Path (P.result state a) bs t → Φ state g (a :: bs) →
      NoMore g' (P.pathCost g state a (P.result state a)) → Φ (P.result state a) g' bs := by
    intro state g a bs g' hclosed legal _ hΦ hg'
    obtain ⟨-, n, hn, rfl, rfl, hkids⟩ := hsound.closed state g hclosed
    obtain ⟨kid, hkid, hnode⟩ := hkids a legal
    have hcost := (hcounts.cost hkid).2
    rw [hnode] at hcost
    have hnext : g'.value ≤ (n.node.depth + 1 : Nat) := hg'.trans_eq hcost
    have hlength : n.node.cost.value + (bs.length + 1 : Nat) ≤ as.length := hΦ
    rw [(hcounts.cost hn).2] at hlength
    show g'.value + _ ≤ _
    push_cast at hlength hnext
    linarith
  obtain ⟨mid, g, bs, ⟨n, f, hentry, hn, rfl⟩, hbs, hΦ⟩ :=
    hs.covered.waits_before_goal hsound hstart hready hstep hpath ht
  obtain ⟨rfl, -⟩ := hsound.value_of_entry hentry hn
  have hlength : n.node.cost.value + bs.length ≤ as.length := hΦ
  rw [(hcounts.cost hn).2] at hlength
  exact ⟨n, f, bs, hn, hentry, hbs, by exact_mod_cast hlength⟩

omit [LawfulBEq σ] in
/-- The node that is taken lies no deeper than any goal. -/
theorem Straight.nearest (hs : Straight P most policy s visited) (hp : P.Paced h)
    (hcounts : s.run.tree.Counts P h) (hsound : Sound P (byTotal P) s)
    (hnext : s.next? = some (here, f, rest)) {as : List α} (hsolution : P.Solution as)
    (hshort : as.length ≤ policy.maxDepth) : here.node.depth ≤ as.length := by
  obtain ⟨t, hpath, ht⟩ := hsolution
  obtain ⟨n, f', bs, hn, hentry, hbs, hlength⟩ :=
    hs.waits_before_goal hcounts hsound hpath ht hshort
  obtain ⟨hheld, hvalue, -⟩ := hsound.next hnext
  have hhere := hcounts.value hheld hvalue
  have hthere := hcounts.value hn (hsound.value_of_entry hentry hn).2
  have hrank := hsound.rank_next hs.rising.ordered hnext hentry
  have hsum : here.node.depth + h here.node.state ≤ n.node.depth + h n.node.state :=
    (hhere.le_iff hthere).1 (OrderedScalar.le_of_rank (Double.isNaN_of_isFinite hhere.1)
      (Double.isNaN_of_isFinite hthere.1) hrank)
  have hahead : h n.node.state ≤ bs.length :=
    hp.le_length (hsound.grown.reachable hn) hbs ht
  omega

theorem Straight.ends_never (hs : Straight P most policy s visited) (hp : P.Paced h)
    (hc : P.Compact h states most bound) (hsound : Sound P (byTotal P) s) {algorithm : String}
    {r : Result σ α Double} (hends : Ends P (byTotal P) .onCheaperPath policy s algorithm r) :
    Ends P (byTotal P) .never policy s algorithm r := by
  cases hends with
  | emptied h => exact .emptied h
  | stopped termination h => exact .stopped termination h
  | goal next isGoal => exact .goal next isGoal
  | expansion next expand => exact .expansion next expand
  | evaluation next expand offers =>
    exact .evaluation next expand ((hs.offers hp hc hsound next expand).symm.trans offers)

theorem straight_ends (hp : P.Paced h) (hc : P.Compact h states most bound) (policy : TimedPolicy) :
    (∃ violation, byTotal P (SearchTree.rootNode P.initial) = .error violation ∧
        astarSearch P policy =
          (Run.start P policy).1.finish "astar_search" (.contractViolation violation)) ∨
      ∃ s visited, Sound P (byTotal P) s ∧ Straight P most policy s visited ∧
        Ends P (byTotal P) .onCheaperPath policy s "astar_search" (astarSearch P policy) := by
  have hkeep : ∀ {s here f rest run kids s'}, Sound P (byTotal P) s →
      (∃ visited, Straight P most policy s visited) →
      Turn P (byTotal P) .onCheaperPath policy s here f rest run kids s' →
      ∃ visited, Straight P most policy s' visited :=
    fun hsound ⟨_, hs⟩ ht => ⟨_, hs.turn hp hc hsound ht⟩
  rcases bestFirst_ends "astar_search" (fun f _ => ⟨[], straight_start P most policy f⟩) hkeep with
    hviolation | ⟨s, hsound, ⟨visited, hs⟩, hends⟩
  · exact .inl hviolation
  · exact .inr ⟨s, visited, hsound, hs, hends⟩

end BestFirst

/-- Over unit steps and with a whole-number estimate that is consistent, in a space that is not too
large, A* reopens no state, and what it finds is a shortest solution, under every policy. -/
theorem astarSearch_shortest [BEq σ] [Hashable σ] [LawfulBEq σ] (hp : P.Paced h)
    (hc : P.Compact h states most bound) (policy : TimedPolicy) :
    (astarSearch P policy).stats.reopened = 0 ∧
      ∀ actions, (astarSearch P policy).solution? = some actions → P.Shortest actions := by
  rcases BestFirst.straight_ends hp hc policy with
    ⟨violation, -, hrun⟩ | ⟨s, visited, hsound, hs, hends⟩
  · rw [hrun]
    exact ⟨rfl, nofun⟩
  refine ⟨(hs.once.ends hsound (hs.ends_never hp hc hsound hends)).1, ?_⟩
  intro actions hactions
  obtain ⟨id, hid, rfl⟩ := Result.solution?_eq_some.1 hactions
  obtain ⟨here, f, rest, hnext, -, hterm, htree, -⟩ :=
    hends.goalReached (Result.isGoalReached_iff.2 ⟨id, hid⟩)
  cases hid.symm.trans hterm
  have hreaches : (astarSearch P policy).tree.Reaches P policy.maxDepth here.id :=
    bestFirst_reaches P _ _ policy _ hid
  have hnode : (astarSearch P policy).tree.get? here.id = some here.node :=
    htree ▸ (hsound.next hnext).1
  refine hreaches.shortest hnode fun other hother => ?_
  rcases Nat.lt_or_ge policy.maxDepth other.length with hlong | hshort
  · obtain ⟨_, hsame, -, hdepth⟩ := hreaches.goal
    cases Option.some.inj (hsame.symm.trans hnode)
    exact hdepth.trans hlong.le
  · exact hs.nearest hp (hs.frugal.counts hsound.grown hp hc) hsound hnext hother hshort

end ProblemSolving
