import Mathlib
import ProblemSolving.Proofs.Search.Moments

/-!
# The current path of a depth-limited search

* `SearchTree.KeepsTo` : a tree keeps to a path if it holds its nodes, children of them, and the root.
* `Stacked` : the tree was stacked up along a path, the children of one node after the other.
* `Moment.Fits`, `Moment.Fits.keepsTo` : the tree fits the path at a moment, and so keeps to it.
* `Moment.turn_sound`, `Moment.enter_sound` : what a moment does keeps the tree fitting, and small.
* `Moment.Sound.next`, `Moment.Sound.leads` : so it is at the next moment, and at all that come.
* `depthLimited_keepsPath` : a search keeps only the current path and the children beside it.
-/

namespace ProblemSolving

variable {σ α κ : Type}

/-! ## Trees along a path -/

/-- The tree has at most so many nodes: those on the path are in it, and each of its nodes is a child
of one on the path, or the root. -/
structure SearchTree.KeepsTo (P : Problem σ α κ) (most : Nat) (t : SearchTree σ α κ)
    (path : List (Placed σ α κ)) : Prop where
  size_le : t.size ≤ most
  held : ∀ n ∈ path, t.Holds n
  exists_parent : ∀ id node, t.get? id = some node → id = 0 ∨
    ∃ n ∈ path, ∃ a ∈ P.actions n.node.state, node = child P n a

namespace SearchTree.KeepsTo

variable {P : Problem σ α κ} {most most' k breadth : Nat} {t : SearchTree σ α κ}
  {path : List (Placed σ α κ)} {here : Placed σ α κ}

theorem mono (h : t.KeepsTo P most path) (hle : most ≤ most') : t.KeepsTo P most' path :=
  ⟨h.size_le.trans hle, h.held, h.exists_parent⟩

/-- A node of the tree may go on the path, with some of its children. -/
theorem grow (h : t.KeepsTo P (1 + k * breadth) path) (hheld : t.Holds here)
    (hbreadth : (P.actions here.node.state).length ≤ breadth) {made : List (Node σ α κ)}
    (hmade : made <+: children P here) :
    (t.pushAll made).KeepsTo P (1 + (k + 1) * breadth) (here :: path) := by
  have hkeeps : t.Keeps (t.pushAll made) := keeps_pushAll t made
  constructor
  case size_le =>
    have hlength := hmade.length_le
    have hbefore := h.size_le
    rw [children_eq, List.length_map] at hlength
    rw [size_pushAll, Nat.succ_mul]
    omega
  case held =>
    exact List.forall_mem_cons.2 ⟨hheld.keeps hkeeps, fun n hn => (h.held n hn).keeps hkeeps⟩
  case exists_parent =>
    intro id node hnode
    rcases get?_pushAll hnode with hold | ⟨-, hnew⟩
    · refine (h.exists_parent id node hold).imp_right ?_
      rintro ⟨n, hn, hparent⟩
      exact ⟨n, List.mem_cons_of_mem _ hn, hparent⟩
    · obtain ⟨a, ha, hchild⟩ := mem_children.1 (hmade.subset hnew)
      exact .inr ⟨here, List.mem_cons_self .., a, ha, hchild.symm⟩

theorem cons (h : t.KeepsTo P most path) (hheld : t.Holds here) :
    t.KeepsTo P most (here :: path) where
  size_le := h.size_le
  held := List.forall_mem_cons.2 ⟨hheld, h.held⟩
  exists_parent id node hnode := by
    refine (h.exists_parent id node hnode).imp_right ?_
    rintro ⟨n, hn, hparent⟩
    exact ⟨n, List.mem_cons_of_mem _ hn, hparent⟩

end SearchTree.KeepsTo

section
variable [Scalar κ]

/-- The path goes on to this node: it is the root, or a child of the latest node. -/
def Follows (P : Problem σ α κ) (here : Placed σ α κ) : List (Branching σ α κ) → Prop
  | [] => here = ⟨0, SearchTree.rootNode P.initial⟩
  | b :: _ => here ∈ b.kids

/-- The tree holds the root and, one node of the path after the other, its children. -/
inductive Stacked (P : Problem σ α κ) (limit : Nat) :
    List (Branching σ α κ) → SearchTree σ α κ → Prop
  | root : Stacked P limit [] (SearchTree.empty.addRoot P.initial).1
  | branch {above : List (Branching σ α κ)} {t : SearchTree σ α κ} {b : Branching σ α κ}
      (below : Stacked P limit above t) (follows : Follows P b.node above)
      (shallow : b.node.node.depth < limit)
      (kids : b.kids = SearchTree.numbered t.size (SearchTree.children P b.node))
      (rest : b.rest ⊆ b.kids) :
      Stacked P limit (b :: above) (t.pushAll (SearchTree.children P b.node))

variable {P : Problem σ α κ} {policy : TimedPolicy} {limit deepest breadth : Nat}
  {above : List (Branching σ α κ)} {t : SearchTree σ α κ} {here : Placed σ α κ}
  {b : Branching σ α κ}

namespace Stacked

theorem holds (h : Stacked P limit above t) (hfollows : Follows P here above) : t.Holds here := by
  cases h with
  | root =>
    cases hfollows
    rfl
  | @branch above t b below follows shallow kids rest =>
    have hmem : here ∈ b.kids := hfollows
    rw [kids] at hmem
    exact SearchTree.holds_of_mem_numbered hmem

theorem depth_eq (h : Stacked P limit above t) (hfollows : Follows P here above) :
    here.node.depth = above.length := by
  induction h generalizing here with
  | root =>
    cases hfollows
    rfl
  | @branch above t b below follows shallow kids rest ih =>
    have hmem : here ∈ b.kids := hfollows
    rw [kids] at hmem
    obtain ⟨a, -, hchild⟩ := SearchTree.exists_action_of_mem_numbered hmem
    rw [← hchild, List.length_cons, ← ih follows]
    rfl

theorem length_le (h : Stacked P limit above t) : above.length ≤ limit := by
  cases h with
  | root => exact Nat.zero_le limit
  | branch below follows shallow kids rest =>
    rw [below.depth_eq follows] at shallow
    exact shallow

theorem cut (h : Stacked P limit (b :: above) t) (cut : Bool) :
    Stacked P limit ({ b with cut } :: above) t := by
  cases h with
  | branch below follows shallow kids rest => exact .branch below follows shallow kids rest

variable (hbreadth : ∀ s, (P.actions s).length ≤ breadth)
include hbreadth

theorem keepsTo_path (h : Stacked P limit above t) :
    t.KeepsTo P (1 + above.length * breadth) (above.map (·.node)) := by
  induction h with
  | root =>
    refine ⟨Nat.le_add_right 1 _, by simp, ?_⟩
    intro id node hnode
    exact .inl (Nat.lt_one_iff.1 (SearchTree.get?_lt hnode))
  | @branch above t b below follows shallow kids rest ih =>
    exact ih.grow (below.holds follows) (hbreadth b.node.node.state) List.prefix_rfl

theorem keepsTo (h : Stacked P limit above t) :
    t.KeepsTo P (1 + limit * breadth) (above.map (·.node)) :=
  (h.keepsTo_path hbreadth).mono (Nat.add_le_add_left (Nat.mul_le_mul_right _ h.length_le) 1)

end Stacked

omit [Scalar κ] in
theorem Run.tree_without {run : Run σ α κ} {nodes : List (Node σ α κ)} {kids : List (Placed σ α κ)}
    (htree : run.tree = t.pushAll nodes) (hkids : kids = SearchTree.numbered t.size nodes) :
    (run.without kids).tree = t := by
  cases kids with
  | nil => exact htree.trans (SearchTree.pushAll_of_numbered_eq_nil hkids.symm)
  | cons first rest =>
    show run.tree.truncate first.id = t
    rw [htree]
    exact SearchTree.truncate_of_numbered_eq_cons hkids.symm

/-! ## What holds at every moment -/

/-- The limits were gone through without a goal. -/
def Termination.Fruitless : Termination κ → Prop
  | .frontierExhausted | .cutoff | .depthBudgetExceeded => True
  | _ => False

omit [Scalar κ] in
theorem Termination.GivenUp.not_fruitless {termination : Termination κ} (h : termination.GivenUp) :
    ¬ termination.Fruitless := by
  cases termination with
  | expansionBudgetExceeded => exact id
  | timeBudgetExceeded => exact id
  | contractViolation => exact id
  | _ => exact h.elim

namespace Moment

/-- The tree fits the path: it was stacked up along it, and an expansion that was broken off may
have added to it. -/
inductive Fits (P : Problem σ α κ) : Moment σ α κ → Prop
  | entering {limit : Nat} {run : Run σ α κ} {above : List (Branching σ α κ)} {here : Placed σ α κ}
      (stacked : Stacked P limit above run.tree) (follows : Follows P here above) :
      Fits P ⟨limit, run, above, .entering here⟩
  | leaving {limit : Nat} {run : Run σ α κ} {above : List (Branching σ α κ)} {cut : Bool}
      (stacked : Stacked P limit above run.tree) : Fits P ⟨limit, run, above, .leaving cut⟩
  | decided {limit : Nat} {run : Run σ α κ} {above : List (Branching σ α κ)} {here : Placed σ α κ}
      {termination : Termination κ} (stacked : Stacked P limit above run.tree)
      (follows : Follows P here above) (ended : ¬ termination.Fruitless) :
      Fits P ⟨limit, run, above, .decided here termination⟩
  | broken {limit : Nat} {run : Run σ α κ} {above : List (Branching σ α κ)} {here : Placed σ α κ}
      {violation : Violation κ} {t : SearchTree σ α κ} {made : List (Node σ α κ)}
      (stacked : Stacked P limit above t) (follows : Follows P here above)
      (shallow : here.node.depth < limit) (part : made <+: SearchTree.children P here)
      (tree : run.tree = t.pushAll made) :
      Fits P ⟨limit, run, above, .decided here (.contractViolation violation)⟩

/-- A tree that fits a path keeps to it. -/
theorem Fits.keepsTo {m : Moment σ α κ} (hbreadth : ∀ s, (P.actions s).length ≤ breadth)
    (h : m.Fits P) : m.run.tree.KeepsTo P (1 + m.limit * breadth) m.path := by
  cases h with
  | entering stacked follows => exact (stacked.keepsTo hbreadth).cons (stacked.holds follows)
  | leaving stacked => exact stacked.keepsTo hbreadth
  | decided stacked follows ended => exact (stacked.keepsTo hbreadth).cons (stacked.holds follows)
  | @broken limit run above here violation t made stacked follows shallow part tree =>
    have hroom : 1 + (above.length + 1) * breadth ≤ 1 + limit * breadth := by
      rw [stacked.depth_eq follows] at shallow
      exact Nat.add_le_add_left (Nat.mul_le_mul_right _ shallow) 1
    have hgrown := (stacked.keepsTo_path hbreadth).grow (stacked.holds follows)
      (hbreadth here.node.state) part
    rw [← tree] at hgrown
    exact hgrown.mono hroom

/-- A search that comes to its end without a goal is back at the root. -/
theorem Fits.tree_of_fruitless {m : Moment σ α κ} {whenCut : Termination κ}
    {r : Run σ α κ × Termination κ} (h : m.Fits P) (hr : m.outcome? whenCut = some r)
    (hfruitless : r.2.Fruitless) : r.1.tree = (SearchTree.empty.addRoot P.initial).1 := by
  cases h with
  | entering stacked follows => cases hr
  | @leaving limit run above cut stacked =>
    cases above with
    | cons => cases cut <;> cases hr
    | nil =>
      have hroot : run.tree = (SearchTree.empty.addRoot P.initial).1 := by
        generalize run.tree = t at stacked
        cases stacked
        rfl
      cases cut <;> (cases hr; exact hroot)
  | decided stacked follows ended =>
    cases hr
    exact absurd hfruitless ended
  | broken stacked follows shallow part tree =>
    cases hr
    exact hfruitless.elim

/-- What holds at every moment. -/
structure Sound (P : Problem σ α κ) (deepest breadth : Nat) (m : Moment σ α κ) : Prop where
  fits : m.Fits P
  limit_le : m.limit ≤ deepest
  highWater_le : m.run.stats.highWater ≤ 1 + deepest * breadth

theorem atRoot_sound {run : Run σ α κ} (hlimit : limit ≤ deepest)
    (hwater : run.stats.highWater ≤ 1 + deepest * breadth) :
    (atRoot P limit run).Sound P deepest breadth :=
  ⟨.entering .root rfl, hlimit, hwater⟩

/-- The search turns to a child, or drops the children of a node. -/
theorem turn_sound {run : Run σ α κ} (h : Stacked P limit (b :: above) run.tree)
    (hlimit : limit ≤ deepest) (hwater : run.stats.highWater ≤ 1 + deepest * breadth) :
    (turn limit run b above).Sound P deepest breadth := by
  obtain ⟨node, kids, rest, cut⟩ := b
  generalize hrun : run.tree = t at h
  cases h with
  | @branch _ t _ below follows shallow hkids hrest =>
    cases rest with
    | nil =>
      have htree : (run.without kids).tree = t := Run.tree_without hrun hkids
      have hstats : (run.without kids).stats = run.stats := by cases kids <;> rfl
      refine ⟨.leaving (htree.symm ▸ below), hlimit, ?_⟩
      show (run.without kids).stats.highWater ≤ 1 + deepest * breadth
      rw [hstats]
      exact hwater
    | cons kid rest =>
      have hlater : rest ⊆ kids := fun k hk => hrest (List.mem_cons_of_mem _ hk)
      refine ⟨.entering ?_ (hrest (List.mem_cons_self ..)), hlimit, hwater⟩
      rw [hrun]
      exact .branch below follows shallow hkids hlater

/-- A node that is entered is expanded if it lies above the limit, which leaves room for its
children. -/
theorem enter_sound (policy : TimedPolicy) {run : Run σ α κ}
    (hbreadth : ∀ s, (P.actions s).length ≤ breadth) (h : Stacked P limit above run.tree)
    (hfollows : Follows P here above) (hlimit : limit ≤ deepest)
    (hwater : run.stats.highWater ≤ 1 + deepest * breadth) :
    (enter P policy limit run above here).Sound P deepest breadth := by
  unfold enter
  split
  · exact ⟨.decided h hfollows id, hlimit, hwater⟩
  split
  · exact ⟨.leaving h, hlimit, hwater⟩
  next hdeep =>
  have hshallow : here.node.depth < limit := Nat.lt_of_not_le hdeep
  split
  next termination hstop =>
    exact ⟨.decided h hfollows (givenUp_of_stop? hstop).not_fruitless, hlimit, hwater⟩
  split
  next run' violation hexpand =>
    obtain ⟨made, hmade, htree⟩ := Run.tree_expand_error hexpand
    obtain ⟨hstats, -⟩ := Run.expand_error hexpand
    exact ⟨.broken h hfollows hshallow hmade htree, hlimit, by rw [hstats]; exact hwater⟩
  next expanded kids hexpand =>
    obtain ⟨hexpands, hrecord⟩ := Run.expand_ok hexpand
    have hstacked : Stacked P limit (⟨here, kids, kids, false⟩ :: above) expanded.tree := by
      rw [hexpands.tree]
      exact .branch h hfollows hshallow hexpands.kids (List.Subset.refl _)
    refine turn_sound hstacked hlimit ?_
    have hbefore : expanded.stats.highWater = run.stats.highWater := by rw [hrecord]; rfl
    have hsize : expanded.tree.size ≤ 1 + deepest * breadth :=
      (hstacked.keepsTo hbreadth).size_le.trans
        (Nat.add_le_add_left (Nat.mul_le_mul_right _ hlimit) 1)
    show max expanded.stats.highWater expanded.tree.size ≤ 1 + deepest * breadth
    rw [hbefore]
    exact max_le hwater hsize

/-- What holds at a moment holds at the next one. -/
theorem Sound.next {m m' : Moment σ α κ} (hbreadth : ∀ s, (P.actions s).length ≤ breadth)
    (h : m.Sound P deepest breadth) (hnext : m.next? P policy deepest = some m') :
    m'.Sound P deepest breadth := by
  obtain ⟨hfits, hlimit, hwater⟩ := h
  cases hfits with
  | entering stacked follows =>
    cases hnext
    exact enter_sound policy hbreadth stacked follows hlimit hwater
  | @leaving limit run above cut stacked =>
    cases above with
    | nil =>
      cases cut with
      | false => cases hnext
      | true =>
        have hroot : (if limit < deepest then some (atRoot P (limit + 1) run) else none) = some m' :=
          hnext
        split at hroot
        next hdeeper =>
          cases hroot
          exact atRoot_sound hdeeper hwater
        next => cases hroot
    | cons b above =>
      cases hnext
      exact turn_sound (stacked.cut _) hlimit hwater
  | decided stacked follows ended => cases hnext
  | broken stacked follows shallow part tree => cases hnext

/-- What holds at a moment holds at all that it leads to. -/
theorem Sound.leads {m m' : Moment σ α κ} (hbreadth : ∀ s, (P.actions s).length ≤ breadth)
    (h : m.Sound P deepest breadth) (hleads : m.Leads P policy deepest m') :
    m'.Sound P deepest breadth := by
  induction hleads with
  | refl => exact h
  | tail _ hnext ih => exact ih.next hbreadth hnext

omit [Scalar κ] in
theorem run_eq_of_outcome? {m : Moment σ α κ} {whenCut : Termination κ}
    {r : Run σ α κ × Termination κ} (hr : m.outcome? whenCut = some r) : m.run = r.1 := by
  unfold outcome? at hr
  split at hr <;> cases hr <;> rfl

end Moment

/-! ## The searches -/

/-- A search whose passes have the limits from `first` to `deepest` goes through moments from the
first root on to its end, and at each of them its tree keeps to the current path, with no more nodes
than the children of so many nodes, and the root. What it notes and leaves behind is as small; if it
ends without a goal, the root is left. -/
structure KeepsPath (P : Problem σ α κ) (policy : TimedPolicy) (breadth first deepest : Nat)
    (whenCut : Termination κ) (r : Result σ α κ) : Prop where
  moments : ∃ last run, (Moment.atRoot P first (.empty policy)).Leads P policy deepest last ∧
    last.next? P policy deepest = none ∧ last.outcome? whenCut = some (run, r.termination) ∧
    r.tree = run.tree ∧ r.stats = run.stats ∧
    ∀ m, (Moment.atRoot P first (.empty policy)).Leads P policy deepest m →
      m.Leads P policy deepest last ∧ m.run.tree.KeepsTo P (1 + deepest * breadth) m.path
  highWater_le : r.stats.highWater ≤ 1 + deepest * breadth
  size_le : r.tree.size ≤ 1 + deepest * breadth
  restored : r.termination.Fruitless → r.tree = (SearchTree.empty.addRoot P.initial).1

/-- A search that ends as its moments do keeps to the current path. -/
theorem EndsIn.keepsPath {first : Nat} {whenCut : Termination κ} {r : Run σ α κ × Termination κ}
    (hbreadth : ∀ s, (P.actions s).length ≤ breadth) (hfirst : first ≤ deepest)
    (h : EndsIn P policy deepest whenCut (.atRoot P first (.empty policy)) r) (algorithm : String) :
    KeepsPath P policy breadth first deepest whenCut (r.1.finish algorithm r.2) := by
  obtain ⟨last, hleads, hend, hr⟩ := h
  have hsound : ∀ m, (Moment.atRoot P first (.empty policy)).Leads P policy deepest m →
      m.Sound P deepest breadth := fun m hm =>
    (Moment.atRoot_sound hfirst (Nat.zero_le _)).leads hbreadth hm
  have hkeeps : ∀ m, (Moment.atRoot P first (.empty policy)).Leads P policy deepest m →
      m.run.tree.KeepsTo P (1 + deepest * breadth) m.path := by
    intro m hm
    obtain ⟨hfits, hlimit, -⟩ := hsound m hm
    exact (hfits.keepsTo hbreadth).mono (Nat.add_le_add_left (Nat.mul_le_mul_right _ hlimit) 1)
  have hrun : last.run = r.1 := Moment.run_eq_of_outcome? hr
  constructor
  case moments =>
    exact ⟨last, r.1, hleads, hend, hr, rfl, rfl, fun m hm => ⟨hleads.total hend hm, hkeeps m hm⟩⟩
  case highWater_le => exact hrun ▸ (hsound last hleads).highWater_le
  case size_le => exact hrun ▸ (hkeeps last hleads).size_le
  case restored => exact (hsound last hleads).fits.tree_of_fruitless hr

/-- **Depth-limited search keeps only the current path and the children beside it.** If no state has
more than `breadth` actions, the tree never holds more than that many nodes for each action down to
the limit, and the root; so does iterative deepening, down to the depth of its policy. -/
theorem depthLimited_keepsPath (P : Problem σ α κ) (policy : TimedPolicy) (breadth : Nat)
    (hbreadth : ∀ s, (P.actions s).length ≤ breadth) :
    (∀ limit, KeepsPath P policy breadth limit limit .cutoff (depthLimitedSearch P limit policy)) ∧
    KeepsPath P policy breadth 0 policy.maxDepth .depthBudgetExceeded
      (iterativeDeepeningSearch P policy) :=
  ⟨fun limit => (depthLimitedSearch_ends P policy limit).keepsPath hbreadth (Nat.le_refl limit) _,
    (iterativeDeepeningSearch_ends P policy).keepsPath hbreadth (Nat.zero_le _) _⟩

/-- On the stairs two nodes are added for each action; three actions are no more than seven nodes,
and of a search that is cut off the root is left. -/
theorem stairs_keepsPath :
    (∀ s, (stairs.actions s).length ≤ 2) ∧
    (depthLimitedSearch stairs 3 {}).stats.highWater ≤ 7 ∧
    (depthLimitedSearch stairs 1 {}).tree = (SearchTree.empty.addRoot 0).1 ∧
    (iterativeDeepeningSearch stairs { maxDepth := 5 }).tree.size ≤ 11 := by
  have hbreadth : ∀ s, (stairs.actions s).length ≤ 2 := fun _ => Nat.le_refl 2
  have hcut : (depthLimitedSearch stairs 1 {}).termination = .cutoff := by cbv
  obtain ⟨hlimited, -⟩ := depthLimited_keepsPath stairs {} 2 hbreadth
  obtain ⟨-, hdeepening⟩ := depthLimited_keepsPath stairs { maxDepth := 5 } 2 hbreadth
  refine ⟨hbreadth, (hlimited 3).highWater_le, (hlimited 1).restored ?_, hdeepening.size_le⟩
  rw [hcut]
  trivial

end

end ProblemSolving
