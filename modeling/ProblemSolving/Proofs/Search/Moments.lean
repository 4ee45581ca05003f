import Mathlib
import ProblemSolving.Proofs.Search.Budgets
import ProblemSolving.Proofs.Search.Descent

/-!
# Depth-limited search, moment by moment

The nodes on the path of a depth-limited search are kept on a stack, each with the children that are
still to be searched.

* `Moment`, `Moment.next?`, `Moment.Leads` : a moment, the one after it, and those that it leads to.
* `Settled` : the search below a node has come to a verdict.
* `visitEach_comes`, `descend_comes` : the moments lead to what the search below a node comes to.
* `EndsIn` : a moment leads to a last one, with this outcome.
* `depthLimitedSearch_ends`, `iterativeDeepeningSearch_ends` : the searches end as their last
  moments do.
-/

namespace ProblemSolving

variable {σ α κ : Type}

/-! ## Moments -/

/-- A node on the current path, whose children are searched one after the other. -/
structure Branching (σ α κ : Type) where
  node : Placed σ α κ
  kids : List (Placed σ α κ)
  /-- The children that are still to be searched. -/
  rest : List (Placed σ α κ)
  /-- Whether a path was cut below those before. -/
  cut : Bool

/-- What a search is about to do. -/
inductive Standpoint (σ α κ : Type) where
  /-- To search below a node. -/
  | entering (here : Placed σ α κ)
  /-- To go on after a node below which there is no goal. -/
  | leaving (cut : Bool)
  /-- Nothing more: it was decided at a node. -/
  | decided (here : Placed σ α κ) (termination : Termination κ)

/-- A depth-limited search at some moment. -/
structure Moment (σ α κ : Type) where
  limit : Nat
  run : Run σ α κ
  /-- The nodes whose children are being searched, the latest one first. -/
  above : List (Branching σ α κ)
  standpoint : Standpoint σ α κ

/-- The run without these nodes and those made after them. -/
def Run.without (run : Run σ α κ) : (kids : List (Placed σ α κ)) → Run σ α κ
  | [] => run
  | first :: _ => run.truncate first.id

namespace Moment

/-- The nodes on the current path, the latest one first. -/
def path (m : Moment σ α κ) : List (Placed σ α κ) :=
  match m.standpoint with
  | .entering here | .decided here _ => here :: m.above.map (·.node)
  | .leaving _ => m.above.map (·.node)

/-- Turns to the next child of a node. If there is none, the children are dropped. -/
def turn (limit : Nat) (run : Run σ α κ) (b : Branching σ α κ) (above : List (Branching σ α κ)) :
    Moment σ α κ :=
  match b.rest with
  | [] => ⟨limit, run.without b.kids, above, .leaving b.cut⟩
  | kid :: rest => ⟨limit, run, { b with rest } :: above, .entering kid⟩

variable [Scalar κ] (P : Problem σ α κ) (policy : TimedPolicy)

/-- The first moment of a pass. -/
def atRoot (limit : Nat) (run : Run σ α κ) : Moment σ α κ :=
  let (tree, root) := SearchTree.empty.addRoot P.initial
  ⟨limit, { run with tree }, [], .entering root⟩

/-- Enters a node: it is a goal, or lies at the limit, or is expanded. -/
def enter (limit : Nat) (run : Run σ α κ) (above : List (Branching σ α κ)) (here : Placed σ α κ) :
    Moment σ α κ :=
  if P.isGoal here.node.state then ⟨limit, run, above, .decided here (.goalReached here.id)⟩
  else if limit ≤ here.node.depth then ⟨limit, run, above, .leaving true⟩
  else match policy.stop? run.stats.expansions with
  | some termination => ⟨limit, run, above, .decided here termination⟩
  | none =>
    match run.expand P here (Scalar.ofNat here.node.depth) with
    | (run, .error violation) => ⟨limit, run, above, .decided here (.contractViolation violation)⟩
    | (expanded, .ok kids) =>
      turn limit (expanded.noteHighWater expanded.tree.size) ⟨here, kids, kids, false⟩ above

/-- The next moment of a search whose passes go up to the limit `deepest`. -/
def next? (deepest : Nat) : Moment σ α κ → Option (Moment σ α κ)
  | ⟨limit, run, above, .entering here⟩ => some (enter P policy limit run above here)
  | ⟨limit, run, b :: above, .leaving cut⟩ =>
    some (turn limit run { b with cut := b.cut || cut } above)
  | ⟨limit, run, [], .leaving true⟩ =>
    if limit < deepest then some (atRoot P (limit + 1) run) else none
  | ⟨_, _, [], .leaving false⟩ => none
  | ⟨_, _, _, .decided _ _⟩ => none

/-- One moment of a search leads to another. -/
def Leads (deepest : Nat) : Moment σ α κ → Moment σ α κ → Prop :=
  Relation.ReflTransGen fun m m' => m.next? P policy deepest = some m'

omit [Scalar κ] in
/-- The outcome at the last moment; `whenCut` says how it ends if the last pass was cut off. -/
def outcome? (whenCut : Termination κ) : Moment σ α κ → Option (Run σ α κ × Termination κ)
  | ⟨_, run, _, .decided _ termination⟩ => some (run, termination)
  | ⟨_, run, [], .leaving true⟩ => some (run, whenCut)
  | ⟨_, run, [], .leaving false⟩ => some (run, .frontierExhausted)
  | ⟨_, _, _ :: _, .leaving _⟩ => none
  | ⟨_, _, _, .entering _⟩ => none

variable {P policy} {deepest : Nat} {m m' last : Moment σ α κ}

theorem Leads.total (hlast : Leads P policy deepest m last)
    (hend : last.next? P policy deepest = none) (h : Leads P policy deepest m m') :
    Leads P policy deepest m' last := by
  have hunique : Relator.RightUnique fun m m' : Moment σ α κ =>
      m.next? P policy deepest = some m' :=
    fun _ _ _ h h' => Option.some.inj (h.symm.trans h')
  rcases Relation.ReflTransGen.total_of_right_unique hunique h hlast with hto | hfrom
  · exact hto
  · rcases Relation.ReflTransGen.cases_head hfrom with rfl | ⟨after, hnext, -⟩
    · exact .refl
    · exact absurd (hend.symm.trans hnext) nofun

end Moment

/-! ## The moments of a search -/

/-- The search below a node has come to a verdict, and the path is again what it was above the node,
or it is decided. -/
inductive Settled (limit : Nat) (above : List (Branching σ α κ)) :
    Run σ α κ × Verdict κ → Moment σ α κ → Prop
  | cutoff (run : Run σ α κ) : Settled limit above (run, .cutoff) ⟨limit, run, above, .leaving true⟩
  | failure (run : Run σ α κ) :
      Settled limit above (run, .failure) ⟨limit, run, above, .leaving false⟩
  | found (run : Run σ α κ) (id : Nat) (here : Placed σ α κ) (below : List (Branching σ α κ)) :
      Settled limit above (run, .found id) ⟨limit, run, below, .decided here (.goalReached id)⟩
  | stopped (run : Run σ α κ) (termination : Termination κ) (here : Placed σ α κ)
      (below : List (Branching σ α κ)) : Settled limit above (run, .stopped termination)
        ⟨limit, run, below, .decided here termination⟩

section
variable [Scalar κ] (P : Problem σ α κ) (policy : TimedPolicy) (deepest limit : Nat)

/-- A moment leads to one at which the search below a node has come to this. -/
def Comes (above : List (Branching σ α κ)) (m : Moment σ α κ) (r : Run σ α κ × Verdict κ) : Prop :=
  ∃ m', m.Leads P policy deepest m' ∧ Settled limit above r m'

variable {P policy deepest limit}

theorem Comes.step {above : List (Branching σ α κ)} {m m' : Moment σ α κ}
    {r : Run σ α κ × Verdict κ} (h : Comes P policy deepest limit above m' r)
    (hnext : m.next? P policy deepest = some m') : Comes P policy deepest limit above m r := by
  obtain ⟨last, hleads, hsettled⟩ := h
  exact ⟨last, .head hnext hleads, hsettled⟩

/-- If the search below each child comes to what a visit makes of it, all of them come to what the
visits one after the other do. -/
theorem visitEach_comes {visit : Run σ α κ → Placed σ α κ → Run σ α κ × Verdict κ}
    {kids : List (Placed σ α κ)} {above : List (Branching σ α κ)} (node : Placed σ α κ)
    (rest : List (Placed σ α κ))
    (hvisit : ∀ run b, ∀ kid ∈ rest, Comes P policy deepest limit (b :: above)
      ⟨limit, run, b :: above, .entering kid⟩ (visit run kid))
    (run : Run σ α κ) (cut : Bool) :
    Comes P policy deepest limit above (.turn limit run ⟨node, kids, rest, cut⟩ above)
      (Run.dropFailed kids (visitEach visit run rest cut)) := by
  induction rest generalizing run cut with
  | nil =>
    refine ⟨_, .refl, ?_⟩
    cases kids <;> cases cut <;> constructor
  | cons kid rest ih =>
    have hrest := ih fun run b kid hkid => hvisit run b kid (List.mem_cons_of_mem _ hkid)
    obtain ⟨m, hleads, hsettled⟩ :=
      hvisit run ⟨node, kids, rest, cut⟩ kid (List.mem_cons_self ..)
    have hafter : ∀ {r}, Comes P policy deepest limit above m r → Comes P policy deepest limit above
        (.turn limit run ⟨node, kids, kid :: rest, cut⟩ above) r := by
      rintro r ⟨last, hlater, hlast⟩
      exact ⟨last, hleads.trans hlater, hlast⟩
    apply hafter
    unfold visitEach
    generalize visit run kid = r at hsettled
    cases hsettled with
    | cutoff run' =>
      apply (hrest run' true).step
      rw [Moment.next?, Bool.or_true]
    | failure run' =>
      apply (hrest run' cut).step
      rw [Moment.next?, Bool.or_false]
    | found run' id here below =>
      refine ⟨_, .refl, ?_⟩
      cases kids <;> exact .found run' id here below
    | stopped run' termination here below =>
      refine ⟨_, .refl, ?_⟩
      cases kids <;> exact .stopped run' termination here below

/-- From the moment at which a node is entered, the search comes to what it makes of the node. -/
theorem descend_comes (remaining : Nat) (run : Run σ α κ) (here : Placed σ α κ)
    (above : List (Branching σ α κ)) (hlimit : here.node.depth + remaining = limit) :
    Comes P policy deepest limit above ⟨limit, run, above, .entering here⟩
      (descend P policy remaining run here) := by
  induction remaining generalizing run here above with
  | zero =>
    apply Comes.step _ rfl
    unfold descend Moment.enter
    split
    · exact ⟨_, .refl, .found ..⟩
    rw [if_pos (show limit ≤ here.node.depth by omega)]
    exact ⟨_, .refl, .cutoff _⟩
  | succ remaining ih =>
    apply Comes.step _ rfl
    unfold descend Moment.enter
    split
    · exact ⟨_, .refl, .found ..⟩
    rw [if_neg (show ¬ limit ≤ here.node.depth by omega)]
    dsimp only
    generalize (policy.stop? run.stats.expansions : Option (Termination κ)) = stop
    cases stop with
    | some termination => exact ⟨_, .refl, .stopped ..⟩
    | none =>
      have hkids : ∀ expanded kids,
          run.expand P here (Scalar.ofNat here.node.depth) = (expanded, .ok kids) →
            ∀ kid ∈ kids, kid.node.depth + remaining = limit := by
        intro expanded kids hexpand kid hkid
        rw [(Run.expand_ok hexpand).1.depth_eq hkid]
        omega
      generalize run.expand P here (Scalar.ofNat here.node.depth) = r at hkids
      obtain ⟨expanded, violation | kids⟩ := r
      · exact ⟨_, .refl, .stopped ..⟩
      · exact visitEach_comes here kids (fun run b kid hkid =>
          ih run kid (b :: above) (hkids expanded kids rfl kid hkid)) _ false

/-! ## The searches -/

variable (P policy deepest) in
/-- A moment leads to a last one, with this outcome. -/
def EndsIn (whenCut : Termination κ) (m : Moment σ α κ) (r : Run σ α κ × Termination κ) : Prop :=
  ∃ last, m.Leads P policy deepest last ∧ last.next? P policy deepest = none ∧
    last.outcome? whenCut = some r

variable {whenCut : Termination κ}

theorem EndsIn.of_leads {m m' : Moment σ α κ} {r : Run σ α κ × Termination κ}
    (h : EndsIn P policy deepest whenCut m' r) (hleads : m.Leads P policy deepest m') :
    EndsIn P policy deepest whenCut m r := by
  obtain ⟨last, hlater, hlast⟩ := h
  exact ⟨last, hleads.trans hlater, hlast⟩

variable (P policy deepest) in
theorem pass_comes (limit : Nat) (run : Run σ α κ) :
    ∃ r, Comes P policy deepest limit [] (.atRoot P limit run) r ∧
      run.pass P policy limit = (r.1, r.2.outcome) ∧
        ∀ termination, r.2 = .stopped termination → termination.GivenUp := by
  let root := (SearchTree.empty : SearchTree σ α κ).addRoot P.initial
  have hleaves := descend_leaves (P := P) policy limit { run with tree := root.1 } root.2
    SearchTree.grown_root SearchTree.fair_root rfl
  exact ⟨_, descend_comes limit _ root.2 [] (Nat.zero_add limit), pass_eq .., hleaves.stopped⟩

variable (P policy deepest whenCut) in
/-- A pass that is cut off leaves the root, and one that is not is the last. -/
theorem pass_leads (limit : Nat) (run : Run σ α κ) :
    (∀ run', run.pass P policy limit = (run', .cutoff) →
      (Moment.atRoot P limit run).Leads P policy deepest ⟨limit, run', [], .leaving true⟩) ∧
    ((run.pass P policy limit).2 ≠ .cutoff →
      EndsIn P policy deepest whenCut (.atRoot P limit run) (run.pass P policy limit)) := by
  obtain ⟨r, ⟨last, hleads, hsettled⟩, hpass, hgiven⟩ :=
    pass_comes P policy deepest limit run
  rw [hpass]
  cases hsettled with
  | cutoff run' =>
    refine ⟨?_, fun hcut => absurd rfl hcut⟩
    intro run'' h
    cases h
    exact hleads
  | failure run' => exact ⟨nofun, fun _ => ⟨_, hleads, rfl, rfl⟩⟩
  | found run' id here below => exact ⟨nofun, fun _ => ⟨_, hleads, rfl, rfl⟩⟩
  | stopped run' termination here below =>
    refine ⟨?_, fun _ => ⟨_, hleads, rfl, rfl⟩⟩
    intro run'' h
    exact absurd (congrArg Prod.snd h) (hgiven termination rfl).ne.2.1

variable (P policy) in
theorem depthLimitedSearch_ends (limit : Nat) :
    EndsIn P policy limit .cutoff (.atRoot P limit (.empty policy))
      ((Run.empty policy).pass P policy limit) := by
  obtain ⟨hcutoff, hother⟩ := pass_leads P policy limit .cutoff limit (.empty policy)
  by_cases hcut : ((Run.empty policy : Run σ α κ).pass P policy limit).2 = .cutoff
  · have hpair : (Run.empty policy : Run σ α κ).pass P policy limit =
        (((Run.empty policy).pass P policy limit).1, .cutoff) := Prod.ext rfl hcut
    refine ⟨_, hcutoff _ hpair, if_neg (Nat.lt_irrefl limit), ?_⟩
    rw [hpair]
    rfl
  · exact hother hcut

/-- Passes from the limit `limit` on end as they do after the first one, if that one is cut off. -/
theorem deepen_ends_of_later (passes limit : Nat) (run : Run σ α κ)
    (hlater : ∀ run', EndsIn P policy deepest whenCut ⟨limit, run', [], .leaving true⟩
      (run'.deepen P policy passes (limit + 1))) :
    EndsIn P policy deepest whenCut (.atRoot P limit run)
      (run.deepen P policy (passes + 1) limit) := by
  obtain ⟨hcutoff, hother⟩ := pass_leads P policy deepest whenCut limit run
  unfold Run.deepen
  split
  next run' hpass => exact (hlater run').of_leads (hcutoff run' hpass)
  next hpass => exact hother fun hcut => hpass _ (Prod.ext rfl hcut)

theorem deepen_ends_cut (passes limit : Nat) (run : Run σ α κ) (hpasses : limit + passes = deepest) :
    EndsIn P policy deepest .depthBudgetExceeded ⟨limit, run, [], .leaving true⟩
      (run.deepen P policy passes (limit + 1)) := by
  induction passes generalizing limit run with
  | zero => exact ⟨_, .refl, if_neg (by omega), rfl⟩
  | succ passes ih =>
    have hroot : EndsIn P policy deepest .depthBudgetExceeded (.atRoot P (limit + 1) run)
        (run.deepen P policy (passes + 1) (limit + 1)) :=
      deepen_ends_of_later passes (limit + 1) run fun run' => ih (limit + 1) run' (by omega)
    exact hroot.of_leads (.single (if_pos (by omega)))

variable (P policy) in
theorem iterativeDeepeningSearch_ends :
    EndsIn P policy policy.maxDepth .depthBudgetExceeded (.atRoot P 0 (.empty policy))
      ((Run.empty policy).deepen P policy (policy.maxDepth + 1) 0) :=
  deepen_ends_of_later policy.maxDepth 0 _ fun run =>
    deepen_ends_cut policy.maxDepth 0 run (Nat.zero_add _)

end

end ProblemSolving
