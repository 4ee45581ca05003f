import Mathlib
import ProblemSolving.Proofs.Frontier.Arrivals
import ProblemSolving.Proofs.Number.Exact
import ProblemSolving.Proofs.Search.Once
import ProblemSolving.Proofs.Search.Passes

/-!
# Lazy deletion

A state that waits with a better value gets a new entry on the frontier; the old entry stays, and is
skipped when it comes first. So the frontier holds more than the open states, but it serves them
exactly.

* `BestFirst.Neat` : the books are in order, and every node has one entry at most.
* `Neat.skip`, `Neat.turn`, `Neat.passes` : every pass keeps this.
* `BestFirst.Exact` : each open state has one entry, with its value, and no closed state is open.
* `Neat.exact`, `Neat.leastOpen` : a neat search is exact, and the first live entry is that of the
  least open state.
* `lazyDeletion_exact` : all of it at the head of every pass.
-/

namespace ProblemSolving

namespace BestFirst

open scoped List

variable {σ α κ : Type} [Scalar κ] [BEq σ] [Hashable σ]

/-- The books are in order, the frontier is in order, and every entry on it has an arrival number and
a node of its own. -/
structure Neat (P : Problem σ α κ) (eval : Evaluation σ α κ) (s : BestFirst σ α κ) : Prop where
  sound : Sound P eval s
  ordered : s.frontier.waiting.Ordered
  stamped : s.frontier.waiting.Stamped
  single : (s.frontier.waiting.entries.map (·.item.id)).Nodup

variable {P : Problem σ α κ} {eval : Evaluation σ α κ} {reopening : Reopening} {policy : TimedPolicy}
  {algorithm : String} {s s' : BestFirst σ α κ} {here x : Placed σ α κ} {f : κ}
  {rest : Frontier (Ranked κ) (Placed σ α κ)} {run : Run σ α κ} {kids : List (Placed σ α κ)}

/-! ## Offers -/

theorem Offers.stamped (h : Offers eval reopening policy s kids s')
    (hs : s.frontier.waiting.Stamped) : s'.frontier.waiting.Stamped := by
  induction h with
  | nil => exact hs
  | deep _ _ ih => exact ih hs
  | offer _ offered _ ih =>
    apply ih
    cases offered with
    | dropped => exact hs
    | kept => exact hs
    | _ => exact hs.add _ _

/-- Offers of nodes that do not wait leave one entry to each node. -/
theorem Offers.single (h : Offers eval reopening policy s kids s')
    (hs : (s.frontier.waiting.entries.map (·.item.id)).Nodup) (hkids : (kids.map (·.id)).Nodup)
    (hnew : ∀ kid ∈ kids, kid.id ∉ s.frontier.waiting.entries.map (·.item.id)) :
    (s'.frontier.waiting.entries.map (·.item.id)).Nodup := by
  induction h with
  | nil => exact hs
  | @deep s child rest s' _ _ ih =>
    exact ih hs (List.nodup_cons.1 hkids).2 fun kid hkid => hnew kid (List.mem_cons_of_mem _ hkid)
  | @offer s child f s₁ rest s' _ offered _ ih =>
    obtain ⟨hchild, hrest⟩ := List.nodup_cons.1 hkids
    have hlater : ∀ kid ∈ rest, kid.id ∉ s.frontier.waiting.entries.map (·.item.id) :=
      fun kid hkid => hnew kid (List.mem_cons_of_mem _ hkid)
    have henter : ∀ {s₂ : BestFirst σ α κ}, s₂.frontier = s.frontier →
        ((s₂.enter child f).frontier.waiting.entries.map (·.item.id)).Nodup ∧
          ∀ kid ∈ rest, kid.id ∉ (s₂.enter child f).frontier.waiting.entries.map (·.item.id) := by
      intro s₂ hsame
      obtain ⟨arrival, hentries⟩ := entries_enter s₂ child f
      rw [hsame] at hentries
      have hids : (s₂.enter child f).frontier.waiting.entries.map (·.item.id) ~
          child.id :: s.frontier.waiting.entries.map (·.item.id) := hentries.map _
      refine ⟨hids.nodup_iff.2 (List.nodup_cons.2 ⟨hnew child List.mem_cons_self, hs⟩), ?_⟩
      intro kid hkid hmem
      rcases List.mem_cons.1 (hids.mem_iff.1 hmem) with hid | hold
      · exact hchild (List.mem_map.2 ⟨kid, hkid, hid⟩)
      · exact hlater kid hkid hold
    cases offered with
    | dropped => exact ih hs hrest hlater
    | kept => exact ih hs hrest hlater
    | reopened => exact ih (henter rfl).1 hrest (henter rfl).2
    | replaced => exact ih (henter rfl).1 hrest (henter rfl).2
    | new => exact ih (henter rfl).1 hrest (henter rfl).2

/-! ## Passes -/

section

theorem Neat.pop (h : Neat P eval s) (hpop : s.frontier.pop? κ = some (x, rest)) :
    (rest.waiting.entries.map (·.item.id)).Nodup := by
  obtain ⟨key, hentries⟩ := Ranked.entries_next? (Frontier.pop?_eq_some hpop)
  exact (List.nodup_cons.1 ((hentries.map _).nodup_iff.1 h.single)).2

theorem neat_start [OrderedScalar κ] [LawfulBEq σ] (P : Problem σ α κ) (policy : TimedPolicy)
    (heval : eval (SearchTree.rootNode P.initial) = .ok f) :
    Neat P eval ((fresh (Run.start P policy).1).enter (Run.start P policy).2 f) where
  sound := sound_start P policy heval
  ordered := Ranked.ordered_empty.add _ _
  stamped := Ranked.stamped_empty.add _ _
  single := by
    obtain ⟨arrival, hentries⟩ := entries_enter (fresh (Run.start P policy).1)
      (Run.start P policy).2 f
    exact (hentries.map _).nodup_iff.2 (List.nodup_singleton _)

theorem Neat.skip [OrderedScalar κ] (h : Neat P eval s)
    (hpop : s.frontier.pop? κ = some (x, rest)) (hstale : Stale s.opened x) :
    Neat P eval (s.skip rest) := by
  have hnext := Frontier.pop?_eq_some hpop
  obtain ⟨key, hentries⟩ := Ranked.entries_next? hnext
  have hmem : ∀ y ∈ rest.waiting.entries, y ∈ s.frontier.waiting.entries :=
    fun y hy => hentries.mem_iff.2 (List.mem_cons_of_mem _ hy)
  refine ⟨?_, (h.ordered.next? hnext).1, h.stamped.next? hnext, h.pop hpop⟩
  constructor
  case grown => exact h.sound.grown
  case counted => exact h.sound.counted.next? hnext
  case waiting => exact fun y hy => h.sound.waiting y (hmem y hy)
  case opened =>
    intro state e he
    obtain ⟨y, hy, hid, hstate, hf⟩ := h.sound.opened state e he
    rcases List.mem_cons.1 (hentries.mem_iff.1 hy) with rfl | hy
    · exact absurd hid.symm (hstale e (by rw [hstate]; exact he))
    · exact ⟨y, hy, hid, hstate, hf⟩
  case closed => exact h.sound.closed
  case apart => exact h.sound.apart

variable [LawfulBEq σ]

theorem Neat.turn [OrderedScalar κ] (h : Neat P eval s)
    (hpop : s.frontier.pop? κ = some (here, rest))
    (ht : Turn P eval reopening policy s here f rest run kids s') : Neat P eval s' := by
  obtain ⟨-, hoffers⟩ := ht.closes h.sound
  have hnext := Frontier.pop?_eq_some hpop
  obtain ⟨key, hentries⟩ := Ranked.entries_next? hnext
  refine ⟨h.sound.turn ht, ht.ordered h.sound h.ordered, hoffers.stamped (h.stamped.next? hnext),
    hoffers.single (h.pop hpop) ht.expands.nodup_ids fun kid hkid hmem => ?_⟩
  obtain ⟨y, hy, hid⟩ := List.mem_map.1 hmem
  have hheld := (h.sound.waiting y (hentries.mem_iff.2 (List.mem_cons_of_mem _ hy))).1
  have hlt : y.item.id < s.run.tree.size := SearchTree.get?_lt hheld
  have hle := ht.expands.size_le_id hkid
  omega

theorem Neat.pass [OrderedScalar κ] (h : Neat P eval s)
    (hpass : s.pass P eval reopening policy algorithm = .inr s') : Neat P eval s' := by
  rcases pass_cases h.sound.counted hpass with ⟨x, rest, hpop, hstale, rfl⟩ |
    ⟨_, _, _, _, _, hpop, ht⟩
  · exact h.skip hpop hstale
  · exact h.turn hpop ht

theorem Neat.passes [OrderedScalar κ] (h : Neat P eval s)
    (hpasses : Passes P eval reopening policy algorithm s s') : Neat P eval s' := by
  induction hpasses with
  | refl => exact h
  | tail _ hpass ih => exact ih.pass hpass

theorem Head.neat [OrderedScalar κ] (h : Head P eval reopening policy algorithm s) :
    Neat P eval s := by
  obtain ⟨f, heval, hpasses⟩ := h
  exact (neat_start P policy heval).passes hpasses

/-- An expanded state stays closed if none is reopened. -/
theorem Passes.closed (h : Neat P eval s) [OrderedScalar κ]
    (hpasses : Passes P eval .never policy algorithm s s') {state : σ} (hclosed : state ∈ s.closed) :
    state ∈ s'.closed := by
  induction hpasses with
  | refl => exact hclosed
  | @tail s₁ s₂ hbefore hpass ih =>
    have hneat : Neat P eval s₁ := h.passes hbefore
    rcases pass_cases hneat.sound.counted hpass with ⟨_, _, _, _, rfl⟩ |
      ⟨here, _, rest, run, kids, _, ht⟩
    · exact ih
    · have hsame := closed_offerAll_never eval policy (s₁.close here rest run) kids
      rw [ht.offers] at hsame
      rw [hsame]
      exact Std.HashMap.mem_insert.2 (.inr ih)

end

/-! ## The frontier serves the open states -/

/-- Each open state has one entry on the frontier, with the value that it waits with, and none is
closed. -/
structure Exact (s : BestFirst σ α κ) : Prop where
  apart : ∀ state ∈ s.opened, state ∉ s.closed
  single : ∀ (state : σ) (e : OpenEntry κ), s.opened[state]? = some e →
    (s.frontier.waiting.entries.map (·.item.id)).count e.node = 1
  entry : ∀ (state : σ) (e : OpenEntry κ), s.opened[state]? = some e → ∀ x ∈ s.frontier.waiting.entries,
    x.item.id = e.node → x.item.node.state = state ∧ x.key.priority = e.f

/-- The first entry on the frontier is live, and its node is taken. -/
def Takes (s : BestFirst σ α κ) (here : Placed σ α κ) : Prop :=
  ∃ f rest, s.frontier.pop? κ = some (here, rest) ∧
    s.opened[here.node.state]? = some ⟨here.id, f⟩

/-- The node is live on the frontier, and its entry has the least key of all those of open states. -/
def LeastOpen (s : BestFirst σ α κ) (here : Placed σ α κ) (f : κ) : Prop :=
  s.opened[here.node.state]? = some ⟨here.id, f⟩ ∧
  ∃ key : Key κ, key.priority = f ∧ ⟨key, here⟩ ∈ s.frontier.waiting.entries ∧
    ∀ (state : σ) (e : OpenEntry κ), s.opened[state]? = some e → e.node ≠ here.id →
      ∀ x ∈ s.frontier.waiting.entries, x.item.id = e.node → key.compare x.key = .lt

/-- The first live entry is before all others that stay on the frontier. -/
theorem Pops.first [OrderedScalar κ] {opened : Std.HashMap σ (OpenEntry κ)}
    {frontier : Frontier (Ranked κ) (Placed σ α κ)} (h : Pops opened here f rest frontier)
    (ho : frontier.waiting.Ordered) (hs : frontier.waiting.Stamped) :
    ∃ skipped key, frontier.waiting.entries ~ skipped ++ ⟨key, here⟩ :: rest.waiting.entries ∧
      (∀ x ∈ skipped, Stale opened x.item) ∧
      ∀ y ∈ rest.waiting.entries, key.compare y.key = .lt := by
  induction h with
  | live pop _ =>
    obtain ⟨key, hentries, hfirst⟩ := hs.first ho (Frontier.pop?_eq_some pop)
    exact ⟨[], key, hentries, by simp, hfirst⟩
  | @stale frontier next x pop stale _ ih =>
    have hnext := Frontier.pop?_eq_some pop
    obtain ⟨key', hentries⟩ := Ranked.entries_next? hnext
    obtain ⟨skipped, key, hrest, hskipped, hfirst⟩ := ih (ho.next? hnext).1 (hs.next? hnext)
    refine ⟨⟨key', x⟩ :: skipped, key, hentries.trans (hrest.cons _), ?_, hfirst⟩
    intro y hy
    rcases List.mem_cons.1 hy with rfl | hy
    · exact stale
    · exact hskipped y hy

variable [LawfulBEq σ]

theorem Neat.exact (h : Neat P eval s) : s.Exact where
  apart state hopen hclosed := by
    have hnone := h.sound.apart state _ (Std.HashMap.getElem?_eq_some_getElem hclosed)
    rw [Std.HashMap.getElem?_eq_some_getElem hopen] at hnone
    contradiction
  single state e he := by
    obtain ⟨x, hx, hid, -, -⟩ := h.sound.opened state e he
    exact List.count_eq_one_of_mem h.single (hid ▸ List.mem_map.2 ⟨x, hx, rfl⟩)
  entry state e he x hx hid := by
    obtain ⟨y, hy, hyid, hstate, hf⟩ := h.sound.opened state e he
    obtain rfl : x = y := List.inj_on_of_nodup_map h.single hx hy (hid.trans hyid.symm)
    exact ⟨hstate, hf⟩

theorem Neat.leastOpen [OrderedScalar κ] (h : Neat P eval s)
    (hnext : s.next? = some (here, f, rest)) : s.LeastOpen here f := by
  obtain ⟨-, hvalue, hentry⟩ := h.sound.next hnext
  obtain ⟨skipped, key, hentries, hskipped, hfirst⟩ :=
    (pops_of_next? hnext).first h.ordered h.stamped
  have hmem : ⟨key, here⟩ ∈ s.frontier.waiting.entries := hentries.mem_iff.2 (by simp)
  refine ⟨hentry, key, (h.exact.entry _ _ hentry _ hmem rfl).2, hmem, ?_⟩
  intro state e he hother x hx hid
  obtain ⟨hstate, -⟩ := h.exact.entry state e he x hx hid
  rcases List.mem_append.1 (hentries.mem_iff.1 hx) with hskip | hx
  · exact absurd hid.symm (hskipped x hskip e (by rw [hstate]; exact he))
  rcases List.mem_cons.1 hx with rfl | hx
  · exact absurd hid.symm hother
  · exact hfirst x hx

theorem Neat.exists_next (h : Neat P eval s) (hopen : s.opened.isEmpty = false) :
    ∃ here f rest, s.next? = some (here, f, rest) := by
  cases hnext : s.next? with
  | some next => exact ⟨next.1, next.2.1, next.2.2, rfl⟩
  | none =>
    obtain ⟨state, hstate⟩ := Std.HashMap.isEmpty_eq_false_iff_exists_mem.1 hopen
    have hnone := h.sound.opened_eq_none (.inr hnext) state
    rw [Std.HashMap.getElem?_eq_some_getElem hstate] at hnone
    contradiction

/-- If no state is reopened, a pass that takes a node closes its state for all later ones. -/
theorem Neat.takes_once [OrderedScalar κ] {s₁ : BestFirst σ α κ} {there : Placed σ α κ}
    (h : Neat P eval s) (htakes : s.Takes here)
    (hpass : s.pass P eval .never policy algorithm = .inr s₁)
    (hpasses : Passes P eval .never policy algorithm s₁ s') (hagain : s'.Takes there) :
    there.node.state ≠ here.node.state := by
  obtain ⟨f, rest, hpop, hentry⟩ := htakes
  have hneat : Neat P eval s₁ := h.pass hpass
  have hclosed : here.node.state ∈ s₁.closed := by
    rcases pass_cases h.sound.counted hpass with ⟨x, _, hpop', hstale, -⟩ |
      ⟨here', _, rest', run, kids, hpop', ht⟩
    · cases hpop.symm.trans hpop'
      exact absurd rfl (hstale _ hentry)
    · cases hpop.symm.trans hpop'
      have hsame := closed_offerAll_never eval policy (s.close here rest run) kids
      rw [ht.offers] at hsame
      rw [hsame]
      exact Std.HashMap.mem_insert_self
  obtain ⟨f', rest', -, hentry'⟩ := hagain
  have hopen : there.node.state ∈ s'.opened := Std.HashMap.isSome_getElem?_iff_mem.1 (by rw [hentry']; rfl)
  intro hsame
  rw [hsame] at hopen
  exact (hneat.passes hpasses).exact.apart _ hopen (Passes.closed hneat hpasses hclosed)

end BestFirst

open BestFirst

/-- **Lazy deletion keeps the frontier exact.** Best-first search is a sequence of passes that each
take one entry. At the head of every pass no state is both open and closed, and the frontier holds one
entry for each open state, with the value that it waits with; an entry of no open state is skipped,
which changes nothing else. While a state is open, passes that skip lead to the one whose entry is
least, by value and then by arrival, and take it. If none is reopened, no state is taken again. Values
may be undefined or infinite, for they are told apart by the total order of the frontier. -/
theorem lazyDeletion_exact {σ α κ : Type} [Scalar κ] [OrderedScalar κ] [BEq σ] [LawfulBEq σ]
    [Hashable σ] (P : Problem σ α κ) (eval : Evaluation σ α κ) (reopening : Reopening)
    (policy : TimedPolicy) (algorithm : String) :
    ((∃ violation, eval (SearchTree.rootNode P.initial) = .error violation ∧
        bestFirst P eval reopening policy algorithm =
          (Run.start P policy).1.finish algorithm (.contractViolation violation)) ∨
      ∃ s, Head P eval reopening policy algorithm s ∧
        s.pass P eval reopening policy algorithm =
          .inl (bestFirst P eval reopening policy algorithm)) ∧
    ∀ s, Head P eval reopening policy algorithm s →
      s.Exact ∧
      (s.opened.isEmpty = false →
        ∃ here f rest, s.next? = some (here, f, rest) ∧ s.LeastOpen here f ∧
          ((policy.stop? s.noted.stats.expansions : Option (Termination κ)) = none →
            ∃ s₁, Passes P eval reopening policy algorithm s s₁ ∧
              s₁.frontier.pop? κ = some (here, rest) ∧ s₁.opened = s.opened ∧ s₁.closed = s.closed ∧
              s₁.pass P eval reopening policy algorithm =
                s.take P eval reopening policy algorithm here f rest)) ∧
      (s.opened.isEmpty = false →
        (policy.stop? s.noted.stats.expansions : Option (Termination κ)) = none →
        ∀ x rest, s.frontier.pop? κ = some (x, rest) →
          (∀ (state : σ) (e : OpenEntry κ), s.opened[state]? = some e → e.node ≠ x.id) →
          s.pass P eval reopening policy algorithm = .inr (s.skip rest) ∧
            (s.skip rest).noted = s.noted) ∧
      (reopening = .never → ∀ here s₁ s' there, s.Takes here →
        s.pass P eval reopening policy algorithm = .inr s₁ →
        Passes P eval reopening policy algorithm s₁ s' → s'.Takes there →
        there.node.state ≠ here.node.state) := by
  refine ⟨bestFirst_passes P eval reopening policy algorithm, fun s hs => ?_⟩
  have hneat := hs.neat
  refine ⟨hneat.exact, fun hopen => ?_, fun hopen hstop x rest hpop hother => ?_, ?_⟩
  · obtain ⟨here, f, rest, hnext⟩ := hneat.exists_next hopen
    exact ⟨here, f, rest, hnext, hneat.leastOpen hnext,
      fun hstop => (pops_of_next? hnext).passes rfl rfl hstop⟩
  · exact ⟨pass_of_stale hopen hstop hpop fun e he => hother _ e he, noted_skip hpop⟩
  · rintro rfl here s₁ s' there htakes hpass hpasses hagain
    exact hneat.takes_once htakes hpass hpasses hagain

/-- Two ways from one place to the other, the second of which is worth more. -/
def twoWays : Problem Bool Bool ℚ where
  initial := false
  actions there := if there then [] else [false, true]
  result _ _ := true
  isGoal _ := false
  pathCost := Problem.unitCost
  heuristic := Problem.noEstimate

namespace twoWays

/-- The value of a node, by the way that leads to it. -/
def value : Evaluation Bool Bool ℚ := fun node =>
  .ok (match node.origin with
    | some (_, better) => if better then 1 else 3
    | none => 0)

/-- The search before its first pass. -/
def start : BestFirst Bool Bool ℚ := (fresh (Run.start twoWays {}).1).enter (Run.start twoWays {}).2 0

/-- The search once the first place was expanded. -/
def later? : Option (BestFirst Bool Bool ℚ) :=
  start.next?.bind fun (here, f, rest) =>
    (start.take twoWays value .never {} "" here f rest).getRight?

end twoWays

/-- Both ways wait for the other place, which is open by the better one alone. -/
theorem twoWays_exact : ∃ s, Head twoWays twoWays.value .never {} "" s ∧
    s.frontier.waiting.entries.map (·.item.id) = [2, 1] ∧
    s.opened[true]?.map (·.node) = some 2 ∧ s.Exact ∧
    ∃ here f rest, s.next? = some (here, f, rest) ∧ here.id = 2 ∧ s.LeastOpen here f := by
  have hfacts : twoWays.later?.map (fun s => (s.frontier.waiting.entries.map (·.item.id),
      s.opened[true]?.map (·.node), s.next?.map (·.1.id))) = some ([2, 1], some 2, some 2) := by cbv
  obtain ⟨s, hlater, hs⟩ := Option.map_eq_some_iff.1 hfacts
  obtain ⟨hentries, hopened, hid⟩ := by simpa only [Prod.mk.injEq] using hs
  obtain ⟨⟨root, f, rest⟩, hnext, htake⟩ := Option.bind_eq_some_iff.1 hlater
  have hhead : Head twoWays twoWays.value .never {} "" s :=
    Head.turn ⟨0, rfl, .refl⟩ hnext (by rfl) (Sum.getRight?_eq_some_iff.1 htake)
  have hopen : s.opened.isEmpty = false := by
    obtain ⟨e, he, -⟩ := Option.map_eq_some_iff.1 hopened
    exact isEmpty_eq_false_of_entry he
  obtain ⟨-, hheads⟩ := lazyDeletion_exact twoWays twoWays.value .never {} ""
  obtain ⟨hexact, hleast, -⟩ := hheads s hhead
  obtain ⟨here, f', rest', hnext', hleast, -⟩ := hleast hopen
  refine ⟨s, hhead, hentries, hopened, hexact, here, f', rest', hnext', ?_, hleast⟩
  rw [hnext'] at hid
  exact Option.some.inj hid

end ProblemSolving
