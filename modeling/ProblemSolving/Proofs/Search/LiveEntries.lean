import ProblemSolving.Proofs.Frontier.Contents
import ProblemSolving.Proofs.Search.Turns

/-!
# Live and stale entries

* `BestFirst.Stale` : an entry that a better one has replaced, or whose state no longer waits.
* `BestFirst.Pops` : the way to the next live entry, past stale ones.
* `BestFirst.Pops.least` : on a frontier in order, that entry is the least of all that stay.
-/

namespace ProblemSolving

namespace BestFirst

open scoped List

variable {σ α κ : Type} [Scalar κ] [BEq σ] [Hashable σ]

omit [Scalar κ] in
/-- The node is not the one that its state waits with. -/
def Stale (opened : Std.HashMap σ (OpenEntry κ)) (n : Placed σ α κ) : Prop :=
  ∀ e, opened[n.node.state]? = some e → e.node ≠ n.id

/-- Past stale nodes, the frontier comes to the node that its state waits with. -/
inductive Pops (opened : Std.HashMap σ (OpenEntry κ)) (here : Placed σ α κ) (f : κ)
    (rest : Frontier (Ranked κ) (Placed σ α κ)) : Frontier (Ranked κ) (Placed σ α κ) → Prop
  | live {frontier} (pop : frontier.pop? κ = some (here, rest))
      (entry : opened[here.node.state]? = some ⟨here.id, f⟩) : Pops opened here f rest frontier
  | stale {frontier next x} (pop : frontier.pop? κ = some (x, next)) (stale : Stale opened x)
      (later : Pops opened here f rest next) : Pops opened here f rest frontier

section
variable {opened : Std.HashMap σ (OpenEntry κ)}
  {frontier rest : Frontier (Ranked κ) (Placed σ α κ)} {here : Placed σ α κ} {f : κ}

omit [Scalar κ] in
theorem stale_or_entry (opened : Std.HashMap σ (OpenEntry κ)) (n : Placed σ α κ) :
    Stale opened n ∨ ∃ f, opened[n.node.state]? = some ⟨n.id, f⟩ := by
  cases hentry : opened[n.node.state]? with
  | none => exact .inl fun e he => by cases hentry.symm.trans he
  | some e =>
    obtain ⟨id, f⟩ := e
    by_cases hid : id = n.id
    · exact .inr ⟨f, by rw [hid]⟩
    · refine .inl fun e he => ?_
      cases hentry.symm.trans he
      exact hid

omit [Scalar κ] in
theorem isEmpty_eq_false_of_entry [EquivBEq σ] [LawfulHashable σ] {state : σ} {e : OpenEntry κ}
    (hentry : opened[state]? = some e) : opened.isEmpty = false := by
  refine eq_false_of_ne_true fun hempty => ?_
  cases hentry.symm.trans (Std.HashMap.getElem?_of_isEmpty hempty)

theorem popLive?_of_stale {next : Frontier (Ranked κ) (Placed σ α κ)} {x : Placed σ α κ}
    (pop : frontier.pop? κ = some (x, next)) (h : Stale opened x) (entries : Nat) :
    popLive? opened (entries + 1) frontier = popLive? opened entries next := by
  rw [popLive?, pop]
  dsimp only
  split
  next e he =>
    have hne : e.node ≠ x.id := h e (by rw [← Std.HashMap.get?_eq_getElem?]; exact he)
    rw [if_neg hne]
  next => rfl

theorem popLive?_of_entry {next : Frontier (Ranked κ) (Placed σ α κ)} {x : Placed σ α κ} {f : κ}
    (pop : frontier.pop? κ = some (x, next)) (h : opened[x.node.state]? = some ⟨x.id, f⟩)
    (entries : Nat) : popLive? opened (entries + 1) frontier = some (x, f, next) := by
  rw [popLive?, pop]
  simp [h]

theorem pops_of_popLive? {entries : Nat}
    (h : popLive? opened entries frontier = some (here, f, rest)) :
    Pops opened here f rest frontier := by
  induction entries generalizing frontier with
  | zero => simp [popLive?] at h
  | succ entries ih =>
    cases hpop : frontier.pop? κ with
    | none => simp [popLive?, hpop] at h
    | some popped =>
      obtain ⟨x, next⟩ := popped
      rcases stale_or_entry opened x with hstale | ⟨f', hentry⟩
      · rw [popLive?_of_stale hpop hstale] at h
        exact .stale hpop hstale (ih h)
      · rw [popLive?_of_entry hpop hentry] at h
        cases h
        exact .live hpop hentry

theorem stale_of_popLive?_none {entries : Nat}
    (hsize : frontier.waiting.entries.length ≤ entries)
    (h : popLive? opened entries frontier = none) :
    ∀ x ∈ frontier.waiting.entries, Stale opened x.item := by
  induction entries generalizing frontier with
  | zero =>
    intro x hx
    have := List.length_pos_of_mem hx
    omega
  | succ entries ih =>
    cases hpop : frontier.pop? κ with
    | none =>
      rw [Ranked.next?_eq_none (Frontier.pop?_eq_none hpop)]
      simp
    | some popped =>
      obtain ⟨x, next⟩ := popped
      obtain ⟨key, hentries⟩ := Ranked.entries_next? (Frontier.pop?_eq_some hpop)
      have hlen := hentries.length_eq
      rw [List.length_cons] at hlen
      rcases stale_or_entry opened x with hstale | ⟨f', hentry⟩
      · rw [popLive?_of_stale hpop hstale] at h
        intro y hy
        rcases List.mem_cons.1 (hentries.mem_iff.1 hy) with rfl | hy
        · exact hstale
        · exact ih (by omega) h y hy
      · rw [popLive?_of_entry hpop hentry] at h
        contradiction

/-- Everything but the node and the stale entries before it stays on the frontier. -/
theorem Pops.entries (h : Pops opened here f rest frontier) :
    ∃ skipped key, frontier.waiting.entries ~ skipped ++ ⟨key, here⟩ :: rest.waiting.entries ∧
      ∀ x ∈ skipped, Stale opened x.item := by
  induction h with
  | live pop entry =>
    obtain ⟨key, hentries⟩ := Ranked.entries_next? (Frontier.pop?_eq_some pop)
    exact ⟨[], key, hentries, by simp⟩
  | @stale frontier next x pop stale later ih =>
    obtain ⟨key', hentries⟩ := Ranked.entries_next? (Frontier.pop?_eq_some pop)
    obtain ⟨skipped, key, hrest, hskipped⟩ := ih
    refine ⟨⟨key', x⟩ :: skipped, key, hentries.trans (hrest.cons _), ?_⟩
    intro y hy
    rcases List.mem_cons.1 hy with rfl | hy
    · exact stale
    · exact hskipped y hy

theorem Pops.entry (h : Pops opened here f rest frontier) :
    opened[here.node.state]? = some ⟨here.id, f⟩ := by
  induction h with
  | live _ entry => exact entry
  | stale _ _ _ ih => exact ih

theorem Pops.counted (h : Pops opened here f rest frontier)
    (hcounted : frontier.waiting.Counted) : rest.waiting.Counted := by
  induction h with
  | live pop _ => exact hcounted.next? (Frontier.pop?_eq_some pop)
  | stale pop _ _ ih => exact ih (hcounted.next? (Frontier.pop?_eq_some pop))

/-- On a frontier in order, the node has the least priority of all that stays. -/
theorem Pops.least [OrderedScalar κ] (h : Pops opened here f rest frontier)
    (ho : frontier.waiting.Ordered) :
    rest.waiting.Ordered ∧ ∃ key, ⟨key, here⟩ ∈ frontier.waiting.entries ∧
      ∀ y ∈ rest.waiting.entries, (Scalar.rank key.priority y.key.priority).isLE := by
  induction h with
  | live pop _ =>
    obtain ⟨horest, key, hentries, hleast⟩ := ho.next? (Frontier.pop?_eq_some pop)
    exact ⟨horest, key, hentries.mem_iff.2 (List.mem_cons_self ..), hleast⟩
  | stale pop _ _ ih =>
    obtain ⟨honext, key', hentries, -⟩ := ho.next? (Frontier.pop?_eq_some pop)
    obtain ⟨horest, key, hmem, hleast⟩ := ih honext
    exact ⟨horest, key, hentries.mem_iff.2 (List.mem_cons_of_mem _ hmem), hleast⟩

end

end BestFirst

end ProblemSolving
