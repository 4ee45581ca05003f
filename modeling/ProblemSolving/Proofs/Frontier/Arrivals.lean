import ProblemSolving.Proofs.Frontier.Contents

/-!
# Arrivals

* `Ranked.Stamped` : every entry has an arrival number of its own.
* `Ranked.Stamped.first` : so what comes next in order is before all others, not merely not after.
* `Ranked.Lines` : the entries of a ranking in the order in which they leave it.
* `Ranked.Lines.next?` : the first of the line is what comes next.
* `Ranked.Lines.add_last` : what is not before anything that waits goes to the end.
-/

namespace ProblemSolving

namespace Ranked

open scoped List

variable {κ ε : Type} [Scalar κ]

/-! ## Arrival numbers -/

/-- Every entry has an arrival number of its own, one that was given out. -/
structure Stamped (r : Ranked κ ε) : Prop where
  nodup : (r.entries.map (·.key.arrival)).Nodup
  arrived : ∀ x ∈ r.entries, x.key.arrival < r.arrivals

omit [Scalar κ] in
theorem stamped_empty : (empty : Ranked κ ε).Stamped := ⟨.nil, by simp⟩

theorem Stamped.add {r : Ranked κ ε} (h : r.Stamped) (x : ε) (priority : κ) :
    (r.add x priority).Stamped := by
  have hentries := r.entries_add x priority
  constructor
  case nodup =>
    rw [(hentries.map _).nodup_iff, List.map_cons, List.nodup_cons]
    refine ⟨fun hmem => ?_, h.nodup⟩
    obtain ⟨y, hy, harrival⟩ := List.mem_map.1 hmem
    have hlt := h.arrived y hy
    rw [harrival] at hlt
    exact Nat.lt_irrefl _ hlt
  case arrived =>
    intro y hy
    show y.key.arrival < r.arrivals + 1
    rcases List.mem_cons.1 (hentries.mem_iff.1 hy) with rfl | hy
    · exact Nat.lt_succ_self _
    · exact Nat.lt_succ_of_lt (h.arrived y hy)

theorem Stamped.next? {r r' : Ranked κ ε} {x : ε} (h : r.Stamped)
    (hnext : r.next? = some (x, r')) : r'.Stamped := by
  obtain ⟨key, hhead, rfl⟩ := next?_eq_some hnext
  have hentries : r.entries ~ ⟨key, x⟩ :: (r.heap.tail Entry.le).toList := Heap.tail_perm hhead
  have hnodup := h.nodup
  rw [(hentries.map _).nodup_iff, List.map_cons, List.nodup_cons] at hnodup
  exact ⟨hnodup.2, fun y hy => h.arrived y (hentries.mem_iff.2 (List.mem_cons_of_mem _ hy))⟩

theorem compare_eq_lt {a b : Key κ} (hle : (a.compare b).isLE)
    (hne : a.arrival ≠ b.arrival) : a.compare b = .lt := by
  cases hcmp : a.compare b with
  | lt => rfl
  | eq => exact absurd (Nat.compare_eq_eq.1 (Ordering.then_eq_eq.1 hcmp).2) hne
  | gt => rw [hcmp] at hle; contradiction

/-- What comes next in order is before everything else. -/
theorem Stamped.first [OrderedScalar κ] {r r' : Ranked κ ε} {x : ε} (h : r.Stamped)
    (ho : r.Ordered) (hnext : r.next? = some (x, r')) :
    ∃ key, r.entries ~ ⟨key, x⟩ :: r'.entries ∧ ∀ y ∈ r'.entries, key.compare y.key = .lt := by
  obtain ⟨key, hhead, rfl⟩ := next?_eq_some hnext
  have hentries : r.entries ~ ⟨key, x⟩ :: (r.heap.tail Entry.le).toList := Heap.tail_perm hhead
  refine ⟨key, hentries, fun y hy => ?_⟩
  have hnodup := h.nodup
  rw [(hentries.map _).nodup_iff, List.map_cons, List.nodup_cons] at hnodup
  apply compare_eq_lt (Heap.head_le ho hhead y hy)
  intro harrival
  exact hnodup.1 (List.mem_map.2 ⟨y, hy, harrival.symm⟩)

/-! ## Lines -/

/-- The entries of a ranking, each one before those behind it. -/
structure Lines (r : Ranked κ ε) (line : List (Entry κ ε)) : Prop where
  ordered : r.Ordered
  counted : r.Counted
  entries : r.entries ~ line
  ascending : line.Pairwise fun a b => a.key.compare b.key = .lt
  arrived : ∀ x ∈ line, x.key.arrival < r.arrivals

theorem lines_empty : (empty : Ranked κ ε).Lines [] :=
  ⟨ordered_empty, counted_empty, .refl _, .nil, by simp⟩

variable {r : Ranked κ ε} {line : List (Entry κ ε)} {e : Entry κ ε}

theorem Lines.size_eq (h : r.Lines line) : r.size = line.length :=
  h.counted.trans h.entries.length_eq

variable [OrderedScalar κ]

/-- What arrives with a priority that no other one exceeds goes to the end. -/
theorem Lines.add_last (h : r.Lines line) (x : ε) {priority : κ}
    (hlast : ∀ y ∈ line, (Scalar.rank y.key.priority priority).isLE) :
    (r.add x priority).Lines (line ++ [⟨⟨priority, r.arrivals⟩, x⟩]) := by
  constructor
  case ordered => exact h.ordered.add x priority
  case counted => exact h.counted.add x priority
  case entries =>
    calc (r.add x priority).entries
      _ ~ ⟨⟨priority, r.arrivals⟩, x⟩ :: r.entries := entries_add ..
      _ ~ ⟨⟨priority, r.arrivals⟩, x⟩ :: line := h.entries.cons _
      _ ~ line ++ [⟨⟨priority, r.arrivals⟩, x⟩] := (List.perm_append_singleton _ _).symm
  case ascending =>
    refine List.pairwise_append.2 ⟨h.ascending, List.pairwise_singleton _ _, ?_⟩
    intro y hy z hz
    obtain rfl := List.mem_singleton.1 hz
    have harrival : compare y.key.arrival r.arrivals = .lt :=
      Nat.compare_eq_lt.2 (h.arrived y hy)
    have hrank := hlast y hy
    unfold Key.compare
    dsimp only
    rw [harrival]
    cases hcmp : Scalar.rank y.key.priority priority with
    | gt => rw [hcmp] at hrank; contradiction
    | _ => rfl
  case arrived =>
    intro y hy
    show y.key.arrival < r.arrivals + 1
    rcases List.mem_append.1 hy with hold | hnew
    · exact Nat.lt_succ_of_lt (h.arrived y hold)
    · obtain rfl := List.mem_singleton.1 hnew
      exact Nat.lt_succ_self _

/-- The first of the line comes next, and the others are still in line. -/
theorem Lines.next? (h : r.Lines (e :: line)) :
    ∃ r', r.next? = some (e.item, r') ∧ r'.Lines line := by
  obtain ⟨hfirst, hascending⟩ := List.pairwise_cons.1 h.ascending
  cases hhead : r.heap.head? with
  | none =>
    have hnil : r.entries = [] := Heap.head?_eq_none.1 hhead
    have hlen := h.entries.length_eq
    rw [hnil] at hlen
    cases hlen
  | some x =>
    have hperm : r.entries ~ x :: (r.heap.tail Entry.le).toList := Heap.tail_perm hhead
    have hx : x = e := by
      have hmem := h.entries.mem_iff.1 (hperm.mem_iff.2 (List.mem_cons_self ..))
      rcases List.mem_cons.1 hmem with rfl | hlater
      · rfl
      have hlt := hfirst x hlater
      have hcmp : Std.OrientedCmp (Key.compare (κ := κ)) := inferInstance
      have hgt : x.key.compare e.key = .gt := by rw [hcmp.eq_swap, hlt]; rfl
      have he := hperm.mem_iff.1 (h.entries.mem_iff.2 (List.mem_cons_self ..))
      rcases List.mem_cons.1 he with rfl | he
      · rfl
      · have hle : (x.key.compare e.key).isLE = true := Heap.head_le h.ordered hhead e he
        rw [hgt] at hle
        contradiction
    subst hx
    have hnext : r.next? = some (x.item, ⟨r.heap.tail Entry.le, r.arrivals, r.size - 1⟩) := by
      unfold Ranked.next?
      rw [hhead]
      rfl
    refine ⟨_, hnext, ?_⟩
    constructor
    case ordered => exact (h.ordered.next? hnext).1
    case counted => exact h.counted.next? hnext
    case entries => exact (hperm.symm.trans h.entries).cons_inv
    case ascending => exact hascending
    case arrived => exact fun y hy => h.arrived y (List.mem_cons_of_mem _ hy)

end Ranked

end ProblemSolving
