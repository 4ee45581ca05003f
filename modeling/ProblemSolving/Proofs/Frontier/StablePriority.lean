import Mathlib.Data.List.Infix
import Mathlib.Data.List.ReduceOption
import Mathlib.Order.Bounds.Basic
import ProblemSolving.Proofs.Frontier.Arrivals

/-!
# The ranking is a stable priority queue

* `Request`, `Service` : pushes and pops in any order, and what a frontier makes of them.
* `IsFirst` : what a stable priority queue gives next, of the entries that are pending.
* `StableHistory` : what a stable priority queue answers to requests, and what it still holds.
* `Service.Serves` : a ranking stands where such a queue does; every request keeps this.
* `Service.isGreatest_highWater` : the most items that a frontier ever held.
* `Service.answers_eq_of_constant` : with one priority for all, a ranking answers as a queue does.
* `priorityFrontier_stable` : so a ranking is a stable priority queue, over whatever priorities.
-/

namespace ProblemSolving

open scoped List

/-- What is asked of a frontier: to take in an item, or to give the next one. -/
inductive Request (κ ε : Type) where
  | push (item : ε) (priority : κ)
  | pop

/-- A frontier with its answers so far, one for each pop: the item that it gave, or `none` if nothing
waited. -/
structure Service (δ : Type → Type) (ε : Type) where
  frontier : Frontier δ ε
  answers : List (Option ε)

namespace Service

variable {δ : Type → Type} {κ ε : Type} [Discipline δ κ]

def handle (s : Service δ ε) : Request κ ε → Service δ ε
  | .push item priority => { s with frontier := s.frontier.push item priority }
  | .pop =>
    match s.frontier.pop? κ with
    | some (item, rest) => ⟨rest, s.answers ++ [some item]⟩
    | none => ⟨s.frontier, s.answers ++ [none]⟩

variable (δ) in
/-- The service from an empty frontier on. -/
def after (requests : List (Request κ ε)) : Service δ ε :=
  requests.foldl handle ⟨Frontier.empty κ, []⟩

theorem after_append_singleton (requests : List (Request κ ε)) (q : Request κ ε) :
    after δ (requests ++ [q]) = (after δ requests).handle q := by
  unfold after
  rw [List.foldl_append, List.foldl_cons, List.foldl_nil]

section
variable {s : Service δ ε} {x : ε} {rest : Frontier δ ε}

theorem handle_pop_of_some (h : s.frontier.pop? κ = some (x, rest)) :
    s.handle (.pop : Request κ ε) = ⟨rest, s.answers ++ [some x]⟩ := by
  simp only [handle, h]

theorem handle_pop_of_none (h : s.frontier.pop? κ = none) :
    s.handle (.pop : Request κ ε) = ⟨s.frontier, s.answers ++ [none]⟩ := by
  simp only [handle, h]

end

end Service

/-! ## Stable priority queues -/

section
variable {κ ε : Type}

/-- What was pushed, with its priority. -/
def Request.pushed? : Request κ ε → Option (ε × κ)
  | push item priority => some (item, priority)
  | pop => none

/-- The entries of all pushes among the requests, in their order; the arrival of each is the number of
pushes before it. -/
def pushedEntries (requests : List (Request κ ε)) : List (Entry κ ε) :=
  (requests.filterMap Request.pushed?).zipIdx.map fun ((item, priority), arrival) =>
    ⟨⟨priority, arrival⟩, item⟩

theorem pushedEntries_push (requests : List (Request κ ε)) (x : ε) (priority : κ) :
    pushedEntries (requests ++ [.push x priority]) =
      pushedEntries requests ++ [⟨⟨priority, (pushedEntries requests).length⟩, x⟩] := by
  simp [pushedEntries, Request.pushed?, List.zipIdx_append]

theorem pushedEntries_pop (requests : List (Request κ ε)) :
    pushedEntries (requests ++ [.pop]) = pushedEntries requests := by
  have hpop : [(.pop : Request κ ε)].filterMap Request.pushed? = [] := rfl
  simp [pushedEntries, hpop]

theorem nodup_arrivals (requests : List (Request κ ε)) :
    ((pushedEntries requests).map (·.key.arrival)).Nodup := by
  unfold pushedEntries
  rw [List.map_map]
  show ((requests.filterMap Request.pushed?).zipIdx.map Prod.snd).Nodup
  rw [List.zipIdx_map_snd]
  exact List.nodup_range'

variable [Scalar κ]

/-- The pending entry that comes first: none has a lesser priority, and of those with the same
priority none arrived earlier. -/
structure IsFirst (e : Entry κ ε) (pending : List (Entry κ ε)) : Prop where
  mem : e ∈ pending
  least : ∀ other ∈ pending, (Scalar.rank e.key.priority other.key.priority).isLE
  earliest : ∀ other ∈ pending,
    Scalar.rank e.key.priority other.key.priority = .eq → e.key.arrival ≤ other.key.arrival

theorem IsFirst.perm {e : Entry κ ε} {pending pending' : List (Entry κ ε)}
    (h : IsFirst e pending) (hperm : pending ~ pending') : IsFirst e pending' where
  mem := hperm.mem_iff.1 h.mem
  least other hother := h.least other (hperm.mem_iff.2 hother)
  earliest other hother := h.earliest other (hperm.mem_iff.2 hother)

/-- A stable priority queue that was asked these requests has given these answers, and holds these
entries, the earliest first. -/
inductive StableHistory :
    List (Request κ ε) → List (Option (Entry κ ε)) → List (Entry κ ε) → Prop
  | start : StableHistory [] [] []
  | push {requests : List (Request κ ε)} {answers : List (Option (Entry κ ε))}
      {pending : List (Entry κ ε)} (h : StableHistory requests answers pending) (item : ε)
      (priority : κ) :
      StableHistory (requests ++ [.push item priority]) answers
        (pending ++ [⟨⟨priority, (pushedEntries requests).length⟩, item⟩])
  | pop {requests : List (Request κ ε)} {answers : List (Option (Entry κ ε))} {e : Entry κ ε}
      {before behind : List (Entry κ ε)}
      (h : StableHistory requests answers (before ++ e :: behind))
      (first : IsFirst e (before ++ e :: behind)) :
      StableHistory (requests ++ [.pop]) (answers ++ [some e]) (before ++ behind)
  | idle {requests : List (Request κ ε)} {answers : List (Option (Entry κ ε))}
      (h : StableHistory requests answers []) :
      StableHistory (requests ++ [.pop]) (answers ++ [none]) []

theorem StableHistory.perm {requests : List (Request κ ε)} {answers : List (Option (Entry κ ε))}
    {pending : List (Entry κ ε)} (h : StableHistory requests answers pending) :
    answers.reduceOption ++ pending ~ pushedEntries requests := by
  induction h with
  | start => exact .refl _
  | push h item priority ih =>
    rw [pushedEntries_push, ← List.append_assoc]
    exact ih.append_right _
  | @pop requests answers e before behind h first ih =>
    rw [pushedEntries_pop, List.reduceOption_append, List.reduceOption_singleton]
    have hmoved : e :: (before ++ behind) ~ before ++ e :: behind := List.perm_middle.symm
    refine .trans ?_ ih
    rw [List.append_assoc]
    exact hmoved.append_left _
  | idle h ih =>
    rw [pushedEntries_pop, List.reduceOption_append]
    simpa using ih

/-! ## What a ranking gives -/

namespace Ranked

variable {r : Ranked κ ε} {e : Entry κ ε}

theorem arrival_le_of_le {a b : Entry κ ε} (h : Entry.le a b = true)
    (hrank : Scalar.rank a.key.priority b.key.priority = .eq) : a.key.arrival ≤ b.key.arrival := by
  unfold Entry.le Key.compare at h
  rw [hrank, Ordering.eq_then] at h
  exact Nat.isLE_compare.1 h

theorem next?_of_head (h : r.heap.head? = some e) :
    r.next? = some (e.item, ⟨r.heap.tail Entry.le, r.arrivals, r.size - 1⟩) := by
  unfold next?
  rw [h, Option.map_some]

theorem next?_eq_none_iff : r.next? = none ↔ r.entries = [] :=
  Option.map_eq_none_iff.trans Heap.head?_eq_none

omit [Scalar κ] in
theorem peekKey?_eq_none_iff : r.peekKey? = none ↔ r.entries = [] :=
  Option.map_eq_none_iff.trans Heap.head?_eq_none

variable [OrderedScalar κ]

theorem Ordered.isFirst (h : r.Ordered) (hhead : r.heap.head? = some e) : IsFirst e r.entries := by
  have hentries : r.entries ~ e :: (r.heap.tail Entry.le).toList := Heap.tail_perm hhead
  have hself : Entry.le e e = true := or_self_iff.1 (le_total e e)
  have hle : ∀ other ∈ r.entries, Entry.le e other = true := by
    intro other hother
    rcases List.mem_cons.1 (hentries.mem_iff.1 hother) with rfl | hrest
    · exact hself
    · exact Heap.head_le h hhead other hrest
  exact ⟨hentries.mem_iff.2 (List.mem_cons_self ..), fun other hother => rank_of_le (hle other hother),
    fun other hother => arrival_le_of_le (hle other hother)⟩

end Ranked

end

namespace Service

variable {κ ε : Type} [Scalar κ]

/-! ## A ranking beside a stable priority queue -/

/-- The ranking holds what a stable priority queue holds after these requests, and has given the same
answers. -/
structure Serves (s : Service (Ranked κ) ε) (requests : List (Request κ ε))
    (answers : List (Option (Entry κ ε))) (pending : List (Entry κ ε)) : Prop where
  history : StableHistory requests answers pending
  answers : s.answers = answers.map (Option.map (·.item))
  ordered : s.frontier.waiting.Ordered
  counted : s.frontier.waiting.Counted
  arrivals : s.frontier.waiting.arrivals = (pushedEntries requests).length
  entries : s.frontier.waiting.entries ~ pending

variable {s : Service (Ranked κ) ε} {requests : List (Request κ ε)}
  {answers : List (Option (Entry κ ε))} {pending : List (Entry κ ε)}

theorem serves_start :
    Serves (after (Ranked κ) ([] : List (Request κ ε))) ([] : List (Request κ ε)) [] [] :=
  ⟨.start, rfl, Ranked.ordered_empty, Ranked.counted_empty, rfl, .refl _⟩

theorem Serves.size_eq (h : Serves s requests answers pending) :
    s.frontier.size κ = pending.length :=
  h.counted.trans h.entries.length_eq

variable [OrderedScalar κ]

theorem Serves.push (h : Serves s requests answers pending) (x : ε) (priority : κ) :
    ∃ answers' pending',
      Serves (s.handle (.push x priority)) (requests ++ [.push x priority]) answers' pending' := by
  refine ⟨answers, _, h.history.push x priority, h.answers, h.ordered.add x priority,
    h.counted.add x priority, ?_, ?_⟩
  · show s.frontier.waiting.arrivals + 1 = _
    rw [pushedEntries_push, List.length_append, List.length_singleton, h.arrivals]
  · calc (s.frontier.waiting.add x priority).entries
      _ ~ ⟨⟨priority, s.frontier.waiting.arrivals⟩, x⟩ :: s.frontier.waiting.entries :=
        Ranked.entries_add ..
      _ ~ ⟨⟨priority, s.frontier.waiting.arrivals⟩, x⟩ :: pending := h.entries.cons _
      _ ~ pending ++ [⟨⟨priority, (pushedEntries requests).length⟩, x⟩] := by
        rw [h.arrivals]
        exact (List.perm_append_singleton _ _).symm

/-- What a pop gives is first among the pending entries, and the others are still pending. -/
theorem Serves.pop (h : Serves s requests answers pending) :
    ∃ answers' pending',
      Serves (s.handle (.pop : Request κ ε)) (requests ++ [.pop]) answers' pending' := by
  have harrivals := h.arrivals
  rw [← pushedEntries_pop] at harrivals
  cases hhead : s.frontier.waiting.heap.head? with
  | none =>
    have hnil : s.frontier.waiting.entries = [] := Heap.head?_eq_none.1 hhead
    have hpending : pending = [] := List.nil_perm.1 (hnil ▸ h.entries)
    have hhistory := h.history
    subst hpending
    have hpop : s.frontier.pop? κ = none :=
      Option.map_eq_none_iff.2 (Ranked.next?_eq_none_iff.2 hnil)
    rw [handle_pop_of_none hpop]
    refine ⟨_, _, hhistory.idle, ?_, h.ordered, h.counted, harrivals, h.entries⟩
    simp [h.answers]
  | some e =>
    have hfirst := (h.ordered.isFirst hhead).perm h.entries
    have hnext := Ranked.next?_of_head hhead
    obtain ⟨before, behind, hsplit⟩ := List.append_of_mem hfirst.mem
    have hhistory := h.history
    rw [hsplit] at hhistory hfirst
    have hpop : s.frontier.pop? κ = some (e.item, { s.frontier with waiting :=
        ⟨s.frontier.waiting.heap.tail Entry.le, s.frontier.waiting.arrivals,
          s.frontier.waiting.size - 1⟩ }) := by
      unfold Frontier.pop?
      rw [show Discipline.next? κ s.frontier.waiting = _ from hnext, Option.map_some]
    have hperm : s.frontier.waiting.entries ~
        e :: (s.frontier.waiting.heap.tail Entry.le).toList := Heap.tail_perm hhead
    have hrest : e :: (s.frontier.waiting.heap.tail Entry.le).toList ~ e :: (before ++ behind) :=
      (hperm.symm.trans (hsplit ▸ h.entries)).trans List.perm_middle
    rw [handle_pop_of_some hpop]
    refine ⟨_, _, hhistory.pop hfirst, ?_, (h.ordered.next? hnext).1, h.counted.next? hnext,
      harrivals, hrest.cons_inv⟩
    simp [h.answers]

theorem exists_serves (requests : List (Request κ ε)) :
    ∃ answers pending, Serves (after (Ranked κ) requests) requests answers pending := by
  induction requests using List.reverseRecOn with
  | nil => exact ⟨_, _, serves_start⟩
  | append_singleton requests q ih =>
    obtain ⟨answers, pending, h⟩ := ih
    rw [after_append_singleton]
    cases q with
    | push x priority => exact h.push x priority
    | pop => exact h.pop

theorem Serves.peekKey? (h : Serves s requests answers pending) :
    (∀ key, s.frontier.waiting.peekKey? = some key → ∃ e, IsFirst e pending ∧ e.key = key) ∧
      (s.frontier.waiting.peekKey? = none ↔ pending = []) := by
  constructor
  · intro key hkey
    obtain ⟨e, hhead, rfl⟩ := Option.map_eq_some_iff.1 hkey
    exact ⟨e, (h.ordered.isFirst hhead).perm h.entries, rfl⟩
  · rw [Ranked.peekKey?_eq_none_iff]
    constructor
    · intro hnil
      exact List.nil_perm.1 (hnil ▸ h.entries)
    · rintro rfl
      exact h.entries.eq_nil

/-! ## The most that ever waited -/

section
variable {δ : Type → Type} [Discipline δ κ] [LawfulDiscipline δ κ]

omit [Scalar κ] [OrderedScalar κ] in
theorem sound_after (requests : List (Request κ ε)) : (after δ requests).frontier.Sound κ := by
  induction requests using List.reverseRecOn with
  | nil => exact Frontier.sound_empty
  | append_singleton requests q ih =>
    rw [after_append_singleton]
    cases q with
    | push x priority => exact ih.push x priority
    | pop =>
      cases hpop : (after δ requests).frontier.pop? κ with
      | none =>
        rw [handle_pop_of_none hpop]
        exact ih
      | some popped =>
        rw [handle_pop_of_some hpop]
        exact (ih.pop? hpop).1

omit [Scalar κ] [OrderedScalar κ] in
/-- A request may raise the mark, to what waits after it. -/
theorem highWater_handle {s : Service δ ε} (hsound : s.frontier.Sound κ)
    (hmark : s.frontier.size κ ≤ s.frontier.highWater) (q : Request κ ε) :
    (s.handle q).frontier.highWater =
      max ((s.handle q).frontier.size κ) s.frontier.highWater := by
  cases q with
  | push x priority => exact Nat.max_comm ..
  | pop =>
    cases hpop : s.frontier.pop? κ with
    | none =>
      rw [handle_pop_of_none hpop]
      exact (Nat.max_eq_right hmark).symm
    | some popped =>
      have hsize := hsound.size_pop? hpop
      have hsame : popped.2.highWater = s.frontier.highWater := Frontier.highWater_pop? hpop
      rw [handle_pop_of_some hpop]
      dsimp only
      omega

omit [Scalar κ] [OrderedScalar κ] in
/-- A frontier remembers the most that it ever held. -/
theorem isGreatest_highWater (requests : List (Request κ ε)) :
    IsGreatest {n | ∃ earlier, earlier <+: requests ∧ (after δ earlier).frontier.size κ = n}
      (after δ requests).frontier.highWater := by
  induction requests using List.reverseRecOn with
  | nil =>
    have hempty : (after δ ([] : List (Request κ ε))).frontier.size κ = 0 := by
      rw [(sound_after []).size_eq]
      exact congrArg List.length Frontier.items_empty
    refine ⟨⟨[], List.prefix_rfl, hempty⟩, ?_⟩
    rintro n ⟨earlier, hearlier, rfl⟩
    rw [List.prefix_nil.1 hearlier, hempty]
    exact Nat.zero_le _
  | append_singleton requests q ih =>
    have hmark := ih.2 ⟨requests, List.prefix_rfl, rfl⟩
    have hsizes : {n | ∃ earlier, earlier <+: requests ++ [q] ∧
          (after δ earlier).frontier.size κ = n} =
        insert ((after δ (requests ++ [q])).frontier.size κ)
          {n | ∃ earlier, earlier <+: requests ∧ (after δ earlier).frontier.size κ = n} := by
      ext n
      simp only [List.prefix_concat_iff, Set.mem_insert_iff, Set.mem_ofPred_eq]
      constructor
      · rintro ⟨earlier, rfl | hearlier, rfl⟩
        · exact .inl rfl
        · exact .inr ⟨earlier, hearlier, rfl⟩
      · rintro (rfl | ⟨earlier, hearlier, rfl⟩)
        · exact ⟨_, .inl rfl, rfl⟩
        · exact ⟨earlier, .inr hearlier, rfl⟩
    rw [hsizes, after_append_singleton, highWater_handle (sound_after requests) hmark]
    exact ih.insert _

end

/-! ## One priority for all -/

/-- A ranking and a queue hold the same items in the same line, and have given the same answers. -/
structure SameLine (c : κ) (s : Service (Ranked κ) ε) (t : Service Queue ε) : Prop where
  answers : s.answers = t.answers
  sound : t.frontier.Sound κ
  line : ∃ line, s.frontier.waiting.Lines line ∧ line.map (·.item) = t.frontier.items κ ∧
    ∀ e ∈ line, e.key.priority = c

variable {c : κ} {t : Service Queue ε}

theorem SameLine.push (h : SameLine c s t) (x : ε) :
    SameLine c (s.handle (.push x c)) (t.handle (.push x c)) := by
  obtain ⟨line, hline, hitems, hsame⟩ := h.line
  have hlast : ∀ e ∈ line, (Scalar.rank e.key.priority c).isLE := by
    intro e he
    have hrefl : Std.ReflCmp (Scalar.rank : κ → κ → Ordering) := inferInstance
    rw [hsame e he, hrefl.compare_self]
    rfl
  refine ⟨h.answers, h.sound.push x c, _, hline.add_last x hlast, ?_, ?_⟩
  · rw [List.map_append, hitems]
    exact (Frontier.items_push_queue h.sound x c).symm
  · simpa [or_imp, forall_and] using hsame

/-- The first of the line leaves both, or both are empty. -/
theorem SameLine.pop (h : SameLine c s t) :
    SameLine c (s.handle (.pop : Request κ ε)) (t.handle (.pop : Request κ ε)) := by
  obtain ⟨line, hline, hitems, hsame⟩ := h.line
  cases line with
  | nil =>
    have hnil : s.frontier.waiting.entries = [] := List.perm_nil.1 hline.entries
    have hranking : s.frontier.pop? κ = none :=
      Option.map_eq_none_iff.2 (Ranked.next?_eq_none_iff.2 hnil)
    have hqueue : t.frontier.pop? κ = none := by
      cases hpop : t.frontier.pop? κ with
      | none => rfl
      | some popped =>
        rw [Frontier.items_pop?_queue hpop] at hitems
        cases hitems
    rw [handle_pop_of_none hranking, handle_pop_of_none hqueue]
    exact ⟨by rw [h.answers], h.sound, [], hline, hitems, hsame⟩
  | cons e line =>
    obtain ⟨r', hnext, hline'⟩ := hline.next?
    have hranking : s.frontier.pop? κ = some (e.item, { s.frontier with waiting := r' }) := by
      unfold Frontier.pop?
      rw [show Discipline.next? κ s.frontier.waiting = _ from hnext, Option.map_some]
    cases hpop : t.frontier.pop? κ with
    | none =>
      rw [h.sound.pop?_none hpop] at hitems
      cases hitems
    | some popped =>
      rw [Frontier.items_pop?_queue hpop, List.map_cons, List.cons.injEq] at hitems
      obtain ⟨hitem, hrest⟩ := hitems
      rw [handle_pop_of_some hranking, handle_pop_of_some hpop]
      exact ⟨by rw [h.answers, hitem], (h.sound.pop? hpop).1, line, hline', hrest,
        fun x hx => hsame x (List.mem_cons_of_mem _ hx)⟩

/-- With one priority for all, a ranking answers as a queue does. -/
theorem answers_eq_of_constant (c : κ) (requests : List (Request κ ε))
    (hconstant : ∀ x priority, .push x priority ∈ requests → priority = c) :
    (after (Ranked κ) requests).answers = (after Queue requests).answers := by
  suffices h : SameLine c (after (Ranked κ) requests) (after Queue requests) from h.answers
  induction requests using List.reverseRecOn with
  | nil => exact ⟨rfl, Frontier.sound_empty, [], Ranked.lines_empty, Frontier.items_empty.symm, by simp⟩
  | append_singleton requests q ih =>
    have hbefore := ih fun x priority hx => hconstant x priority (List.mem_append_left _ hx)
    rw [after_append_singleton, after_append_singleton]
    cases q with
    | push x priority =>
      obtain rfl := hconstant x priority (by simp)
      exact hbefore.push x
    | pop => exact hbefore.pop

end Service

/-! ## Keys of doubles -/

theorem Key.compare_eq_eq_iff {a b : Key Double} : a.compare b = .eq ↔ a = b := by
  unfold Key.compare
  rw [Ordering.then_eq_eq, show Scalar.rank a.priority b.priority = .eq ↔ _ from
    Double.rank_eq_eq_iff, Nat.compare_eq_eq]
  constructor
  · rintro ⟨hpriority, harrival⟩
    obtain ⟨priority, arrival⟩ := a
    cases hpriority
    cases harrival
    rfl
  · rintro rfl
    exact ⟨rfl, rfl⟩

/-- **The ranking is a stable priority queue.** Keys are totally ordered, and equal where neither comes
first; on doubles this is the total order of the standard, in which the two zeros have places of their
own, and the undefined values one place for each sign. Whatever is pushed and popped, with whatever
priorities, every pop gives the pending item of least priority, the earliest of those, and the key that
is shown is its key. No push is lost or answered twice, the size is the number of pending items, and the
mark is the greatest size there ever was. With one priority for all, the answers are those of a queue.

Only what is said of doubles leaves out the order among undefined values of one sign. The rest is so of
any scalars with a total order, and so of doubles that are told apart by all their bits. -/
theorem priorityFrontier_stable {κ ε : Type} [Scalar κ] [OrderedScalar κ]
    (requests : List (Request κ ε)) :
    Std.TransCmp (Key.compare (κ := κ)) ∧
    (∀ a b : Key κ, (a == b) = true ↔ a.compare b = .eq) ∧
    (∀ x y : Double, Scalar.rank x y = .lt ↔ x.TotallyBelow y) ∧
    (∀ a b : Key Double, (a == b) = true ↔ a = b) ∧
    ((pushedEntries requests).map (·.key.arrival)).Nodup ∧
    (let s := Service.after (Ranked κ) requests;
      ∃ answers pending, StableHistory requests answers pending ∧
        s.answers = answers.map (Option.map (·.item)) ∧
        answers.reduceOption ++ pending ~ pushedEntries requests ∧
        (∀ key, s.frontier.waiting.peekKey? = some key → ∃ e, IsFirst e pending ∧ e.key = key) ∧
        (s.frontier.waiting.peekKey? = none ↔ pending = []) ∧
        s.frontier.size κ = pending.length ∧
        IsGreatest {n | ∃ earlier, earlier <+: requests ∧
          (Service.after (Ranked κ) earlier).frontier.size κ = n} s.frontier.highWater) ∧
    (∀ c, (∀ x priority, .push x priority ∈ requests → priority = c) →
      (Service.after (Ranked κ) requests).answers = (Service.after Queue requests).answers) := by
  have hkeys : ∀ a b : Key κ, (a == b) = true ↔ a.compare b = .eq := by
    intro a b
    show (a.compare b == .eq) = true ↔ a.compare b = .eq
    exact beq_iff_eq
  refine ⟨inferInstance, hkeys, fun x y => Double.rank_eq_lt_iff, ?_, nodup_arrivals requests, ?_, ?_⟩
  · intro a b
    rw [← Key.compare_eq_eq_iff]
    show (a.compare b == .eq) = true ↔ a.compare b = .eq
    exact beq_iff_eq
  · obtain ⟨answers, pending, h⟩ := Service.exists_serves requests
    obtain ⟨hshown, hnone⟩ := h.peekKey?
    exact ⟨answers, pending, h.history, h.answers, h.history.perm, hshown, hnone, h.size_eq,
      Service.isGreatest_highWater requests⟩
  · exact fun c hconstant => Service.answers_eq_of_constant c requests hconstant

/-- Two items with the undefined value for a priority leave as they came, and then nothing is left. -/
theorem undefinedPriorities_stable :
    let requests : List (Request Double Nat) :=
      [.push 0 (Double.nan false), .push 1 (Double.nan false), .pop, .pop, .pop];
    (∀ x priority, .push x priority ∈ requests → priority = Double.nan false) ∧
      (Service.after (Ranked Double) requests).answers = [some 0, some 1, none] := by
  intro requests
  have hconstant : ∀ x priority, .push x priority ∈ requests → priority = Double.nan false := by
    intro x priority hmem
    simp only [requests, List.mem_cons, reduceCtorEq, List.not_mem_nil, or_false,
      Request.push.injEq] at hmem
    obtain ⟨-, h⟩ | ⟨-, h⟩ := hmem <;> exact h
  obtain ⟨-, -, -, -, -, -, hqueue⟩ := priorityFrontier_stable requests
  refine ⟨hconstant, ?_⟩
  rw [hqueue _ hconstant]
  rfl

end ProblemSolving
