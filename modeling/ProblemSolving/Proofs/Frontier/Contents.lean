import ProblemSolving.Frontier.Basic
import ProblemSolving.Proofs.Frontier.HeapOrder
import ProblemSolving.Proofs.Number.Order

/-!
# What frontiers hold

* `LawfulDiscipline` : a container gives back what was added to it, each item once, in some order;
  `Queue`, `Stack` and `Ranked` do.
* `Queue.toList_add`, `Queue.toList_next?` : a queue keeps the order of arrival.
* `Frontier.items`, `Frontier.Sound` : what waits on a frontier.
* `Ranked.Ordered` : the heap of a ranking is in order; what comes next is then least.
-/

namespace ProblemSolving

open scoped List

/-- Containers that give back what was added. Their contents are a list up to its order. -/
class LawfulDiscipline (δ : Type → Type) (κ : Type) [Discipline δ κ] where
  items {ε : Type} : δ ε → List ε
  Sound {ε : Type} : δ ε → Prop
  sound_empty {ε : Type} : Sound (Discipline.empty κ : δ ε)
  items_empty {ε : Type} : items (Discipline.empty κ : δ ε) = []
  sound_add {ε : Type} {d : δ ε} (h : Sound d) (x : ε) (priority : κ) :
    Sound (Discipline.add d x priority)
  items_add {ε : Type} {d : δ ε} (h : Sound d) (x : ε) (priority : κ) :
    items (Discipline.add d x priority) ~ x :: items d
  next?_some {ε : Type} {d d' : δ ε} {x : ε} (h : Sound d)
    (hnext : Discipline.next? κ d = some (x, d')) : Sound d' ∧ items d ~ x :: items d'
  next?_none {ε : Type} {d : δ ε} (h : Sound d) (hnext : Discipline.next? κ d = none) :
    items d = []
  size_eq {ε : Type} {d : δ ε} (h : Sound d) : Discipline.size κ d = (items d).length

/-! ## Queues -/

namespace Queue

variable {ε κ : Type}

/-- What arrives goes to the end. -/
theorem toList_add {q : Queue ε} (h : q.left ≤ q.arrived.size) (x : ε) (priority : κ) :
    (Discipline.add q x priority).toList = q.toList ++ [x] := by
  have hlen : q.left ≤ q.arrived.toList.length := h
  show (q.arrived.push x).toList.drop q.left = q.arrived.toList.drop q.left ++ [x]
  rw [Array.toList_push, List.drop_append_of_le_length hlen]

/-- What is next leaves from the front. -/
theorem toList_next? {q q' : Queue ε} {x : ε} (hnext : q.next? = some (x, q')) :
    q'.left ≤ q'.arrived.size ∧ q.toList = x :: q'.toList := by
  obtain ⟨y, hy, hpair⟩ := Option.map_eq_some_iff.1 hnext
  obtain ⟨rfl, rfl⟩ := Prod.mk.inj hpair
  obtain ⟨hlt, rfl⟩ := Array.getElem?_eq_some_iff.1 hy
  exact ⟨hlt, List.drop_eq_getElem_cons (l := q.arrived.toList) hlt⟩

instance instLawfulDiscipline : LawfulDiscipline Queue κ where
  items := toList
  Sound q := q.left ≤ q.arrived.size
  sound_empty := Nat.le_refl 0
  items_empty := rfl
  sound_add {_ q} h x _ := by
    show q.left ≤ (q.arrived.push x).size
    rw [Array.size_push]
    omega
  items_add h x priority := by
    rw [toList_add h]
    exact List.perm_append_singleton x _
  next?_some _ hnext := ⟨(toList_next? hnext).1, .of_eq (toList_next? hnext).2⟩
  next?_none {_ q} h hnext := by
    have hnone : q.arrived[q.left]? = none := Option.map_eq_none_iff.1 hnext
    exact List.drop_eq_nil_of_le (Array.getElem?_eq_none_iff.1 hnone)
  size_eq {_ q} h := by
    show q.arrived.size - q.left = (q.arrived.toList.drop q.left).length
    simp

end Queue

/-! ## Stacks -/

instance Stack.instLawfulDiscipline {κ : Type} : LawfulDiscipline Stack κ where
  items s := s.items.toList
  Sound _ := True
  sound_empty := trivial
  items_empty := rfl
  sound_add _ _ _ := trivial
  items_add {_ s} _ x _ := by
    show (s.items.push x).toList ~ x :: s.items.toList
    rw [Array.toList_push]
    exact List.perm_append_singleton x _
  next?_some {_ s s' x} _ hnext := by
    obtain ⟨y, hy, hpair⟩ := Option.map_eq_some_iff.1 hnext
    obtain ⟨rfl, rfl⟩ := Prod.mk.inj hpair
    rw [← Array.getLast?_toList, List.getLast?_eq_some_iff] at hy
    obtain ⟨before, hbefore⟩ := hy
    refine ⟨trivial, ?_⟩
    show s.items.toList ~ y :: s.items.pop.toList
    rw [Array.toList_pop, hbefore, List.dropLast_concat]
    exact List.perm_append_singleton y before
  next?_none {_ s} _ hnext := by
    have hnone : s.items.back? = none := Option.map_eq_none_iff.1 hnext
    rw [← Array.getLast?_toList] at hnone
    exact List.getLast?_eq_none_iff.1 hnone
  size_eq _ := rfl

/-! ## Rankings -/

namespace Ranked

variable {κ ε : Type}

/-- The entries, in the order of the heap. -/
def entries (r : Ranked κ ε) : List (Entry κ ε) := r.heap.toList

/-- The count is the number of entries. -/
def Counted (r : Ranked κ ε) : Prop := r.size = r.entries.length

theorem counted_empty : (empty : Ranked κ ε).Counted := rfl

@[simp] theorem entries_empty : (empty : Ranked κ ε).entries = [] := rfl

variable [Scalar κ]

theorem entries_add (r : Ranked κ ε) (x : ε) (priority : κ) :
    (r.add x priority).entries ~ ⟨⟨priority, r.arrivals⟩, x⟩ :: r.entries :=
  Heap.insert_perm ..

theorem Counted.add {r : Ranked κ ε} (h : r.Counted) (x : ε) (priority : κ) :
    (r.add x priority).Counted := by
  have hlen := (r.entries_add x priority).length_eq
  unfold Counted at h ⊢
  rw [hlen, List.length_cons, ← h]
  rfl

theorem next?_eq_some {r r' : Ranked κ ε} {x : ε} (h : r.next? = some (x, r')) :
    ∃ key, r.heap.head? = some ⟨key, x⟩ ∧
      r' = ⟨r.heap.tail Entry.le, r.arrivals, r.size - 1⟩ := by
  obtain ⟨⟨key, y⟩, hy, hpair⟩ := Option.map_eq_some_iff.1 h
  obtain ⟨rfl, rfl⟩ := Prod.mk.inj hpair
  exact ⟨key, hy, rfl⟩

theorem entries_next? {r r' : Ranked κ ε} {x : ε} (h : r.next? = some (x, r')) :
    ∃ key, r.entries ~ ⟨key, x⟩ :: r'.entries := by
  obtain ⟨key, hhead, rfl⟩ := next?_eq_some h
  exact ⟨key, Heap.tail_perm hhead⟩

theorem Counted.next? {r r' : Ranked κ ε} {x : ε} (h : r.Counted)
    (hnext : r.next? = some (x, r')) : r'.Counted := by
  obtain ⟨key, hhead, rfl⟩ := next?_eq_some hnext
  have hperm : r.heap.toList ~ ⟨key, x⟩ :: (r.heap.tail Entry.le).toList := Heap.tail_perm hhead
  have hlen := hperm.length_eq
  unfold Counted at h ⊢
  simp only [entries, List.length_cons] at h hlen ⊢
  omega

theorem next?_eq_none {r : Ranked κ ε} (h : r.next? = none) : r.entries = [] :=
  Heap.head?_eq_none.1 (Option.map_eq_none_iff.1 h)

instance instLawfulDiscipline : LawfulDiscipline (Ranked κ) κ where
  items r := r.entries.map (·.item)
  Sound := Counted
  sound_empty := counted_empty
  items_empty := rfl
  sound_add h x priority := h.add x priority
  items_add {_ r} _ x priority := (r.entries_add x priority).map _
  next?_some h hnext := by
    obtain ⟨key, hentries⟩ := entries_next? hnext
    exact ⟨h.next? hnext, hentries.map _⟩
  next?_none _ hnext := by rw [next?_eq_none hnext, List.map_nil]
  size_eq h := h.trans (List.length_map _).symm

/-! ## The order of rankings -/

/-- The heap is in order. -/
def Ordered (r : Ranked κ ε) : Prop := r.heap.Ordered Entry.le

theorem ordered_empty : (empty : Ranked κ ε).Ordered := trivial

theorem rank_of_le {a b : Entry κ ε} (h : Entry.le a b = true) :
    (Scalar.rank a.key.priority b.key.priority).isLE := by
  unfold Entry.le Key.compare at h
  cases hrank : Scalar.rank a.key.priority b.key.priority with
  | gt => simp [hrank, Ordering.then] at h
  | _ => rfl

variable [OrderedScalar κ]

instance : Std.TransCmp fun a b : Key κ => Scalar.rank a.priority b.priority where
  eq_swap {a b} := by
    have hrank : Std.OrientedCmp (Scalar.rank : κ → κ → Ordering) := inferInstance
    exact hrank.eq_swap
  isLE_trans hab hbc := by
    have hrank : Std.TransCmp (Scalar.rank : κ → κ → Ordering) := inferInstance
    exact hrank.isLE_trans hab hbc

instance : Std.TransCmp (Key.compare (κ := κ)) :=
  inferInstanceAs (Std.TransCmp
    (compareLex (fun a b : Key κ => Scalar.rank a.priority b.priority) (compareOn Key.arrival)))

theorem le_total (a b : Entry κ ε) : Entry.le a b = true ∨ Entry.le b a = true := by
  have hcmp : Std.OrientedCmp (Key.compare (κ := κ)) := inferInstance
  have hswap : b.key.compare a.key = (a.key.compare b.key).swap := hcmp.eq_swap
  unfold Entry.le
  rw [hswap]
  cases a.key.compare b.key <;> simp

theorem le_trans (a b c : Entry κ ε) (hab : Entry.le a b = true) (hbc : Entry.le b c = true) :
    Entry.le a c = true := by
  have hcmp : Std.TransCmp (Key.compare (κ := κ)) := inferInstance
  exact hcmp.isLE_trans hab hbc

theorem Ordered.add {r : Ranked κ ε} (h : r.Ordered) (x : ε) (priority : κ) :
    (r.add x priority).Ordered :=
  Heap.insert_ordered le_total le_trans _ h

theorem Ordered.next? {r r' : Ranked κ ε} {x : ε} (h : r.Ordered)
    (hnext : r.next? = some (x, r')) :
    r'.Ordered ∧ ∃ key, r.entries ~ ⟨key, x⟩ :: r'.entries ∧
      ∀ y ∈ r'.entries, (Scalar.rank key.priority y.key.priority).isLE := by
  obtain ⟨key, hhead, rfl⟩ := next?_eq_some hnext
  refine ⟨Heap.tail_ordered le_total le_trans h, key, Heap.tail_perm hhead, ?_⟩
  intro y hy
  exact rank_of_le (Heap.head_le h hhead y hy)

end Ranked

/-! ## Frontiers -/

namespace Frontier

variable {δ : Type → Type} {ε κ : Type} [Discipline δ κ]

theorem pop?_eq_some {f f' : Frontier δ ε} {x : ε} (h : f.pop? κ = some (x, f')) :
    Discipline.next? κ f.waiting = some (x, f'.waiting) := by
  obtain ⟨⟨y, waiting⟩, hy, hpair⟩ := Option.map_eq_some_iff.1 h
  obtain ⟨rfl, rfl⟩ := Prod.mk.inj hpair
  exact hy

theorem highWater_pop? {f f' : Frontier δ ε} {x : ε} (h : f.pop? κ = some (x, f')) :
    f'.highWater = f.highWater := by
  obtain ⟨⟨y, waiting⟩, -, hpair⟩ := Option.map_eq_some_iff.1 h
  obtain ⟨rfl, rfl⟩ := Prod.mk.inj hpair
  rfl

theorem pop?_eq_none {f : Frontier δ ε} (h : f.pop? κ = none) :
    Discipline.next? κ f.waiting = none :=
  Option.map_eq_none_iff.1 h

/-- Puts items on a frontier one after the other, each with its priority. -/
def pushAll (priority : ε → κ) (f : Frontier δ ε) (xs : List ε) : Frontier δ ε :=
  xs.foldl (fun f x => f.push x (priority x)) f

variable [LawfulDiscipline δ κ]

variable (κ) in
/-- What waits on a frontier, in some order. -/
def items (f : Frontier δ ε) : List ε := LawfulDiscipline.items κ f.waiting

variable (κ) in
/-- The container of a frontier is in a state that its operations lead to. -/
def Sound (f : Frontier δ ε) : Prop := LawfulDiscipline.Sound κ f.waiting

theorem sound_empty : (Frontier.empty κ : Frontier δ ε).Sound κ := LawfulDiscipline.sound_empty

theorem items_empty : (Frontier.empty κ : Frontier δ ε).items κ = [] :=
  LawfulDiscipline.items_empty

theorem Sound.push {f : Frontier δ ε} (h : f.Sound κ) (x : ε) (priority : κ) :
    (f.push x priority).Sound κ :=
  LawfulDiscipline.sound_add h x priority

theorem Sound.items_push {f : Frontier δ ε} (h : f.Sound κ) (x : ε) (priority : κ) :
    (f.push x priority).items κ ~ x :: f.items κ :=
  LawfulDiscipline.items_add h x priority

theorem Sound.pushAll {f : Frontier δ ε} (h : f.Sound κ) (priority : ε → κ) (xs : List ε) :
    (f.pushAll priority xs).Sound κ ∧ (f.pushAll priority xs).items κ ~ f.items κ ++ xs := by
  induction xs generalizing f with
  | nil => exact ⟨h, .of_eq (List.append_nil _).symm⟩
  | cons x rest ih =>
    obtain ⟨hsound, hitems⟩ := ih (h.push x (priority x))
    refine ⟨hsound, hitems.trans ?_⟩
    exact ((h.items_push x (priority x)).append_right rest).trans List.perm_middle.symm

theorem Sound.pop? {f f' : Frontier δ ε} {x : ε} (h : f.Sound κ)
    (hpop : f.pop? κ = some (x, f')) : f'.Sound κ ∧ f.items κ ~ x :: f'.items κ :=
  LawfulDiscipline.next?_some h (pop?_eq_some hpop)

theorem Sound.pop?_none {f : Frontier δ ε} (h : f.Sound κ) (hpop : f.pop? κ = none) :
    f.items κ = [] :=
  LawfulDiscipline.next?_none h (pop?_eq_none hpop)

theorem Sound.size_eq {f : Frontier δ ε} (h : f.Sound κ) : f.size κ = (f.items κ).length :=
  LawfulDiscipline.size_eq h

theorem Sound.size_push {f : Frontier δ ε} (h : f.Sound κ) (x : ε) (priority : κ) :
    (f.push x priority).size κ = f.size κ + 1 := by
  rw [(h.push x priority).size_eq, (h.items_push x priority).length_eq, h.size_eq, List.length_cons]

theorem Sound.size_pop? {f f' : Frontier δ ε} {x : ε} (h : f.Sound κ)
    (hpop : f.pop? κ = some (x, f')) : f.size κ = f'.size κ + 1 := by
  obtain ⟨hsound, hitems⟩ := h.pop? hpop
  rw [h.size_eq, hitems.length_eq, hsound.size_eq, List.length_cons]

theorem Sound.items_eq_nil {f : Frontier δ ε} (h : f.Sound κ)
    (hempty : f.size κ = 0 ∨ f.pop? κ = none) : f.items κ = [] := by
  rcases hempty with hsize | hpop
  · exact List.eq_nil_of_length_eq_zero (h.size_eq.symm.trans hsize)
  · exact h.pop?_none hpop

/-! ## Frontiers of queues -/

theorem items_push_queue {f : Frontier Queue ε} (h : f.Sound κ) (x : ε) (priority : κ) :
    (f.push x priority).items κ = f.items κ ++ [x] :=
  Queue.toList_add h x priority

theorem items_pushAll_queue {f : Frontier Queue ε} (h : f.Sound κ) (priority : ε → κ)
    (xs : List ε) : (f.pushAll priority xs).items κ = f.items κ ++ xs := by
  induction xs generalizing f with
  | nil => exact (List.append_nil _).symm
  | cons x rest ih =>
    show ((f.push x (priority x)).pushAll priority rest).items κ = f.items κ ++ x :: rest
    rw [ih (h.push x (priority x)), items_push_queue h, List.append_assoc, List.singleton_append]

theorem items_pop?_queue {f f' : Frontier Queue ε} {x : ε} (hpop : f.pop? κ = some (x, f')) :
    f.items κ = x :: f'.items κ :=
  (Queue.toList_next? (pop?_eq_some hpop)).2

end Frontier

end ProblemSolving
