import ProblemSolving.Frontier.Heap
import ProblemSolving.Number.Scalar

/-!
# Frontiers

What waits to be expanded, and which of it comes next. The discipline of the frontier is the one
difference between the uninformed strategies.

* `Discipline` : the operations of a container that decides what comes next.
* `Queue`, `Stack`, `Ranked` : first in first out, last in first out, least priority first.
* `Frontier` : a container that remembers the most it ever held.
-/

namespace ProblemSolving

/-- Containers that decide which item comes next. Items arrive with a priority, which a discipline
may ignore. -/
class Discipline (δ : Type → Type) (κ : Type) where
  empty {ε : Type} : δ ε
  add {ε : Type} : δ ε → ε → κ → δ ε
  next? {ε : Type} : δ ε → Option (ε × δ ε)
  size {ε : Type} : δ ε → Nat

/-! ## First in, first out -/

/-- The items that ever arrived, and how many of them have left. -/
structure Queue (ε : Type) where
  arrived : Array ε
  left : Nat

namespace Queue

variable {ε : Type}

/-- The items that wait, the next one first. -/
def toList (q : Queue ε) : List ε := q.arrived.toList.drop q.left

def next? (q : Queue ε) : Option (ε × Queue ε) :=
  q.arrived[q.left]?.map fun item => (item, { q with left := q.left + 1 })

instance {κ : Type} : Discipline Queue κ where
  empty := ⟨#[], 0⟩
  add | ⟨arrived, left⟩, item, _ => ⟨arrived.push item, left⟩
  next? := next?
  size q := q.arrived.size - q.left

end Queue

/-! ## Last in, first out -/

/-- The items that wait, the next one last. -/
structure Stack (ε : Type) where
  items : Array ε

namespace Stack

variable {ε : Type}

def next? (s : Stack ε) : Option (ε × Stack ε) :=
  s.items.back?.map fun item => (item, ⟨s.items.pop⟩)

instance {κ : Type} : Discipline Stack κ where
  empty := ⟨#[]⟩
  add s item _ := ⟨s.items.push item⟩
  next? := next?
  size s := s.items.size

end Stack

/-! ## Least priority first -/

/-- The place of an entry: by priority, and among equal ones by arrival. -/
structure Key (κ : Type) where
  priority : κ
  arrival : Nat

/-- The order of keys. -/
def Key.compare {κ : Type} [Scalar κ] (a b : Key κ) : Ordering :=
  (Scalar.rank a.priority b.priority).then (Ord.compare a.arrival b.arrival)

/-- Keys are the same if neither comes before the other. -/
instance {κ : Type} [Scalar κ] : BEq (Key κ) := ⟨fun a b => a.compare b == .eq⟩

/-- An item with its key. -/
structure Entry (κ ε : Type) where
  key : Key κ
  item : ε

/-- Whether an entry does not come after another. -/
def Entry.le {κ ε : Type} [Scalar κ] (a b : Entry κ ε) : Bool := (a.key.compare b.key).isLE

/-- Entries by their keys, with the number of items that ever arrived and the number that
waits. -/
structure Ranked (κ ε : Type) where
  heap : Heap (Entry κ ε)
  arrivals : Nat
  size : Nat

namespace Ranked

variable {κ ε : Type}

def empty : Ranked κ ε := ⟨.leaf, 0, 0⟩

/-- The key of what comes next. -/
def peekKey? (r : Ranked κ ε) : Option (Key κ) := r.heap.head?.map (·.key)

variable [Scalar κ]

def add (r : Ranked κ ε) (item : ε) (priority : κ) : Ranked κ ε :=
  ⟨r.heap.insert Entry.le ⟨⟨priority, r.arrivals⟩, item⟩, r.arrivals + 1, r.size + 1⟩

def next? (r : Ranked κ ε) : Option (ε × Ranked κ ε) :=
  r.heap.head?.map fun entry => (entry.item, ⟨r.heap.tail Entry.le, r.arrivals, r.size - 1⟩)

instance : Discipline (Ranked κ) κ where
  empty := empty
  add := add
  next? := next?
  size r := r.size

end Ranked

/-! ## Frontiers -/

/-- A container with the most items it ever held. -/
structure Frontier (δ : Type → Type) (ε : Type) where
  waiting : δ ε
  highWater : Nat

namespace Frontier

variable {δ : Type → Type} {ε : Type}

section
variable (κ : Type) [Discipline δ κ]

def empty : Frontier δ ε := ⟨Discipline.empty κ, 0⟩

def size (f : Frontier δ ε) : Nat := Discipline.size κ f.waiting

def pop? (f : Frontier δ ε) : Option (ε × Frontier δ ε) :=
  (Discipline.next? κ f.waiting).map fun (item, waiting) => (item, { f with waiting })

end

def push {κ : Type} [Discipline δ κ] :
    Frontier δ ε → (item : ε) → (priority : κ) → Frontier δ ε
  | ⟨waiting, highWater⟩, item, priority =>
    let waiting := Discipline.add waiting item priority
    ⟨waiting, max highWater (Discipline.size κ waiting)⟩

end Frontier

end ProblemSolving
