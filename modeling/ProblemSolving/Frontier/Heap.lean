/-!
# Leftist heaps

* `Heap` : a tree whose least entry is at the root.
* `Heap.merge`, `Heap.insert`, `Heap.tail` : the operations, over a given order.
* `Heap.toList` : the entries, in the order of the tree.
-/

namespace ProblemSolving

/-- A binary tree of entries; `rank` is the length of its right spine, the shortest way to a
leaf. -/
inductive Heap (α : Type) where
  | leaf
  | node (rank : Nat) (least : α) (left right : Heap α)

namespace Heap

variable {α : Type}

def rank : Heap α → Nat
  | leaf => 0
  | node rank .. => rank

/-- The least entry. -/
def head? : Heap α → Option α
  | leaf => none
  | node _ least _ _ => some least

/-- The entries, in the order of the tree. -/
def toList : Heap α → List α
  | leaf => []
  | node _ least left right => least :: (left.toList ++ right.toList)

/-- A tree over two others, the one of the shorter spine on the right. -/
def join (least : α) (a b : Heap α) : Heap α :=
  if b.rank ≤ a.rank then node (b.rank + 1) least a b else node (a.rank + 1) least b a

/-- The entries of both heaps. -/
def merge (le : α → α → Bool) : Heap α → Heap α → Heap α
  | leaf, b => b
  | a, leaf => a
  | node ra x la ra', node rb y lb rb' =>
    if le x y then join x la (merge le ra' (node rb y lb rb'))
    else join y lb (merge le (node ra x la ra') rb')
termination_by a b => sizeOf a + sizeOf b

/-- A heap with one more entry. -/
def insert (le : α → α → Bool) (x : α) (h : Heap α) : Heap α := merge le (node 1 x leaf leaf) h

/-- A heap without its least entry. -/
def tail (le : α → α → Bool) : Heap α → Heap α
  | leaf => leaf
  | node _ _ left right => merge le left right

end Heap

end ProblemSolving
