import ProblemSolving.Constraint.Model

/-!
# Current domains

Which values of each variable are still alive, with a trail of removals that can be undone.

* `Domains` : the marks, the counts and the trail.
* `Domains.prune`, `Domains.restrictTo` : removals.
* `Domains.checkpoint`, `Domains.undoTo` : going back.
-/

namespace ProblemSolving

/-- The values of each variable that are still alive. -/
structure Domains where
  /-- For each variable and each place of its domain, whether the value there is alive. -/
  alive : Array (Array Bool)
  /-- The number of live values of each variable. -/
  sizes : Array Nat
  /-- The removals that were not undone, latest first. -/
  trail : List (Nat × Nat)
  /-- The number of removals ever made. -/
  prunings : Nat
deriving DecidableEq

namespace Domains

/-- Every value is alive. -/
def full {ν : Type} (m : Model ν) : Domains where
  alive := m.vars.map fun v => Array.replicate v.domain.size true
  sizes := m.vars.map fun v => v.domain.size
  trail := []
  prunings := 0

/-- Whether the domains have a variable. -/
def covers (d : Domains) (v : Nat) : Bool := v < d.alive.size

def isAlive? (d : Domains) (v ix : Nat) : Option Bool := (d.alive[v]?).bind fun marks => marks[ix]?

def isAlive (d : Domains) (v ix : Nat) : Bool := (d.isAlive? v ix).getD false

def size? (d : Domains) (v : Nat) : Option Nat := d.sizes[v]?

/-- Whether a variable has no live value. -/
def isWipedOut (d : Domains) (v : Nat) : Bool := d.size? v == some 0

/-- The places of the live values of a variable, in ascending order. -/
def indices (d : Domains) (v : Nat) : List Nat :=
  let marks := (d.alive[v]?).getD #[]
  (List.range marks.size).filter fun ix => marks[ix]?.getD false

/-- The live values of a variable. -/
def values {ν : Type} (m : Model ν) (d : Domains) (v : Nat) : List ν :=
  (d.indices v).filterMap fun ix => (m.domain v)[ix]?

/-- The live values of every variable of a model, if the domains have them all. -/
def allValues? {ν : Type} (m : Model ν) (d : Domains) : Option (List (List ν)) :=
  if m.size ≤ d.alive.size then some ((List.range m.size).map (d.values m)) else none

/-- The number of live values of all variables. -/
def liveCount (d : Domains) : Nat := (d.alive.toList.flatMap Array.toList).count true

/-! ## Removals -/

/-- Removes a value, if it is alive. -/
def prune (d : Domains) (v ix : Nat) : Domains :=
  if d.isAlive v ix then
    { alive := d.alive.modify v fun marks => marks.setIfInBounds ix false
      sizes := d.sizes.modify v (· - 1)
      trail := (v, ix) :: d.trail
      prunings := d.prunings + 1 }
  else d

/-- Removes several values of a variable. -/
def pruneAll (d : Domains) (v : Nat) (places : List Nat) : Domains :=
  places.foldl (fun d ix => d.prune v ix) d

/-- Removes every value of a variable but one. -/
def restrictTo (d : Domains) (v ix : Nat) : Domains :=
  d.pruneAll v ((List.range ((d.alive[v]?).getD #[]).size).filter (· != ix))

/-! ## Counting -/

/-- Changing one item changes a count over all items by the change of the item. -/
theorem count_flatMap_modify {α β : Type} [BEq β] (g : α → List β) (f : α → α) (b : β) {x : α} :
    ∀ {items : List α} {i : Nat}, items[i]? = some x →
      ((items.modify i f).flatMap g).count b + (g x).count b =
        (items.flatMap g).count b + (g (f x)).count b
  | [], i, h => by simp at h
  | y :: rest, 0, h => by
    obtain rfl : y = x := by simpa using h
    simp only [List.modify_zero_cons, List.flatMap_cons, List.count_append]
    omega
  | y :: rest, i + 1, h => by
    have ih := @count_flatMap_modify α β _ g f b x rest i (by simpa using h)
    simp only [List.modify_succ_cons, List.flatMap_cons, List.count_append]
    omega

/-- Removing a live value lowers the count of live values by one. -/
theorem liveCount_prune {d : Domains} {v ix : Nat} (alive : d.isAlive v ix = true) :
    (d.prune v ix).liveCount + 1 = d.liveCount := by
  simp only [isAlive, isAlive?] at alive
  cases hv : d.alive[v]? with
  | none => simp [hv] at alive
  | some marks =>
    have hix : marks[ix]? = some true := by
      cases h : marks[ix]? with
      | none => simp [hv, h] at alive
      | some b => simpa [hv, h] using alive
    have key := count_flatMap_modify Array.toList (fun marks => marks.setIfInBounds ix false) true
      (show d.alive.toList[v]? = some marks by rw [Array.getElem?_toList]; exact hv)
    have hlt : ix < marks.toList.length := by
      obtain ⟨h, -⟩ := Array.getElem?_eq_some_iff.1 hix
      simpa using h
    have hget : marks.toList[ix] = true := by
      obtain ⟨h, hb⟩ := Array.getElem?_eq_some_iff.1 hix
      simpa using hb
    have hpos : 0 < marks.toList.count true :=
      List.count_pos_iff.2 (hget ▸ List.getElem_mem hlt)
    have hset : (marks.toList.set ix false).count true + 1 = marks.toList.count true := by
      rw [List.count_set hlt, hget]
      simp only [BEq.rfl, if_true]
      have : (false == true) = false := rfl
      simp only [this, Bool.false_eq_true, if_false]
      omega
    have hprune : (d.prune v ix).alive = d.alive.modify v fun marks => marks.setIfInBounds ix false := by
      simp [prune, isAlive, isAlive?, hv, hix]
    simp only [liveCount, hprune, Array.toList_modify]
    simp only [Array.toList_setIfInBounds] at key
    omega

theorem prune_of_dead {d : Domains} {v ix : Nat} (dead : d.isAlive v ix = false) :
    d.prune v ix = d := by
  simp [prune, dead]

theorem liveCount_prune_le (d : Domains) (v ix : Nat) :
    (d.prune v ix).liveCount ≤ d.liveCount := by
  cases h : d.isAlive v ix with
  | true => have := liveCount_prune h; omega
  | false => exact Nat.le_of_eq (congrArg liveCount (prune_of_dead h))

theorem liveCount_pruneAll_le (v : Nat) :
    ∀ (places : List Nat) (d : Domains), (d.pruneAll v places).liveCount ≤ d.liveCount
  | [], _ => Nat.le_refl _
  | ix :: rest, d =>
    Nat.le_trans (liveCount_pruneAll_le v rest (d.prune v ix)) (liveCount_prune_le d v ix)

/-- Removing live values lowers the count of live values. -/
theorem liveCount_pruneAll_lt {d : Domains} {v ix : Nat} {rest : List Nat}
    (alive : d.isAlive v ix = true) : (d.pruneAll v (ix :: rest)).liveCount < d.liveCount := by
  have h1 := liveCount_prune alive
  have h2 := liveCount_pruneAll_le v rest (d.prune v ix)
  rw [show d.pruneAll v (ix :: rest) = (d.prune v ix).pruneAll v rest from rfl]
  omega

theorem isAlive_of_mem_indices {d : Domains} {v ix : Nat} (h : ix ∈ d.indices v) :
    d.isAlive v ix = true := by
  simp only [indices, List.mem_filter] at h
  cases hv : d.alive[v]? with
  | none => simp [hv] at h
  | some marks => simpa [isAlive, isAlive?, hv] using h.2

/-! ## Going back -/

/-- A mark to which removals can be undone. -/
def checkpoint (d : Domains) : Nat := d.trail.length

/-- Brings the latest removal back. -/
def undoOne (d : Domains) : Domains :=
  match d.trail with
  | [] => d
  | (v, ix) :: rest =>
    { d with
      alive := d.alive.modify v fun marks => marks.setIfInBounds ix true
      sizes := d.sizes.modify v (· + 1)
      trail := rest }

/-- Brings the latest removals back, as many as are said. -/
def undo : (removals : Nat) → Domains → Domains
  | 0, d => d
  | removals + 1, d => undo removals d.undoOne

/-- Brings every removal since a checkpoint back. -/
def undoTo (d : Domains) (mark : Nat) : Domains := undo (d.trail.length - mark) d

end Domains

end ProblemSolving
