import Mathlib.Data.List.Induction
import Mathlib.Data.List.Nodup
import ProblemSolving.Proofs.Planning.Failures

/-!
# Facts are ordered sets

* `FactState.Operation`, `FactState.run` : insertions and actions, one after the other.
* `FactState.Newcomers` : the facts of a list that do not hold, each once, in the order in which they
  come up first.
* `FactState.exists_newcomers` : adding facts puts the newcomers after what holds.
* `FactState.facts_perform` : every operation drops what it deletes, and then adds.
* `FactState.nodup_run`, `FactState.kept_run` : over a whole history no fact stands twice, and what
  is never deleted stays in front, in its order.
* `FactState.Applies` : what an action does to the facts.
* `factHistory_ordered` : it does so after every history.
-/

namespace ProblemSolving

namespace FactState

/-! ## Histories -/

/-- What is done to the facts. -/
inductive Operation where
  | insert (fact : String)
  | apply (schema : Schema)
deriving DecidableEq

/-- Whether an operation deletes a fact. -/
def Operation.deletes : Operation → String → Bool
  | .insert _, _ => false
  | .apply schema, fact => schema.delete.contains fact

/-- The facts that an operation adds. -/
def Operation.added : Operation → List String
  | .insert fact => [fact]
  | .apply schema => schema.add

def perform (s : FactState) : Operation → FactState
  | .insert fact => s.insert fact
  | .apply schema => s.apply schema

/-- Does operations one after the other. -/
def run (s : FactState) (history : List Operation) : FactState := history.foldl perform s

/-- The facts that an operation does not delete. -/
def survivors (s : FactState) (op : Operation) : FactState :=
  ⟨s.facts.filter fun fact => !op.deletes fact⟩

theorem perform_eq (s : FactState) (op : Operation) :
    s.perform op = (s.survivors op).insertAll op.added := by
  cases op with
  | insert fact =>
    have hall : s.survivors (.insert fact) = s := by simp [survivors, Operation.deletes]
    rw [hall]
    rfl
  | apply schema => rfl

/-! ## Newcomers -/

/-- These are the facts of a list that do not hold, each once, in the order in which they come up
first. -/
structure Newcomers (s : FactState) (facts added : List String) : Prop where
  mem_iff : ∀ fact, fact ∈ added ↔ fact ∈ facts ∧ s.contains fact = false
  order : added.Pairwise fun f g => facts.idxOf f < facts.idxOf g

variable {s : FactState} {facts added : List String} {fact : String}

theorem newcomers_nil (s : FactState) : s.Newcomers [] [] := ⟨by simp, .nil⟩

theorem Newcomers.order_append (h : s.Newcomers facts added) (more : List String) :
    added.Pairwise fun f g => (facts ++ more).idxOf f < (facts ++ more).idxOf g := by
  refine h.order.imp_of_mem fun hf hg hlt => ?_
  rw [List.idxOf_append_of_mem ((h.mem_iff _).1 hf).1, List.idxOf_append_of_mem ((h.mem_iff _).1 hg).1]
  exact hlt

theorem Newcomers.concat_known (h : s.Newcomers facts added)
    (hknown : s.contains fact = true ∨ fact ∈ facts) : s.Newcomers (facts ++ [fact]) added where
  mem_iff other := by
    rw [h.mem_iff, List.mem_append, List.mem_singleton]
    constructor
    · rintro ⟨hmem, hout⟩
      exact ⟨.inl hmem, hout⟩
    · rintro ⟨hmem | rfl, hout⟩
      · exact ⟨hmem, hout⟩
      · rw [hout] at hknown
        exact ⟨hknown.resolve_left Bool.false_ne_true, hout⟩
  order := h.order_append [fact]

theorem Newcomers.concat_new (h : s.Newcomers facts added) (hout : s.contains fact = false)
    (hfresh : fact ∉ facts) : s.Newcomers (facts ++ [fact]) (added ++ [fact]) where
  mem_iff other := by
    rw [List.mem_append, List.mem_append, List.mem_singleton, h.mem_iff, or_and_right]
    refine or_congr_right ⟨?_, And.left⟩
    rintro rfl
    exact ⟨rfl, hout⟩
  order := by
    refine List.pairwise_append.2 ⟨h.order_append [fact], List.pairwise_singleton _ _, ?_⟩
    intro f hf g hg
    obtain rfl := List.mem_singleton.1 hg
    have hf : f ∈ facts := ((h.mem_iff f).1 hf).1
    rw [List.idxOf_append_of_mem hf, List.idxOf_append_of_notMem hfresh]
    exact Nat.lt_of_lt_of_le (List.idxOf_lt_length_of_mem hf) (Nat.le_add_right ..)

theorem Newcomers.nodup (h : s.Newcomers facts added) : added.Nodup :=
  h.order.imp fun hlt => ne_of_apply_ne (facts.idxOf ·) (Nat.ne_of_lt hlt)

/-- Adding facts puts the newcomers among them after what holds. The induction goes from the end of
the list, as each fact meets what those before it have left. -/
theorem exists_newcomers (s : FactState) (facts : List String) :
    ∃ added, (s.insertAll facts).facts = s.facts ++ added ∧ s.Newcomers facts added := by
  induction facts using List.reverseRecOn with
  | nil => exact ⟨[], (List.append_nil _).symm, newcomers_nil s⟩
  | append_singleton facts fact ih =>
    obtain ⟨added, hfacts, hnew⟩ := ih
    have hlast : s.insertAll (facts ++ [fact]) = (s.insertAll facts).insert fact :=
      List.foldl_concat ..
    rw [hlast]
    unfold insert
    split
    next hknown =>
      rw [contains_insertAll, Bool.or_eq_true, List.contains_iff_mem] at hknown
      exact ⟨added, hfacts, hnew.concat_known hknown⟩
    next hfresh =>
      rw [contains_insertAll, Bool.not_eq_true, Bool.or_eq_false_iff] at hfresh
      obtain ⟨hout, hfresh⟩ := hfresh
      refine ⟨added ++ [fact], ?_, hnew.concat_new hout (by simpa using hfresh)⟩
      rw [hfacts, List.append_assoc]

theorem nodup_insertAll (h : s.facts.Nodup) (facts : List String) :
    (s.insertAll facts).facts.Nodup := by
  obtain ⟨added, hfacts, hnew⟩ := exists_newcomers s facts
  rw [hfacts, List.nodup_append']
  refine ⟨h, hnew.nodup, fun fact hheld hadded => ?_⟩
  have hout : s.contains fact = false := ((hnew.mem_iff fact).1 hadded).2
  rw [contains, List.contains_iff_mem.2 hheld] at hout
  cases hout

/-! ## What a history keeps -/

/-- Every operation leaves the facts that it does not delete, in their order, and puts the newcomers
among those that it adds after them. -/
theorem facts_perform (s : FactState) (op : Operation) :
    ∃ added, (s.perform op).facts = (s.survivors op).facts ++ added ∧
      (s.survivors op).Newcomers op.added added := by
  rw [perform_eq]
  exact exists_newcomers _ _

theorem nodup_perform (h : s.facts.Nodup) (op : Operation) : (s.perform op).facts.Nodup := by
  rw [perform_eq]
  exact nodup_insertAll (h.filter _) _

theorem nodup_run (h : s.facts.Nodup) (history : List Operation) : (s.run history).facts.Nodup := by
  induction history generalizing s with
  | nil => exact h
  | cons op rest ih => exact ih (nodup_perform h op)

/-- The facts that no operation of a history deletes stay in front, in their order. -/
theorem kept_run (s : FactState) (history : List Operation) :
    (s.facts.filter fun fact => history.all fun op => !op.deletes fact) <+: (s.run history).facts := by
  induction history generalizing s with
  | nil => simp [run]
  | cons op rest ih =>
    obtain ⟨added, hfacts, -⟩ := facts_perform s op
    refine List.IsPrefix.trans ?_ (ih (s.perform op))
    have hkept : (s.facts.filter fun fact => (op :: rest).all fun op => !op.deletes fact) =
        (s.survivors op).facts.filter fun fact => rest.all fun op => !op.deletes fact := by
      rw [survivors, List.filter_filter]
      exact List.filter_congr fun fact _ => by rw [List.all_cons, Bool.and_comm]
    rw [hkept, hfacts, List.filter_append]
    exact List.prefix_append ..

/-! ## Actions -/

/-- What an action does: a fact holds afterwards if the action adds it, or if it held and is not
deleted. The facts that survive come first, in their order, and then those added facts that did not,
in the order in which they come up first. Done again, the action changes no fact. -/
structure Applies (s : FactState) (schema : Schema) (s' : FactState) : Prop where
  contains_iff : ∀ fact, s'.contains fact = true ↔
    fact ∈ schema.add ∨ (s.contains fact = true ∧ fact ∉ schema.delete)
  order : ∃ added, s'.facts = (s.facts.filter fun fact => !schema.delete.contains fact) ++ added ∧
    (∀ fact, fact ∈ added ↔
      fact ∈ schema.add ∧ ¬ (s.contains fact = true ∧ fact ∉ schema.delete)) ∧
    added.Pairwise fun f g => schema.add.idxOf f < schema.add.idxOf g
  again : ∀ fact, (s'.apply schema).contains fact = s'.contains fact

theorem applies_apply (s : FactState) (schema : Schema) : s.Applies schema (s.apply schema) where
  contains_iff fact := by
    rw [contains_apply]
    simp [Schema.adds]
  order := by
    obtain ⟨added, hfacts, hnew⟩ := facts_perform s (.apply schema)
    refine ⟨added, hfacts, fun fact => ?_, hnew.order⟩
    have hsurvives : (s.survivors (.apply schema)).contains fact = true ↔
        s.contains fact = true ∧ fact ∉ schema.delete := by
      simp [survivors, contains, Operation.deletes]
    rw [hnew.mem_iff, ← Bool.not_eq_true, hsurvives]
    rfl
  again fact := by
    simp only [contains_apply]
    cases schema.adds fact <;> cases s.contains fact <;> cases schema.delete.contains fact <;> rfl

end FactState

/-- **Facts are an ordered set under any history.** After any insertions and actions on the facts of
any list, no fact stands twice, and an action does what it should. Whatever is done later, the facts
that it never deletes stay in front, in their order. -/
theorem factHistory_ordered (initial : List String) (history : List FactState.Operation) :
    let s := (FactState.ofList initial).run history
    s.facts.Nodup ∧ (∀ schema, s.Applies schema (s.apply schema)) ∧
      ∀ later : List FactState.Operation,
        (s.facts.filter fun fact => later.all fun op => !op.deletes fact) <+: (s.run later).facts := by
  intro s
  have hstart : (FactState.ofList initial).facts.Nodup := FactState.nodup_insertAll .nil initial
  exact ⟨FactState.nodup_run hstart history, s.applies_apply, s.kept_run⟩

/-- What is deleted and added goes to the end. -/
example : (FactState.ofList ["a", "b", "x", "a"]).apply ⟨"swap", ["a"], ["c", "a", "c"], ["a", "b"]⟩ =
    ⟨["x", "c", "a"]⟩ := by decide

end ProblemSolving
