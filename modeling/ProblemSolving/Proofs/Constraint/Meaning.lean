import ProblemSolving.Proofs.Constraint.Links

/-!
# A model means the constraints that were added

* `BuildCall`, `Model.after`, `Model.build` : calls that extend a model, refused ones included, and
  the model that they lead to.
* `Model.addInTurn`, `Model.madeBy`, `Model.made` : the constraints whose addition succeeded;
  requiring variables to differ adds one constraint for each pair (`addAllDifferent_eq`).
* `Linked.isSolution?_eq_some_true_iff` : a solution gives every variable a value, and every
  constraint holds.
* `build_isSolution_iff` : the same by the calls, and that consistency of two values is symmetric.
-/

namespace ProblemSolving

variable {ν : Type}

/-! ## Calls -/

/-- A call that extends a model. -/
inductive BuildCall (ν : Type) where
  | addVariable (name : String) (domain : Array ν)
  | addConstraint (a b : Nat) (relation : Relation ν)
  | addAllDifferent (vs : List Nat)

/-- Values are unequal. -/
def Relation.unequal [BEq ν] : Relation ν := { holds := (· != ·) }

/-- The pairs of a list, each item with every later one. -/
def pairsOf : List Nat → List (Nat × Nat)
  | [] => []
  | a :: rest => rest.map (fun b => (a, b)) ++ pairsOf rest

namespace Model

/-- The model after adding constraints in turn until one is refused, and those that were added. -/
def addInTurn : Model ν → List (Constraint ν) → Model ν × List (Constraint ν)
  | m, [] => (m, [])
  | m, c :: rest =>
    match m.addConstraint c.left c.right c.relation with
    | .ok m => ((addInTurn m rest).1, c :: (addInTurn m rest).2)
    | .error _ => (m, [])

section
variable [BEq ν]

/-- One constraint of unequal values for each pair. -/
def differences (vs : List Nat) : List (Constraint ν) :=
  (pairsOf vs).map fun p => ⟨p.1, p.2, .unequal⟩

/-- The model after a call; a refused one leaves what it was. -/
def after (m : Model ν) : BuildCall ν → Model ν
  | .addVariable name domain => (m.addVariable name domain).toOption.getD m
  | .addConstraint a b r => (m.addConstraint a b r).toOption.getD m
  | .addAllDifferent vs => (m.addAllDifferent vs).1

/-- The constraints that a call adds to a model. -/
def madeBy (m : Model ν) : BuildCall ν → List (Constraint ν)
  | .addVariable _ _ => []
  | .addConstraint a b r => if (m.addConstraint a b r).isOk then [⟨a, b, r⟩] else []
  | .addAllDifferent vs => (m.addInTurn (differences vs)).2

/-- The model that calls lead to. -/
def build (calls : List (BuildCall ν)) : Model ν := calls.foldl after .empty

/-- The constraints that calls add, one after the other. -/
def made : Model ν → List (BuildCall ν) → List (Constraint ν)
  | _, [] => []
  | m, call :: rest => m.madeBy call ++ made (m.after call) rest

end

/-! ## What was added is what the model holds -/

theorem constraints_addConstraint {m m' : Model ν} {a b : Nat} {r : Relation ν}
    (h : m.addConstraint a b r = .ok m') :
    m'.constraints.toList = m.constraints.toList ++ [⟨a, b, r⟩] := by
  obtain ⟨-, -, -, rfl⟩ := addConstraint_eq_ok h
  exact Array.toList_push

theorem constraints_addInTurn : ∀ (cs : List (Constraint ν)) (m : Model ν),
    (m.addInTurn cs).1.constraints.toList = m.constraints.toList ++ (m.addInTurn cs).2
  | [], _ => (List.append_nil _).symm
  | c :: rest, m => by
    unfold addInTurn
    split
    · rename_i m' h
      rw [constraints_addInTurn rest m', constraints_addConstraint h, List.append_assoc]
      rfl
    · exact (List.append_nil _).symm

theorem addVariable_eq_ok {m m' : Model ν} {name : String} {domain : Array ν}
    (h : m.addVariable name domain = .ok m') :
    m'.vars = m.vars.push ⟨name, domain⟩ ∧ m'.constraints = m.constraints := by
  unfold addVariable at h
  split at h
  · cases h
  · obtain rfl := Except.ok.inj h
    exact ⟨rfl, rfl⟩

theorem exists_addVariable {m : Model ν} {name : String} (h : m.find? name = none)
    (domain : Array ν) : ∃ m', m.addVariable name domain = .ok m' := by
  unfold addVariable
  rw [h]
  exact ⟨_, rfl⟩

theorem exists_addConstraint {m : Model ν} {a b : Nat} (ha : a < m.size) (hb : b < m.size)
    (hne : a ≠ b) (r : Relation ν) : ∃ m', m.addConstraint a b r = .ok m' := by
  have hname : ∀ v < m.size, ∃ name, m.name? v = some name :=
    fun v hv => ⟨_, congrArg (Option.map Variable.name) (Array.getElem?_eq_getElem hv)⟩
  obtain ⟨name, hname'⟩ := hname a ha
  obtain ⟨other, hother⟩ := hname b hb
  unfold addConstraint
  rw [hname', hother]
  dsimp only
  rw [if_neg hne]
  exact ⟨_, rfl⟩

theorem exists_foldlM_addConstraint [BEq ν] : ∀ (cs : List (Constraint ν)) {m : Model ν}, m.Built →
    (∀ c ∈ cs, c.left < m.size ∧ c.right < m.size ∧ c.left ≠ c.right) →
    ∃ m' : Model ν, cs.foldlM (fun m c => m.addConstraint c.left c.right c.relation) m = .ok m' ∧
      m'.Built ∧ m'.vars = m.vars ∧ m'.constraints.toList = m.constraints.toList ++ cs
  | [], m, hm, _ => ⟨m, rfl, hm, rfl, (List.append_nil _).symm⟩
  | c :: rest, m, hm, hcs => by
    obtain ⟨hleft, hright, hne⟩ := hcs c List.mem_cons_self
    obtain ⟨m₁, hadd⟩ := exists_addConstraint hleft hright hne c.relation
    have hvars : m₁.vars = m.vars := by
      obtain ⟨-, -, -, rfl⟩ := addConstraint_eq_ok hadd
      rfl
    have hsize : m₁.size = m.size := congrArg Array.size hvars
    obtain ⟨m', hrest, hbuilt, hvars', hconstraints⟩ := exists_foldlM_addConstraint rest
      (.addConstraint hm hadd) fun d hd => by rw [hsize]; exact hcs d (List.mem_cons_of_mem _ hd)
    refine ⟨m', ?_, hbuilt, hvars'.trans hvars, ?_⟩
    · rw [List.foldlM_cons, hadd]
      exact hrest
    · rw [hconstraints, constraints_addConstraint hadd, List.append_assoc]
      rfl

/-- Adding a relation to each of a list, and then more, is adding constraints in turn. -/
theorem addInTurn_toEach (r : Relation ν) (a : Nat) (more : List (Constraint ν)) :
    ∀ (vs : List Nat) (m : Model ν),
      (m.addInTurn (vs.map (fun b => ⟨a, b, r⟩) ++ more)).1 =
        match m.addToEach r a vs with
        | (m, .ok ()) => (m.addInTurn more).1
        | (m, .error _) => m
  | [], _ => rfl
  | b :: rest, m => by
    rw [List.map_cons, List.cons_append, addInTurn, addToEach]
    cases m.addConstraint a b r with
    | error e => rfl
    | ok m' => exact addInTurn_toEach r a more rest m'

section
variable [BEq ν]

/-- Requiring variables to differ is adding a constraint for each pair in turn. -/
theorem addAllDifferent_eq : ∀ (vs : List Nat) (m : Model ν),
    (m.addAllDifferent vs).1 = (m.addInTurn (differences vs)).1
  | [], _ => rfl
  | a :: rest, m => by
    have hpairs : (differences (a :: rest) : List (Constraint ν)) =
        rest.map (fun b => ⟨a, b, .unequal⟩) ++ differences rest := by
      simp [differences, pairsOf, Function.comp_def]
    rw [hpairs, addInTurn_toEach, addAllDifferent, Relation.unequal]
    obtain ⟨m', verdict⟩ := m.addToEach { holds := (· != ·) } a rest
    cases verdict with
    | ok _ => exact addAllDifferent_eq rest m'
    | error e => rfl

theorem constraints_after (m : Model ν) (call : BuildCall ν) :
    (m.after call).constraints.toList = m.constraints.toList ++ m.madeBy call := by
  cases call with
  | addVariable name domain =>
    dsimp only [after, madeBy]
    rw [List.append_nil]
    cases h : m.addVariable name domain with
    | ok m' => exact congrArg Array.toList (addVariable_eq_ok h).2
    | error e => rfl
  | addConstraint a b r =>
    dsimp only [after, madeBy]
    cases h : m.addConstraint a b r with
    | ok m' => exact constraints_addConstraint h
    | error e => exact (List.append_nil _).symm
  | addAllDifferent vs =>
    dsimp only [after, madeBy]
    rw [addAllDifferent_eq]
    exact constraints_addInTurn _ m

theorem constraints_foldl_after : ∀ (calls : List (BuildCall ν)) (m : Model ν),
    (calls.foldl after m).constraints.toList = m.constraints.toList ++ made m calls
  | [], _ => (List.append_nil _).symm
  | call :: rest, m => by
    rw [List.foldl_cons, constraints_foldl_after rest, constraints_after, made, List.append_assoc]

theorem Built.after {m : Model ν} (hm : m.Built) (call : BuildCall ν) : (m.after call).Built := by
  cases call with
  | addVariable name domain =>
    dsimp only [Model.after]
    cases h : m.addVariable name domain with
    | ok m' => exact .addVariable hm h
    | error e => exact hm
  | addConstraint a b r =>
    dsimp only [Model.after]
    cases h : m.addConstraint a b r with
    | ok m' => exact .addConstraint hm h
    | error e => exact hm
  | addAllDifferent vs => exact .addAllDifferent vs hm

theorem built_build (calls : List (BuildCall ν)) : (build calls).Built := by
  have h : ∀ (calls : List (BuildCall ν)) {m : Model ν}, m.Built →
      (calls.foldl Model.after m).Built := by
    intro calls
    induction calls with
    | nil => exact fun hm => hm
    | cons call rest ih => exact fun hm => ih (hm.after call)
  exact h calls .empty

end

end Model

/-! ## Questions asked one after the other -/

theorem allM_eq_some_true_iff {α : Type} {p : α → Option Bool} {l : List α} :
    l.allM p = some true ↔ ∀ x ∈ l, p x = some true := by
  induction l with
  | nil => simp
  | cons x rest ih =>
    rw [List.allM_cons, List.forall_mem_cons, ← ih]
    cases h : p x with
    | none => simp
    | some b => cases b <;> simp

theorem allM_eq_some_all {α : Type} {p : α → Option Bool} {q : α → Bool} {l : List α}
    (h : ∀ x ∈ l, p x = some (q x)) : l.allM p = some (l.all q) := by
  induction l with
  | nil => rfl
  | cons x rest ih =>
    rw [List.forall_mem_cons] at h
    rw [List.allM_cons, h.1, ih h.2, List.all_cons]
    cases q x <;> rfl

theorem mapM_count_eq_some_zero_iff {α : Type} {p : α → Option Bool} {l : List α} :
    ((l.mapM p).map fun found => found.count true) = some 0 ↔ ∀ x ∈ l, p x = some false := by
  induction l with
  | nil => simp
  | cons x rest ih =>
    rw [List.mapM_cons, List.forall_mem_cons, ← ih]
    cases hx : p x with
    | none => simp
    | some b =>
      cases hrest : rest.mapM p with
      | none => simp
      | some found => cases b <;> simp

theorem mapM_eq_some_map {α β : Type} {f : α → Option β} {g : α → β} {l : List α}
    (h : ∀ x ∈ l, f x = some (g x)) : l.mapM f = some (l.map g) := by
  induction l with
  | nil => rfl
  | cons x rest ih =>
    rw [List.forall_mem_cons] at h
    rw [List.mapM_cons, h.1, ih h.2]
    rfl

theorem mapM_count_eq_some_countP {α : Type} {p : α → Option Bool} {q : α → Bool} {l : List α}
    (h : ∀ x ∈ l, p x = some (q x)) :
    ((l.mapM p).map fun found => found.count true) = some (l.countP q) := by
  rw [mapM_eq_some_map h, Option.map_some, List.count, List.countP_map]
  congr 2
  funext x
  simp

/-! ## Solutions -/

namespace Model

theorem linkConflicts?_eq_some_false_iff {a : Assignment ν} {x : ν} {link : Link ν} :
    linkConflicts? a x link = some false ↔
      ∀ y, a.get? link.neighbor = some y → ∀ r ∈ link.relations, r.holds? x y = some true := by
  unfold linkConflicts?
  cases a.get? link.neighbor with
  | none => simp
  | some y =>
    have hallows : (link.allows? x y).map (!·) = some false ↔ link.allows? x y = some true := by
      cases link.allows? x y with
      | none => simp
      | some b => cases b <;> simp
    dsimp only
    rw [hallows, Link.allows?, allM_eq_some_true_iff]
    simp

namespace Linked

variable {m : Model ν} (hm : m.Linked)
include hm

theorem conflicts?_eq_some_zero_iff {a : Assignment ν} {v : Nat} (hv : v < m.size) {x : ν} :
    m.conflicts? a v x = some 0 ↔ ∀ w y, a.get? w = some y → m.Agree v x w y := by
  unfold conflicts?
  rw [if_pos hv, mapM_count_eq_some_zero_iff]
  simp only [linkConflicts?_eq_some_false_iff]
  constructor
  · intro h w y hy r hr
    obtain ⟨link, hlink, rfl⟩ := List.mem_map.1 (hm.mem_neighbors_iff.2 (List.ne_nil_of_mem hr))
    exact h link hlink y hy r (by rwa [hm.relations_eq hlink])
  · intro h link hlink y hy r hr
    exact h link.neighbor y hy r (by rwa [← hm.relations_eq hlink])

/-- A solution gives every variable a value, and every constraint is defined for the values and
holds. -/
theorem isSolution?_eq_some_true_iff {a : Assignment ν} :
    m.isSolution? a = some true ↔ (∀ v < m.size, ∃ x, a.get? v = some x) ∧
      ∀ c ∈ m.constraints.toList, ∃ x y,
        a.get? c.left = some x ∧ a.get? c.right = some y ∧ c.relation.holds? x y = some true := by
  have hzero : ∀ v < m.size, ∀ x, (m.conflicts? a v x).map (· == 0) = some true ↔
      ∀ w y, a.get? w = some y → m.Agree v x w y := by
    intro v hv x
    rw [← hm.conflicts?_eq_some_zero_iff hv]
    cases m.conflicts? a v x <;> simp
  unfold isSolution?
  rw [allM_eq_some_true_iff]
  constructor
  · intro h
    have hvalue : ∀ v < m.size, ∃ x, a.get? v = some x ∧
        ∀ w y, a.get? w = some y → m.Agree v x w y := by
      intro v hv
      have hasked := h v (List.mem_range.2 hv)
      cases hx : a.get? v with
      | none => rw [hx] at hasked; cases hasked
      | some x =>
        rw [hx] at hasked
        exact ⟨x, rfl, (hzero v hv x).1 hasked⟩
    refine ⟨fun v hv => (hvalue v hv).imp fun x hx => hx.1, fun c hc => ?_⟩
    obtain ⟨hleft, hright, -⟩ := hm.ends c hc
    obtain ⟨x, hx, hagree⟩ := hvalue c.left hleft
    obtain ⟨y, hy, -⟩ := hvalue c.right hright
    exact ⟨x, y, hx, hy, (hagree c.right y hy).holds? hc⟩
  · rintro ⟨hvalue, hholds⟩ v hv
    have hv := List.mem_range.1 hv
    obtain ⟨x, hx⟩ := hvalue v hv
    rw [hx]
    exact (hzero v hv x).2 fun w y hy => agree_of_holds hholds hx hy

/-! ## Relations that are defined for all values -/

theorem conflicts?_eq (ht : m.Total) (a : Assignment ν) {v : Nat} (hv : v < m.size) (x : ν) :
    m.conflicts? a v x = some (m.conflicts a v x) := by
  unfold conflicts? conflicts
  rw [if_pos hv]
  refine mapM_count_eq_some_countP fun link hlink => ?_
  unfold linkConflicts?
  cases a.get? link.neighbor with
  | none => rfl
  | some y =>
    have htotal := List.all_eq_true.1 (hm.isTotal_of_mem_links ht hlink)
    have hallows : link.allows? x y = some (link.allows x y) :=
      allM_eq_some_all fun r hr => Relation.holds?_of_isTotal (htotal r hr) x y
    dsimp only
    rw [hallows, Option.map_some]

theorem isSolution?_eq (ht : m.Total) (a : Assignment ν) :
    m.isSolution? a = some (m.isSolution a) := by
  unfold isSolution? isSolution
  refine allM_eq_some_all fun v hv => ?_
  cases a.get? v with
  | none => rfl
  | some x =>
    dsimp only
    rw [hm.conflicts?_eq ht a (List.mem_range.1 hv), Option.map_some]

/-- Conflicts are counted over all variables: with one that is no neighbour there is none. -/
theorem conflicts_eq (a : Assignment ν) (v : Nat) (x : ν) :
    m.conflicts a v x = (List.range m.size).countP fun w =>
      (a.get? w).any fun y => !m.consistent v x w y := by
  have hlinks : m.conflicts a v x = (m.neighbors v).countP fun w =>
      (a.get? w).any fun y => !m.consistent v x w y := by
    unfold conflicts neighbors
    rw [List.countP_map]
    refine List.countP_congr fun link hlink => ?_
    rw [Function.comp_apply]
    cases a.get? link.neighbor with
    | none => simp
    | some y =>
      rw [Option.any_some, hm.consistent_eq, ← hm.relations_eq hlink]
      exact Iff.rfl
  have hperm : ((List.range m.size).filter (· ∈ m.neighbors v)).Perm (m.neighbors v) := by
    refine (List.perm_ext_iff_of_nodup (List.nodup_range.filter _) (hm.nodup v)).2 fun w => ?_
    simp only [List.mem_filter, List.mem_range, decide_eq_true_eq, and_iff_right_iff_imp]
    exact fun hw => (hm.lt_size_of_mem_neighbors hw).2.1
  rw [hlinks, ← hperm.countP_eq, List.countP_filter]
  refine List.countP_congr fun w _ => ?_
  by_cases hw : w ∈ m.neighbors v
  · simp [hw]
  · rw [hm.mem_neighbors_iff, not_not] at hw
    cases a.get? w with
    | none => simp
    | some y => simp [hm.consistent_eq, hw]

/-! ## Symmetry -/

theorem consistent?_eq (a : Nat) (x : ν) (b : Nat) (y : ν) :
    m.consistent? a x b y = (m.relationsBetween a b).allM fun r => r.holds? x y := by
  rw [← hm.relationsTo a b]
  unfold consistent? Link.relationsTo Link.allows?
  cases (m.linksOf a).find? (·.neighbor == b) <;> rfl

theorem consistent?_comm (a : Nat) (x : ν) (b : Nat) (y : ν) :
    m.consistent? a x b y = m.consistent? b y a x := by
  rw [hm.consistent?_eq, hm.consistent?_eq, hm.relationsBetween_comm a b]
  induction m.relationsBetween a b with
  | nil => rfl
  | cons r rest ih => rw [List.map_cons, List.allM_cons, List.allM_cons, Relation.holds?_flip, ih]

end Linked
end Model

/-- **A built model means the constraints that were added.** An assignment is a solution exactly
when it gives every variable a value and each constraint whose addition succeeded is defined for the
values of its variables, in this order, and holds; if all are defined for all values, so is whether
it is one. Whether two values are consistent does not depend on the order of the variables. -/
theorem build_isSolution_iff [BEq ν] (calls : List (BuildCall ν)) :
    (∀ a : Assignment ν, (Model.build calls).isSolution? a = some true ↔
      (∀ v < (Model.build calls).size, ∃ x, a.get? v = some x) ∧
      ∀ c ∈ Model.made .empty calls, ∃ x y,
        a.get? c.left = some x ∧ a.get? c.right = some y ∧ c.relation.holds? x y = some true) ∧
    ((∀ c ∈ Model.made .empty calls, c.relation.isTotal = true) → ∀ a : Assignment ν,
      (Model.build calls).isSolution? a = some ((Model.build calls).isSolution a)) ∧
    ∀ a x b y,
      (Model.build calls).consistent a x b y = (Model.build calls).consistent b y a x ∧
      (Model.build calls).consistent? a x b y = (Model.build calls).consistent? b y a x := by
  have hlinked := (Model.built_build calls).linked
  have hmade : (Model.build calls).constraints.toList = Model.made .empty calls :=
    Model.constraints_foldl_after calls .empty
  rw [← hmade]
  refine ⟨fun a => hlinked.isSolution?_eq_some_true_iff, fun ht => hlinked.isSolution?_eq ht, ?_⟩
  intro a x b y
  exact ⟨hlinked.consistent_comm a x b y, hlinked.consistent?_comm a x b y⟩

/-- Of seven calls three are refused, the last one at the sixth pair. -/
example : ((Model.made .empty [.addVariable "x" #[1, 2, 3], .addVariable "y" #[1, 2, 3],
    .addVariable "x" #[4], .addConstraint 1 0 { holds := fun x y => x < y },
    .addConstraint 0 2 { holds := fun x y => x < y }, .addVariable "z" #[1, 2, 3],
    .addAllDifferent [0, 1, 2, 2]] : List (Constraint Nat)).map fun c => (c.left, c.right)) =
    [(1, 0), (0, 1), (0, 2), (0, 2), (1, 2), (1, 2)] := by cbv

end ProblemSolving
