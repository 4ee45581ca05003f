import ProblemSolving.Proofs.StateSpace.Lineage

/-!
# Forests of search nodes

* `SearchTree.Call`, `SearchTree.run` : roots are added and nodes expanded, one call after the other.
* `SearchTree.Answers`, `SearchTree.answers_expand` : all that an expansion can do.
* `SearchTree.Stands` : how a node stands in a forest, as a root or by a legal step from an earlier
  node that does not lower the cost.
* `SearchTree.Forest`, `SearchTree.Forest.run` : every node stands so, whatever is called.
* `SearchTree.Way`, `SearchTree.Forest.way_path` : so from every node the parents lead up to a root.
* `searchNodes_forest` : what holds of the nodes after any calls.
-/

namespace ProblemSolving

deriving instance DecidableEq for Node

namespace Node

variable {σ α κ : Type}

/-- The number of the node that a node was made of. -/
def parent? (node : Node σ α κ) : Option Nat := node.origin.map (·.1)

/-- The action that a node was made by. -/
def action? (node : Node σ α κ) : Option α := node.origin.map (·.2)

theorem parent?_eq_none_iff {node : Node σ α κ} : node.parent? = none ↔ node.origin = none :=
  Option.map_eq_none_iff

theorem parent?_eq_some_iff {node : Node σ α κ} {above : Nat} :
    node.parent? = some above ↔ ∃ a, node.origin = some (above, a) := by
  simp [parent?]

end Node

namespace SearchTree

variable {σ α κ : Type} [Scalar κ]

/-! ## Calls -/

/-- What is done to a tree. -/
inductive Call (σ : Type) where
  | root (state : σ)
  /-- To expand the node with this number. -/
  | expand (id : Nat)

/-- Does one call. Without a node of its number, an expansion changes nothing. -/
def perform (t : SearchTree σ α κ) (P : Problem σ α κ) : Call σ → SearchTree σ α κ
  | .root state => (t.addRoot state).1
  | .expand id =>
    match t.get? id with
    | none => t
    | some node => (t.expand P ⟨id, node⟩).1

/-- Does calls one after the other, also after one that came to a violation. -/
def run (t : SearchTree σ α κ) (P : Problem σ α κ) (calls : List (Call σ)) : SearchTree σ α κ :=
  calls.foldl (fun t call => t.perform P call) t

variable {P : Problem σ α κ} {t t' : SearchTree σ α κ} {parent : Placed σ α κ} {id : Nat}
  {node : Node σ α κ}

/-! ## All that an expansion can do -/

/-- What an expansion makes of the tree, and its answer. -/
inductive Answers (t : SearchTree σ α κ) (P : Problem σ α κ) (parent : Placed σ α κ) :
    SearchTree σ α κ → Except (Violation κ) (List (Placed σ α κ)) → Prop
  /-- All children are appended, with the next numbers and in the order of the actions. -/
  | children {kids : List (Placed σ α κ)} (hdefined : P.isDefined parent.node.state = true)
      (hfair : ∀ a ∈ P.actions parent.node.state,
        lowersCost parent.node.cost (child P parent a) = false)
      (hids : kids.map (·.id) = List.range' t.size (P.actions parent.node.state).length)
      (hnodes : kids.map (·.node) = (P.actions parent.node.state).map (child P parent)) :
      t.Answers P parent (t.pushAll ((P.actions parent.node.state).map (child P parent))) (.ok kids)
  /-- An action lowers the cost, and just the children by the actions before it are appended. -/
  | negativeStepCost {before after : List α} {a : α}
      (hdefined : P.isDefined parent.node.state = true)
      (hactions : P.actions parent.node.state = before ++ a :: after)
      (hfair : ∀ b ∈ before, lowersCost parent.node.cost (child P parent b) = false)
      (hlowers : lowersCost parent.node.cost (child P parent a) = true) :
      t.Answers P parent (t.pushAll (before.map (child P parent)))
        (.error (.negativeStepCost (parent.node.depth + 1)
          ((child P parent a).cost - parent.node.cost)))
  /-- The actions are not defined, and nothing is appended. -/
  | undefined (hundefined : P.isDefined parent.node.state = false) :
      t.Answers P parent t (.error (.undefined parent.node.depth))

/-- Of children one of which lowers the cost, those before the first such one are by the actions
before its own. -/
theorem exists_before_of_find? {bad : Node σ α κ}
    (h : (children P parent).find? (lowersCost parent.node.cost) = some bad) :
    ∃ before a after, P.actions parent.node.state = before ++ a :: after ∧
      child P parent a = bad ∧
      (∀ b ∈ before, lowersCost parent.node.cost (child P parent b) = false) ∧
      (children P parent).takeWhile (fun node => !lowersCost parent.node.cost node) =
        before.map (child P parent) := by
  obtain ⟨hbad, fair, rest, hsplit, hfair⟩ := List.find?_eq_some_iff_append.1 h
  rw [children_eq] at hsplit
  obtain ⟨before, rest', hactions, rfl, hrest⟩ := List.map_eq_append_iff.1 hsplit
  obtain ⟨a, after, rfl, rfl, rfl⟩ := List.map_eq_cons_iff.1 hrest
  refine ⟨before, a, after, hactions, rfl, fun b hb => ?_, ?_⟩
  · simpa using hfair _ (List.mem_map_of_mem hb)
  · rw [children_eq, hsplit, List.takeWhile_append_of_pos hfair,
      List.takeWhile_cons_of_neg (by simp [hbad]), List.append_nil]

theorem answers_expand (P : Problem σ α κ) (t : SearchTree σ α κ) (parent : Placed σ α κ) :
    t.Answers P parent (t.expand P parent).1 (t.expand P parent).2 := by
  cases hdefined : P.isDefined parent.node.state with
  | false =>
    have hexpand : t.expand P parent = (t, .error (.undefined parent.node.depth)) := by
      simp [expand, hdefined]
    rw [hexpand]
    exact .undefined hdefined
  | true =>
    cases hfind : (children P parent).find? (lowersCost parent.node.cost) with
    | none =>
      have hexpand : t.expand P parent =
          (t.pushAll (children P parent), .ok (numbered t.size (children P parent))) := by
        simp [expand, hdefined, hfind]
      have hexpands := expand_ok hexpand
      rw [hexpand]
      refine .children hdefined (fun a ha => ?_) ?_ hexpands.map_node
      · exact hexpands.fair _ (mem_children.2 ⟨a, ha, rfl⟩)
      · rw [hexpands.map_id, hexpands.length_eq]
    | some bad =>
      obtain ⟨before, a, after, hactions, rfl, hfair, hbefore⟩ := exists_before_of_find? hfind
      have hexpand : t.expand P parent = (t.pushAll (before.map (child P parent)),
          .error (.negativeStepCost (parent.node.depth + 1)
            ((child P parent a).cost - parent.node.cost))) := by
        simp only [expand, hdefined, hfind, hbefore, Bool.not_true, Bool.false_eq_true, if_false]
        rfl
      rw [hexpand]
      exact .negativeStepCost hdefined hactions hfair (List.find?_some hfind)

theorem Answers.exists_appended {answer : Except (Violation κ) (List (Placed σ α κ))}
    (h : t.Answers P parent t' answer) :
    ∃ nodes, t' = t.pushAll nodes ∧ ∀ node ∈ nodes, ∃ a ∈ P.actions parent.node.state,
      lowersCost parent.node.cost (child P parent a) = false ∧ child P parent a = node := by
  cases h with
  | children _ hfair =>
    refine ⟨_, rfl, fun node hnode => ?_⟩
    obtain ⟨a, ha, rfl⟩ := List.mem_map.1 hnode
    exact ⟨a, ha, hfair a ha, rfl⟩
  | negativeStepCost _ hactions hfair =>
    refine ⟨_, rfl, fun node hnode => ?_⟩
    obtain ⟨b, hb, rfl⟩ := List.mem_map.1 hnode
    exact ⟨b, hactions ▸ List.mem_append_left _ hb, hfair b hb, rfl⟩
  | undefined => exact ⟨[], (pushAll_nil t).symm, fun _ hnode => absurd hnode List.not_mem_nil⟩

/-! ## Forests -/

/-- A node records the step from its parent by an action: the step is legal, it does not lower the
cost, and goes one deeper. -/
structure Continues (P : Problem σ α κ) (parent : Node σ α κ) (a : α) (node : Node σ α κ) :
    Prop where
  legal : a ∈ P.actions parent.state
  state : node.state = P.result parent.state a
  cost : node.cost = P.pathCost parent.cost parent.state a node.state
  isNumber : Scalar.isNaN node.cost = false
  notCheaper : Scalar.le parent.cost node.cost = true
  depth : node.depth = parent.depth + 1

/-- How a node stands in a forest: as a root, or by a step from an earlier node. -/
inductive Stands (t : SearchTree σ α κ) (P : Problem σ α κ) (id : Nat) (node : Node σ α κ) : Prop
  | root (hparent : node.parent? = none) (haction : node.action? = none) (hdepth : node.depth = 0)
      (hcost : node.cost = 0)
  | child {above : Nat} {parent : Node σ α κ} {a : α} (hparent : node.parent? = some above)
      (haction : node.action? = some a) (hearlier : above < id) (hheld : t.get? above = some parent)
      (hcontinues : Continues P parent a node)

/-- Every node of the tree is a root, or was made of an earlier node. -/
def Forest (t : SearchTree σ α κ) (P : Problem σ α κ) : Prop :=
  ∀ id node, t.get? id = some node → t.Stands P id node

theorem stands_rootNode (P : Problem σ α κ) (t : SearchTree σ α κ) (id : Nat) (state : σ) :
    t.Stands P id (rootNode state) :=
  .root rfl rfl rfl rfl

theorem stands_child [OrderedScalar κ] [DifferenceScalar κ] (hheld : t.Holds parent) {a : α}
    (ha : a ∈ P.actions parent.node.state)
    (hfair : lowersCost parent.node.cost (child P parent a) = false) (hid : t.size ≤ id) :
    t.Stands P id (child P parent a) := by
  obtain ⟨hnan, hnonneg⟩ := Bool.or_eq_false_iff.1 hfair
  have hle : Scalar.le parent.node.cost (child P parent a).cost = true :=
    DifferenceScalar.le_of_sub hnan hnonneg
  have hcontinues : Continues P parent.node a (child P parent a) :=
    ⟨ha, rfl, rfl, OrderedScalar.isNumber_right hle, hle, rfl⟩
  exact .child rfl rfl (Nat.lt_of_lt_of_le (get?_lt hheld) hid) hheld hcontinues

theorem Stands.keeps (h : t.Stands P id node) (hk : t.Keeps t') : t'.Stands P id node := by
  cases h with
  | root hparent haction hdepth hcost => exact .root hparent haction hdepth hcost
  | child hparent haction hearlier hheld hcontinues =>
    exact .child hparent haction hearlier (hk _ _ hheld) hcontinues

theorem Forest.pushAll (h : t.Forest P) {nodes : List (Node σ α κ)}
    (hnew : ∀ node ∈ nodes, ∀ id, t.size ≤ id → t.Stands P id node) :
    (t.pushAll nodes).Forest P := by
  intro id node hnode
  rcases get?_pushAll hnode with hold | ⟨hge, hmem⟩
  · exact (h id node hold).keeps (keeps_pushAll t nodes)
  · exact (hnew node hmem id hge).keeps (keeps_pushAll t nodes)

/-- Every call keeps a forest one, also an expansion that comes to a violation. -/
theorem Forest.perform [OrderedScalar κ] [DifferenceScalar κ] (h : t.Forest P) (call : Call σ) :
    (t.perform P call).Forest P := by
  cases call with
  | root state =>
    have hroot : t.perform P (.root state) = t.pushAll [rootNode state] := by
      simp [SearchTree.perform, addRoot, push, SearchTree.pushAll]
    rw [hroot]
    refine h.pushAll fun node hnode id _ => ?_
    rw [List.mem_singleton.1 hnode]
    exact stands_rootNode P t id state
  | expand id =>
    unfold SearchTree.perform
    dsimp only
    split
    · exact h
    next parent hheld =>
      have hholds : t.Holds ⟨id, parent⟩ := hheld
      obtain ⟨nodes, htree, hnodes⟩ := (answers_expand P t ⟨id, parent⟩).exists_appended
      rw [htree]
      refine h.pushAll fun node hnode id' hid => ?_
      obtain ⟨a, ha, hfair, rfl⟩ := hnodes node hnode
      exact stands_child hholds ha hfair hid

theorem Forest.run [OrderedScalar κ] [DifferenceScalar κ] (h : t.Forest P)
    (calls : List (Call σ)) : (t.run P calls).Forest P := by
  induction calls generalizing t with
  | nil => exact h
  | cons call rest ih => exact ih (h.perform call)

theorem forest_empty (P : Problem σ α κ) : (empty : SearchTree σ α κ).Forest P := by
  intro id node h
  simp [empty, get?] at h

/-! ## The way from a root -/

/-- The numbers lead from a root down to a node. The walk from the node up to its parent, and on until
there is none, passes them from the last to the first. -/
inductive Way (t : SearchTree σ α κ) : List Nat → Nat → Prop
  | root {id : Nat} {node : Node σ α κ} (h : t.get? id = some node) (hparent : node.parent? = none) :
      Way t [id] id
  | child {ids : List Nat} {id above : Nat} {node : Node σ α κ} (h : t.get? id = some node)
      (hparent : node.parent? = some above) (before : Way t ids above) : Way t (ids ++ [id]) id

omit [Scalar κ] in
theorem Way.exists_root {ids : List Nat} (h : t.Way ids id) :
    ∃ first root, ids.head? = some first ∧ t.get? first = some root ∧ root.parent? = none := by
  induction h with
  | root h hparent => exact ⟨_, _, rfl, h, hparent⟩
  | child _ _ _ ih =>
    obtain ⟨first, root, hhead, hroot⟩ := ih
    exact ⟨first, root, by rw [List.head?_append, hhead]; rfl, hroot⟩

/-- In a forest the walk up from a node ends, by strong induction on its number, as parents come
before their children. -/
theorem Forest.way_path (hf : t.Forest P) (h : t.get? id = some node) :
    t.Way (t.path id) id ∧ (t.path id).length = node.depth + 1 := by
  induction id using Nat.strongRecOn generalizing node with
  | _ id ih =>
    cases hf id node h with
    | root hparent _ hdepth _ =>
      rw [path_root h (Node.parent?_eq_none_iff.1 hparent), hdepth]
      exact ⟨.root h hparent, rfl⟩
    | @child above parent _ hparent _ hearlier hheld hcontinues =>
      obtain ⟨_, horigin⟩ := Node.parent?_eq_some_iff.1 hparent
      obtain ⟨hway, hlength⟩ := ih above hearlier hheld
      rw [path_child h horigin hearlier]
      refine ⟨.child h hparent hway, ?_⟩
      rw [List.length_append, hlength, hcontinues.depth]
      rfl

theorem Forest.path_of_way (hf : t.Forest P) {ids : List Nat} (h : t.Way ids id) :
    ids = t.path id := by
  induction h with
  | root h hparent => exact (path_root h (Node.parent?_eq_none_iff.1 hparent)).symm
  | @child ids id above node h hparent _ ih =>
    obtain ⟨_, horigin⟩ := Node.parent?_eq_some_iff.1 hparent
    cases hf id node h with
    | root hnone =>
      rw [hnone] at hparent
      cases hparent
    | child hsome _ hearlier =>
      cases hsome.symm.trans hparent
      rw [ih, path_child h horigin hearlier]

end SearchTree

/-- **Search nodes always make up a well-formed forest.** After any calls, every node is a root without
an action, at depth and cost zero, or records a legal step from an earlier node, one deeper and at a
cost that is a number and not below the one before. The walk up from a node ends at a root; it passes
just the numbers of the path, one more than the node is deep. An expansion leaves the nodes as they are
and appends all the children of its node, or just those by the actions before the first one that lowers
the cost. -/
theorem searchNodes_forest {σ α κ : Type} [Scalar κ] [OrderedScalar κ] [DifferenceScalar κ]
    (P : Problem σ α κ) (calls : List (SearchTree.Call σ)) :
    let t := SearchTree.empty.run P calls
    ∀ id node, t.get? id = some node →
      t.Stands P id node ∧
      (∀ ids, t.Way ids id ↔ ids = t.path id) ∧
      (t.path id).length = node.depth + 1 ∧
      (∃ first root, (t.path id).head? = some first ∧ t.get? first = some root ∧
        root.parent? = none) ∧
      t.Keeps (t.expand P ⟨id, node⟩).1 ∧
      t.Answers P ⟨id, node⟩ (t.expand P ⟨id, node⟩).1 (t.expand P ⟨id, node⟩).2 := by
  intro t id node h
  have hforest : t.Forest P := (SearchTree.forest_empty P).run calls
  obtain ⟨hway, hlength⟩ := hforest.way_path h
  refine ⟨hforest id node h, fun ids => ⟨hforest.path_of_way, ?_⟩, hlength, hway.exists_root,
    SearchTree.keeps_expand t P _, SearchTree.answers_expand P t _⟩
  rintro rfl
  exact hway

/-- A road on which one goes a mile or two at a time, and pays for each mile. From the first mile on,
two miles cost less than nothing. -/
def tollRoad : Problem Nat Nat Double where
  initial := 0
  actions _ := [1, 2]
  result s miles := s + miles
  isGoal s := s == 9
  pathCost cost s miles _ := if s == 1 && miles == 2 then cost - 1 else cost + Scalar.ofNat miles
  heuristic _ := 0

/-- The start is expanded twice. Between, so is the first mile, which comes to a violation. -/
def tollRoadCalls : List (SearchTree.Call Nat) := [.root 0, .expand 0, .expand 1, .expand 0, .root 1]

/-- The node that was appended before the violation, and its parent, which can be expanded again. -/
theorem tollRoad_forest :
    let t := SearchTree.empty.run tollRoad tollRoadCalls
    let first : Node Nat Nat Double := ⟨1, some (0, 1), 1, 1⟩
    let second : Node Nat Nat Double := ⟨2, some (1, 1), Scalar.ofNat 2, 2⟩
    (t.get? 3 = some second ∧ t.Stands tollRoad 3 second ∧ (∀ ids, t.Way ids 3 ↔ ids = [0, 1, 3])) ∧
    t.get? 1 = some first ∧ (t.expand tollRoad ⟨1, first⟩).1.size = 7 + 1 ∧
      t.Keeps (t.expand tollRoad ⟨1, first⟩).1 ∧
      t.Answers tollRoad ⟨1, first⟩ (t.expand tollRoad ⟨1, first⟩).1
        (t.expand tollRoad ⟨1, first⟩).2 := by
  intro t first second
  have hsecond : t.get? 3 = some second := by decide +kernel
  have hfirst : t.get? 1 = some first := by decide +kernel
  have hpath : t.path 3 = [0, 1, 3] := by decide +kernel
  have hsize : (t.expand tollRoad ⟨1, first⟩).1.size = 7 + 1 := by decide +kernel
  obtain ⟨hstands, hway, -⟩ := searchNodes_forest tollRoad tollRoadCalls 3 second hsecond
  obtain ⟨-, -, -, -, hkeeps, hanswers⟩ := searchNodes_forest tollRoad tollRoadCalls 1 first hfirst
  rw [← hpath]
  exact ⟨⟨hsecond, hstands, hway⟩, hfirst, hsize, hkeeps, hanswers⟩

end ProblemSolving
