import ProblemSolving.Proofs.Number.Difference
import ProblemSolving.Proofs.StateSpace.Expansion

/-!
# The way from the root to a node

* `SearchTree.solution_child`, `SearchTree.pathStates_child` : the way to a child is the way to its
  parent and one step more.
* `SearchTree.Grown.traced` : the way to a node is a legal path, and the node records its end, its
  length and its cost.
* `SearchTree.Fair`, `SearchTree.Fair.ascends` : no step of the tree lowers the cost, so the costs
  along the way ascend.
* `SearchTree.Reaches` : a goal stands in such a tree.
-/

namespace ProblemSolving

namespace Problem

variable {σ α κ : Type} {P : Problem σ α κ}

/-- Each action of a path is legal in the state that the actions before it lead to. -/
theorem Path.legal {s t : σ} {actions : List α} (h : P.Path s actions t) {i : Nat} {u : σ} {a : α}
    (hu : (actions.scanl P.result s)[i]? = some u) (ha : actions[i]? = some a) :
    a ∈ P.actions u := by
  induction h generalizing i with
  | nil => simp at ha
  | cons legal _ ih =>
    rw [List.scanl_cons] at hu
    cases i with
    | zero =>
      cases hu
      cases ha
      exact legal
    | succ i => exact ih hu ha

/-- No action lowers the cost of the actions before it. -/
def CostAscends [Scalar κ] (P : Problem σ α κ) (actions : List α) : Prop :=
  ∀ k < actions.length,
    Scalar.le (P.totalCost (actions.take k)) (P.totalCost (actions.take (k + 1))) = true

theorem costAscends_nil [Scalar κ] : P.CostAscends [] := fun _ hk => absurd hk (Nat.not_lt_zero _)

theorem CostAscends.concat [Scalar κ] {actions : List α} {a : α} (h : P.CostAscends actions)
    (hlast : Scalar.le (P.totalCost actions) (P.totalCost (actions ++ [a])) = true) :
    P.CostAscends (actions ++ [a]) := by
  intro k hk
  rw [List.length_append, List.length_singleton] at hk
  rcases Nat.lt_or_ge k actions.length with hlt | hge
  · rw [List.take_append_of_le_length hlt.le, List.take_append_of_le_length hlt]
    exact h k hlt
  · obtain rfl : k = actions.length := by omega
    rw [List.take_left, List.take_of_length_le (by simp)]
    exact hlast

end Problem

namespace SearchTree

variable {σ α κ : Type} {t : SearchTree σ α κ} {id parent : Nat} {node : Node σ α κ} {a : α}

/-! ## One step up -/

theorem path_root (h : t.get? id = some node) (ho : node.origin = none) : t.path id = [id] := by
  obtain ⟨state, origin, cost, depth⟩ := node
  cases ho
  unfold path
  rw [lineage, h]
  rfl

theorem path_child (h : t.get? id = some node) (ho : node.origin = some (parent, a))
    (hlt : parent < id) : t.path id = t.path parent ++ [id] := by
  obtain ⟨state, origin, cost, depth⟩ := node
  cases ho
  unfold path
  rw [lineage, h]
  simp only [if_pos hlt, List.reverse_cons]

theorem solution_root (h : t.get? id = some node) (ho : node.origin = none) :
    t.solution id = [] := by
  simp [solution, path_root h ho, h, ho]

theorem solution_child (h : t.get? id = some node) (ho : node.origin = some (parent, a))
    (hlt : parent < id) : t.solution id = t.solution parent ++ [a] := by
  simp [solution, path_child h ho hlt, h, ho]

theorem pathStates_root (h : t.get? id = some node) (ho : node.origin = none) :
    t.pathStates id = [node.state] := by
  simp [pathStates, path_root h ho, h]

theorem pathStates_child (h : t.get? id = some node) (ho : node.origin = some (parent, a))
    (hlt : parent < id) : t.pathStates id = t.pathStates parent ++ [node.state] := by
  simp [pathStates, path_child h ho hlt, h]

/-! ## The whole way -/

variable [Scalar κ] {P : Problem σ α κ}

/-- The way to a node is a legal path from the initial state, and the node records its end, its
length and its cost. -/
structure Traced (P : Problem σ α κ) (t : SearchTree σ α κ) (id : Nat) (node : Node σ α κ) :
    Prop where
  path : P.Path P.initial (t.solution id) node.state
  states : t.pathStates id = (t.solution id).scanl P.result P.initial
  depth : node.depth = (t.solution id).length
  cost : node.cost = P.totalCost (t.solution id)

theorem Traced.child {above : Placed σ α κ} (h : Traced P t above.id above.node)
    (ha : a ∈ P.actions above.node.state) (hnode : t.get? id = some (child P above a))
    (hlt : above.id < id) : Traced P t id (child P above a) := by
  have hsolution : t.solution id = t.solution above.id ++ [a] := solution_child hnode rfl hlt
  have hstates : t.pathStates id = t.pathStates above.id ++ [P.result above.node.state a] :=
    pathStates_child hnode rfl hlt
  constructor
  case path =>
    rw [hsolution]
    exact h.path.concat ha
  case states =>
    rw [hstates, hsolution, h.states, List.scanl_append, ← h.path.replay]
    rfl
  case depth =>
    rw [hsolution, List.length_append, ← h.depth]
    rfl
  case cost =>
    have htotal := Problem.costFrom_append h.path [a] 0
    rw [hsolution]
    unfold Problem.totalCost
    rw [htotal]
    show P.pathCost above.node.cost _ _ _ = _
    rw [h.cost]
    rfl

/-- Every node of a grown tree is traced back to the root, by strong induction on its number, since
parents come before their children. -/
theorem Grown.traced (hg : t.Grown P) (h : t.get? id = some node) : Traced P t id node := by
  induction id using Nat.strongRecOn generalizing node with
  | _ id ih =>
    rcases hg id node h with rfl | ⟨above, hlt, habove, a, ha, rfl⟩
    · have hsolution : t.solution id = [] := solution_root h rfl
      have hstates : t.pathStates id = [P.initial] := pathStates_root h rfl
      refine ⟨?_, ?_, ?_, ?_⟩ <;> simp only [hsolution, hstates]
      · exact .nil _
      · rfl
      · rfl
      · rfl
    · exact (ih above.id hlt habove).child ha h hlt

/-! ## Costs on the way -/

/-- No node costs less than its parent, as the expansion checks it. -/
def Fair (t : SearchTree σ α κ) : Prop :=
  ∀ id node, t.get? id = some node → ∀ parent a, node.origin = some (parent, a) →
    ∃ above, t.get? parent = some above ∧ lowersCost above.cost node = false

theorem fair_root : ((SearchTree.empty : SearchTree σ α κ).addRoot P.initial).1.Fair := by
  intro id node h parent a ho
  rcases grown_root (P := P) id node h with rfl | ⟨above, hlt, -, -⟩
  · cases ho
  · have hsize : id < 1 := get?_lt h
    omega

theorem Fair.expands {t' : SearchTree σ α κ} {above : Placed σ α κ} {kids : List (Placed σ α κ)}
    (hf : t.Fair) (hheld : t.Holds above) (h : Expands P t above t' kids) : t'.Fair := by
  intro id node hnode parent a ho
  rw [h.tree] at hnode
  rcases get?_pushAll hnode with hold | ⟨-, hnew⟩
  · obtain ⟨up, hup, hcost⟩ := hf id node hold parent a ho
    exact ⟨up, h.keeps _ _ hup, hcost⟩
  · have hcost := h.fair node hnew
    obtain ⟨b, -, rfl⟩ := mem_children.1 hnew
    cases ho
    exact ⟨above.node, hheld.keeps h.keeps, hcost⟩

/-- The costs on the way to a node of a fair tree ascend. -/
theorem Fair.ascends [DifferenceScalar κ] (hf : t.Fair) (hg : t.Grown P)
    (h : t.get? id = some node) : P.CostAscends (t.solution id) := by
  induction id using Nat.strongRecOn generalizing node with
  | _ id ih =>
    have htraced := hg.traced h
    rcases hg id node h with rfl | ⟨above, hlt, habove, a, ha, rfl⟩
    · rw [solution_root h rfl]
      exact Problem.costAscends_nil
    · obtain ⟨_, hup, hcost⟩ := hf id _ h above.id a rfl
      cases Option.some.inj (hup.symm.trans habove)
      have hsolution : t.solution id = t.solution above.id ++ [a] := solution_child h rfl hlt
      have hchild := htraced.cost
      rw [hsolution] at hchild
      rw [hsolution]
      refine (ih above.id hlt habove).concat ?_
      rw [← hchild, ← (hg.traced habove).cost]
      obtain ⟨hnan, hnonneg⟩ := Bool.or_eq_false_iff.1 hcost
      exact DifferenceScalar.le_of_sub hnan hnonneg

/-! ## Goals in a tree -/

/-- The node with this number is a goal, at most this deep, in a tree whose ways are legal and never
lower the cost. -/
structure Reaches (P : Problem σ α κ) (bound : Nat) (t : SearchTree σ α κ) (id : Nat) : Prop where
  grown : t.Grown P
  fair : t.Fair
  goal : ∃ node, t.get? id = some node ∧ P.isGoal node.state = true ∧ node.depth ≤ bound

theorem Reaches.mono {bound bound' : Nat} (h : t.Reaches P bound id) (hle : bound ≤ bound') :
    t.Reaches P bound' id := by
  obtain ⟨node, hnode, hgoal, hdepth⟩ := h.goal
  exact ⟨h.grown, h.fair, node, hnode, hgoal, hdepth.trans hle⟩

end SearchTree

end ProblemSolving
