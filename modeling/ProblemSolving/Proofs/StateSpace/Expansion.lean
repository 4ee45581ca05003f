import ProblemSolving.Proofs.StateSpace.Paths
import ProblemSolving.StateSpace.SearchTree

/-!
# What an expansion adds to a search tree

* `SearchTree.child` : the child of a node by an action.
* `SearchTree.Keeps` : every node of one tree stands in another, with its number.
* `SearchTree.Holds` : a node stands in a tree with its number.
* `SearchTree.expand_ok` : a successful expansion appends the children, in the order of the actions.
* `SearchTree.expand_error` : one that comes to a violation appends the first few at most.
* `SearchTree.Grown` : every node is the root or a child of an earlier one, so it stands for a path.
-/

namespace ProblemSolving

namespace SearchTree

variable {σ α κ : Type}

/-! ## Nodes and their numbers -/

/-- Every node of the tree stands in the other one, with its number. -/
def Keeps (t t' : SearchTree σ α κ) : Prop :=
  ∀ id node, t.get? id = some node → t'.get? id = some node

theorem Keeps.refl (t : SearchTree σ α κ) : t.Keeps t := fun _ _ h => h

theorem Keeps.trans {t t' t'' : SearchTree σ α κ} (h : t.Keeps t') (h' : t'.Keeps t'') :
    t.Keeps t'' :=
  fun id node hn => h' id node (h id node hn)

/-- The node stands in the tree with its number. -/
def Holds (t : SearchTree σ α κ) (n : Placed σ α κ) : Prop := t.get? n.id = some n.node

theorem Holds.keeps {t t' : SearchTree σ α κ} {n : Placed σ α κ} (h : t.Holds n)
    (hk : t.Keeps t') : t'.Holds n :=
  hk _ _ h

theorem Holds.eq {t : SearchTree σ α κ} {m n : Placed σ α κ} (hm : t.Holds m) (hn : t.Holds n)
    (hid : m.id = n.id) : m = n := by
  obtain ⟨id, node⟩ := m
  obtain ⟨_, node'⟩ := n
  cases hid
  cases Option.some.inj (hm.symm.trans hn)
  rfl

theorem get?_lt {t : SearchTree σ α κ} {id : Nat} {node : Node σ α κ}
    (h : t.get? id = some node) : id < t.size :=
  (Array.getElem?_eq_some_iff.1 h).1

theorem get?_pushAll_eq (t : SearchTree σ α κ) (nodes : List (Node σ α κ)) (id : Nat) :
    (t.pushAll nodes).get? id = (t.nodes.toList ++ nodes)[id]? := by
  show (t.nodes ++ nodes)[id]? = _
  rw [← Array.getElem?_toList, Array.toList_appendList]

theorem keeps_pushAll (t : SearchTree σ α κ) (nodes : List (Node σ α κ)) :
    t.Keeps (t.pushAll nodes) := by
  intro id node h
  have hlt : id < t.nodes.toList.length := get?_lt h
  rw [get?_pushAll_eq, List.getElem?_append_left hlt, Array.getElem?_toList]
  exact h

theorem get?_pushAll {t : SearchTree σ α κ} {nodes : List (Node σ α κ)} {id : Nat}
    {node : Node σ α κ} (h : (t.pushAll nodes).get? id = some node) :
    t.get? id = some node ∨ t.size ≤ id ∧ node ∈ nodes := by
  rw [get?_pushAll_eq] at h
  rcases Nat.lt_or_ge id t.nodes.toList.length with hlt | hge
  · rw [List.getElem?_append_left hlt, Array.getElem?_toList] at h
    exact .inl h
  · rw [List.getElem?_append_right hge] at h
    exact .inr ⟨hge, List.mem_of_getElem? h⟩

theorem mem_numbered {first : Nat} {nodes : List (Node σ α κ)} {n : Placed σ α κ} :
    n ∈ numbered first nodes ↔ first ≤ n.id ∧ nodes[n.id - first]? = some n.node := by
  rw [← List.mk_mem_zipIdx_iff_le_and_getElem?_sub]
  constructor
  · intro h
    obtain ⟨⟨node, id⟩, hmem, rfl⟩ := List.mem_map.1 h
    exact hmem
  · intro h
    exact List.mem_map.2 ⟨(n.node, n.id), h, rfl⟩

theorem map_node_numbered (first : Nat) (nodes : List (Node σ α κ)) :
    (numbered first nodes).map (·.node) = nodes := by
  simp only [numbered, List.map_map]
  exact List.zipIdx_map_fst first nodes

theorem pushAll_nil (t : SearchTree σ α κ) : t.pushAll [] = t := by
  simp [pushAll]

theorem size_pushAll (t : SearchTree σ α κ) (nodes : List (Node σ α κ)) :
    (t.pushAll nodes).size = t.size + nodes.length := by
  show (t.nodes ++ nodes).size = _
  rw [← Array.length_toList, Array.toList_appendList, List.length_append]
  rfl

theorem truncate_pushAll (t : SearchTree σ α κ) (nodes : List (Node σ α κ)) :
    (t.pushAll nodes).truncate t.size = t := by
  obtain ⟨before⟩ := t
  have hlist : ((before ++ nodes).shrink before.size).toList = before.toList := by
    rw [Array.toList_shrink, Array.toList_appendList]
    exact List.take_left
  exact congrArg SearchTree.mk (Array.toList_inj.1 hlist)

theorem id_of_numbered_eq_cons {first : Nat} {nodes : List (Node σ α κ)} {n : Placed σ α κ}
    {rest : List (Placed σ α κ)} (h : numbered first nodes = n :: rest) : n.id = first := by
  cases nodes with
  | nil => cases h
  | cons node nodes =>
    cases h
    rfl

theorem pushAll_of_numbered_eq_nil {t : SearchTree σ α κ} {nodes : List (Node σ α κ)}
    (h : numbered t.size nodes = []) : t.pushAll nodes = t := by
  rw [← map_node_numbered t.size nodes, h]
  exact pushAll_nil t

theorem truncate_of_numbered_eq_cons {t : SearchTree σ α κ} {nodes : List (Node σ α κ)}
    {n : Placed σ α κ} {rest : List (Placed σ α κ)} (h : numbered t.size nodes = n :: rest) :
    (t.pushAll nodes).truncate n.id = t := by
  rw [id_of_numbered_eq_cons h, truncate_pushAll]

theorem holds_of_mem_numbered {t : SearchTree σ α κ} {nodes : List (Node σ α κ)}
    {n : Placed σ α κ} (h : n ∈ numbered t.size nodes) : (t.pushAll nodes).Holds n := by
  obtain ⟨hge, hn⟩ := mem_numbered.1 h
  have hlen : t.nodes.toList.length ≤ n.id := hge
  show (t.pushAll nodes).get? n.id = some n.node
  rw [get?_pushAll_eq, List.getElem?_append_right hlen]
  exact hn

/-! ## Expansions -/

variable {P : Problem σ α κ}

/-- The child of a node by an action. -/
def child (P : Problem σ α κ) (parent : Placed σ α κ) (a : α) : Node σ α κ :=
  let here := parent.node
  let next := P.result here.state a
  ⟨next, some (parent.id, a), P.pathCost here.cost here.state a next, here.depth + 1⟩

theorem children_eq (parent : Placed σ α κ) :
    children P parent = (P.actions parent.node.state).map (child P parent) := rfl

theorem mem_children {parent : Placed σ α κ} {node : Node σ α κ} :
    node ∈ children P parent ↔ ∃ a ∈ P.actions parent.node.state, child P parent a = node :=
  List.mem_map

theorem exists_action_of_mem_numbered {first : Nat} {parent kid : Placed σ α κ}
    (h : kid ∈ numbered first (children P parent)) :
    ∃ a ∈ P.actions parent.node.state, child P parent a = kid.node :=
  mem_children.1 (List.mem_of_getElem? (mem_numbered.1 h).2)

variable [Scalar κ]

/-- What a successful expansion does. -/
structure Expands (P : Problem σ α κ) (t : SearchTree σ α κ) (parent : Placed σ α κ)
    (t' : SearchTree σ α κ) (kids : List (Placed σ α κ)) : Prop where
  isDefined : P.isDefined parent.node.state = true
  tree : t' = t.pushAll (children P parent)
  kids : kids = numbered t.size (children P parent)
  fair : ∀ node ∈ children P parent, lowersCost parent.node.cost node = false

theorem expand_ok {t t' : SearchTree σ α κ} {parent : Placed σ α κ} {kids : List (Placed σ α κ)}
    (h : t.expand P parent = (t', .ok kids)) : Expands P t parent t' kids := by
  unfold expand at h
  cases hdefined : P.isDefined parent.node.state with
  | false => simp [hdefined] at h
  | true =>
    simp only [hdefined, Bool.not_true, Bool.false_eq_true, if_false] at h
    cases hfind : (children P parent).find? (lowersCost parent.node.cost) with
    | some bad => simp [hfind] at h
    | none =>
      simp only [hfind, Prod.mk.injEq, Except.ok.injEq] at h
      refine ⟨hdefined, h.1.symm, h.2.symm, ?_⟩
      simpa using hfind

/-- An expansion that comes to a violation adds some of the children at most. -/
theorem expand_error {t t' : SearchTree σ α κ} {parent : Placed σ α κ} {violation : Violation κ}
    (h : t.expand P parent = (t', .error violation)) :
    ∃ made, made <+: children P parent ∧ t' = t.pushAll made := by
  unfold expand at h
  split at h
  · cases h
    exact ⟨[], List.nil_prefix, (pushAll_nil t).symm⟩
  dsimp only at h
  split at h
  · cases h
    exact ⟨_, List.takeWhile_prefix _, rfl⟩
  · cases h

/-- An expansion adds nothing before a violation that is no fall of the path cost. -/
theorem expand_error_eq {t t' : SearchTree σ α κ} {parent : Placed σ α κ} {violation : Violation κ}
    (h : t.expand P parent = (t', .error violation))
    (hviolation : ∀ depth step, violation ≠ .negativeStepCost depth step) : t' = t := by
  unfold expand at h
  split at h
  · cases h
    rfl
  dsimp only at h
  split at h
  · cases h
    exact absurd rfl (hviolation _ _)
  · cases h

theorem keeps_expand (t : SearchTree σ α κ) (P : Problem σ α κ) (parent : Placed σ α κ) :
    t.Keeps (t.expand P parent).1 := by
  unfold expand
  split
  · exact .refl t
  dsimp only
  split
  · exact keeps_pushAll t _
  · exact keeps_pushAll t _

namespace Expands

variable {t t' : SearchTree σ α κ} {parent : Placed σ α κ} {kids : List (Placed σ α κ)}

theorem keeps (h : Expands P t parent t' kids) : t.Keeps t' :=
  h.tree ▸ keeps_pushAll t _

theorem holds (h : Expands P t parent t' kids) : ∀ kid ∈ kids, t'.Holds kid := by
  intro kid hkid
  rw [h.kids] at hkid
  rw [h.tree]
  exact holds_of_mem_numbered hkid

theorem map_node (h : Expands P t parent t' kids) :
    kids.map (·.node) = (P.actions parent.node.state).map (child P parent) := by
  rw [h.kids, map_node_numbered, children_eq]

theorem exists_action (h : Expands P t parent t' kids) {kid : Placed σ α κ} (hkid : kid ∈ kids) :
    ∃ a ∈ P.actions parent.node.state, child P parent a = kid.node := by
  rw [h.kids] at hkid
  exact exists_action_of_mem_numbered hkid

theorem exists_kid (h : Expands P t parent t' kids) {a : α}
    (ha : a ∈ P.actions parent.node.state) : ∃ kid ∈ kids, kid.node = child P parent a := by
  have hnode : child P parent a ∈ kids.map (·.node) := by
    rw [h.map_node]
    exact List.mem_map_of_mem ha
  exact List.mem_map.1 hnode

theorem exists_state_iff (h : Expands P t parent t' kids) {p : σ → Prop} :
    (∃ kid ∈ kids, p kid.node.state) ↔
      ∃ a ∈ P.actions parent.node.state, p (P.result parent.node.state a) := by
  constructor
  · rintro ⟨kid, hkid, hp⟩
    obtain ⟨a, ha, hchild⟩ := h.exists_action hkid
    rw [← hchild] at hp
    exact ⟨a, ha, hp⟩
  · rintro ⟨a, ha, hp⟩
    obtain ⟨kid, hkid, hnode⟩ := h.exists_kid ha
    exact ⟨kid, hkid, by rw [hnode]; exact hp⟩

theorem map_id (h : Expands P t parent t' kids) :
    kids.map (·.id) = List.range' t.size kids.length := by
  have hlength : kids.length = (children P parent).length := by
    rw [h.kids, numbered, List.length_map, List.length_zipIdx]
  rw [hlength, h.kids, numbered, List.map_map]
  exact List.zipIdx_map_snd ..

theorem nodup_ids (h : Expands P t parent t' kids) : (kids.map (·.id)).Nodup := by
  rw [h.map_id]
  exact List.nodup_range'

theorem size_le_id (h : Expands P t parent t' kids) {kid : Placed σ α κ} (hkid : kid ∈ kids) :
    t.size ≤ kid.id := by
  rw [h.kids] at hkid
  exact (mem_numbered.1 hkid).1

theorem size_eq (h : Expands P t parent t' kids) :
    t'.size = t.size + (P.actions parent.node.state).length := by
  rw [h.tree, size_pushAll, children_eq, List.length_map]

theorem length_eq (h : Expands P t parent t' kids) :
    kids.length = (P.actions parent.node.state).length := by
  have hnodes := congrArg List.length h.map_node
  rwa [List.length_map, List.length_map] at hnodes

theorem depth_eq (h : Expands P t parent t' kids) {kid : Placed σ α κ} (hkid : kid ∈ kids) :
    kid.node.depth = parent.node.depth + 1 := by
  obtain ⟨a, -, hchild⟩ := h.exists_action hkid
  rw [← hchild]
  rfl

end Expands

/-! ## Trees grown from the root -/

/-- Every node is the root or the child, by a legal action, of an earlier node. -/
def Grown (P : Problem σ α κ) (t : SearchTree σ α κ) : Prop :=
  ∀ id node, t.get? id = some node → node = rootNode P.initial ∨
    ∃ parent : Placed σ α κ, parent.id < id ∧ t.Holds parent ∧
      ∃ a ∈ P.actions parent.node.state, node = child P parent a

theorem grown_root : (SearchTree.empty.addRoot P.initial).1.Grown P := by
  intro id node h
  rcases id with _ | id
  · exact .inl (Option.some.inj h).symm
  · simp [addRoot, push, empty, get?] at h

theorem Grown.expands {t t' : SearchTree σ α κ} {parent : Placed σ α κ}
    {kids : List (Placed σ α κ)} (hg : t.Grown P) (hparent : t.Holds parent)
    (h : Expands P t parent t' kids) : t'.Grown P := by
  intro id node hnode
  rw [h.tree] at hnode
  rcases get?_pushAll hnode with hold | ⟨hge, hnew⟩
  · rcases hg id node hold with hroot | ⟨above, hlt, habove, ha⟩
    · exact .inl hroot
    · exact .inr ⟨above, hlt, habove.keeps h.keeps, ha⟩
  · obtain ⟨a, ha, rfl⟩ := mem_children.1 hnew
    have hlt : parent.id < id := Nat.lt_of_lt_of_le (get?_lt hparent) hge
    exact .inr ⟨parent, hlt, hparent.keeps h.keeps, a, ha, rfl⟩

theorem Grown.depth_le {t : SearchTree σ α κ} (hg : t.Grown P) {id : Nat} {node : Node σ α κ}
    (h : t.get? id = some node) : node.depth ≤ id := by
  induction id using Nat.strongRecOn generalizing node with
  | _ id ih =>
    rcases hg id node h with rfl | ⟨parent, hlt, hparent, a, -, rfl⟩
    · exact Nat.zero_le id
    · exact Nat.lt_of_le_of_lt (ih parent.id hlt hparent) hlt

theorem Grown.attained {t : SearchTree σ α κ} (hg : t.Grown P) {id : Nat} {node : Node σ α κ}
    (h : t.get? id = some node) : P.Attained node.state node.cost := by
  induction id using Nat.strongRecOn generalizing node with
  | _ id ih =>
    rcases hg id node h with rfl | ⟨parent, hlt, hparent, a, ha, rfl⟩
    · exact Problem.attained_initial
    · exact (ih parent.id hlt hparent).step ha

theorem Grown.reachable {t : SearchTree σ α κ} (hg : t.Grown P) {n : Placed σ α κ}
    (h : t.Holds n) : P.Reachable n.node.state :=
  (hg.attained h).reachable

end SearchTree

end ProblemSolving
