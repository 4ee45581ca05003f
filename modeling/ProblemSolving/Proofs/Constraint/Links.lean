import Mathlib.Data.List.Basic
import ProblemSolving.Constraint.Model

/-!
# The links of a model say what its constraints say

* `Model.Built` : the models that calls which add variables and constraints lead to.
* `Model.relationsBetween` : what the constraints require of the values of two variables.
* `Model.Linked` : each link of a variable has just the relations of the constraints with its
  neighbour; every built model is linked (`Built.linked`).
* `Linked.mem_neighbors_iff`, `Linked.consistent_eq` : neighbours and consistency, by the
  constraints.
-/

namespace ProblemSolving

variable {ν : Type}

/-! ## Links of one variable -/

namespace Link

/-- The relations of the first link to a neighbour. -/
def relationsTo (links : List (Link ν)) (neighbor : Nat) : List (Relation ν) :=
  match links.find? (·.neighbor == neighbor) with
  | some link => link.relations
  | none => []

theorem relationsTo_cons (link : Link ν) (links : List (Link ν)) (w : Nat) :
    relationsTo (link :: links) w =
      if link.neighbor = w then link.relations else relationsTo links w := by
  unfold relationsTo
  by_cases h : link.neighbor = w
  · rw [List.find?_cons_of_pos (by simpa using h), if_pos h]
  · rw [List.find?_cons_of_neg (by simpa using h), if_neg h]

theorem relationsTo_add (b : Nat) (r : Relation ν) (w : Nat) : ∀ links : List (Link ν),
    relationsTo (add b r links) w = relationsTo links w ++ if w = b then [r] else []
  | [] => by
    rw [add, relationsTo_cons]
    by_cases h : b = w
    · simp [h, relationsTo]
    · simp [h, Ne.symm h]
  | link :: rest => by
    unfold add
    split
    · rename_i hb
      rw [relationsTo_cons, relationsTo_cons, hb]
      by_cases h : b = w
      · simp [h]
      · simp [h, Ne.symm h]
    · rename_i hb
      rw [relationsTo_cons, relationsTo_cons, relationsTo_add b r w rest]
      by_cases h : link.neighbor = w
      · simp only [h, if_true]
        rw [if_neg (by omega), List.append_nil]
      · simp only [h, if_false]

theorem neighbors_add (b : Nat) (r : Relation ν) : ∀ links : List (Link ν),
    (add b r links).map (·.neighbor) =
      if b ∈ links.map (·.neighbor) then links.map (·.neighbor)
      else links.map (·.neighbor) ++ [b]
  | [] => rfl
  | link :: rest => by
    unfold add
    split
    · rename_i hb
      simp [hb]
    · rename_i hb
      rw [List.map_cons, List.map_cons, neighbors_add b r rest]
      by_cases h : b ∈ rest.map (·.neighbor)
      · rw [if_pos h, if_pos (List.mem_cons_of_mem _ h)]
      · rw [if_neg h, if_neg (by simpa [Ne.symm hb] using h), List.cons_append]

theorem nodup_neighbors_add (b : Nat) (r : Relation ν) {links : List (Link ν)}
    (h : (links.map (·.neighbor)).Nodup) : ((add b r links).map (·.neighbor)).Nodup := by
  rw [neighbors_add]
  split
  · exact h
  · rename_i hb
    rw [List.nodup_append]
    refine ⟨h, by simp, ?_⟩
    rintro x hx y hy rfl
    rw [List.mem_singleton] at hy
    exact hb (hy ▸ hx)

theorem relations_ne_nil_of_mem_add (b : Nat) (r : Relation ν) : ∀ {links : List (Link ν)},
    (∀ link ∈ links, link.relations ≠ []) → ∀ link ∈ add b r links, link.relations ≠ []
  | [], _, link, hmem => by
    rw [add, List.mem_singleton] at hmem
    subst hmem
    simp
  | first :: rest, h, link, hmem => by
    unfold add at hmem
    split at hmem
    · rcases List.mem_cons.1 hmem with rfl | hmem
      · simp
      · exact h link (List.mem_cons_of_mem _ hmem)
    · rcases List.mem_cons.1 hmem with rfl | hmem
      · exact h _ List.mem_cons_self
      · exact relations_ne_nil_of_mem_add b r (fun l hl => h l (List.mem_cons_of_mem _ hl)) link hmem

theorem relationsTo_of_mem : ∀ {links : List (Link ν)}, (links.map (·.neighbor)).Nodup →
    ∀ link ∈ links, relationsTo links link.neighbor = link.relations
  | [], _, link, hmem => by cases hmem
  | first :: rest, h, link, hmem => by
    rw [List.map_cons, List.nodup_cons] at h
    rw [relationsTo_cons]
    rcases List.mem_cons.1 hmem with rfl | hmem
    · rw [if_pos rfl]
    · rw [if_neg, relationsTo_of_mem h.2 link hmem]
      exact fun heq => h.1 (heq ▸ List.mem_map_of_mem hmem)

end Link

/-! ## Constraints between two variables -/

/-- What a constraint requires of the values of two variables, in this order. -/
def Constraint.between? (c : Constraint ν) (a b : Nat) : Option (Relation ν) :=
  if c.left = a ∧ c.right = b then some c.relation
  else if c.left = b ∧ c.right = a then some c.relation.flip
  else none

namespace Model

/-- What the constraints require of the values of two variables, in this order. -/
def relationsBetween (m : Model ν) (a b : Nat) : List (Relation ν) :=
  m.constraints.toList.filterMap (·.between? a b)

/-- The models that calls which add variables and constraints lead to, refused calls included. -/
inductive Built [BEq ν] : Model ν → Prop
  | empty : Built .empty
  | addVariable {m m' : Model ν} {name : String} {domain : Array ν} (built : Built m)
      (added : m.addVariable name domain = .ok m') : Built m'
  | addConstraint {m m' : Model ν} {a b : Nat} {r : Relation ν} (built : Built m)
      (added : m.addConstraint a b r = .ok m') : Built m'
  | addAllDifferent {m : Model ν} (vs : List Nat) (built : Built m) :
      Built (m.addAllDifferent vs).1

/-- The links are those of the constraints. -/
structure Linked (m : Model ν) : Prop where
  size_links : m.links.size = m.size
  ends : ∀ c ∈ m.constraints.toList, c.left < m.size ∧ c.right < m.size ∧ c.left ≠ c.right
  relationsTo : ∀ a b, Link.relationsTo (m.linksOf a) b = m.relationsBetween a b
  nodup : ∀ a, (m.neighbors a).Nodup
  relations_ne_nil : ∀ a, ∀ link ∈ m.linksOf a, link.relations ≠ []

theorem Linked.empty : (Model.empty : Model ν).Linked where
  size_links := rfl
  ends c hc := by simp [Model.empty] at hc
  relationsTo a b := by simp [linksOf, Model.empty, Link.relationsTo, relationsBetween]
  nodup a := by simp [neighbors, linksOf, Model.empty]
  relations_ne_nil a link hlink := by simp [linksOf, Model.empty] at hlink

theorem Linked.addVariable {m m' : Model ν} {name : String} {domain : Array ν} (hm : m.Linked)
    (h : m.addVariable name domain = .ok m') : m'.Linked := by
  unfold Model.addVariable at h
  split at h
  · cases h
  obtain rfl := Except.ok.inj h
  have hlinks : ∀ a, (m.links.push [])[a]?.getD [] = m.linksOf a := by
    intro a
    unfold linksOf
    rw [Array.getElem?_push]
    split
    · rename_i ha
      rw [ha, Array.getElem?_eq_none (Nat.le_refl _)]
      rfl
    · rfl
  refine ⟨?_, fun c hc => ?_, fun a b => ?_, fun a => ?_, fun a link hlink => ?_⟩
  · simpa [size] using hm.size_links
  · obtain ⟨hl, hr, hne⟩ := hm.ends c hc
    simp only [size, Array.size_push] at hl hr ⊢
    omega
  · unfold linksOf
    rw [hlinks]
    exact hm.relationsTo a b
  · unfold neighbors linksOf
    rw [hlinks]
    exact hm.nodup a
  · unfold linksOf at hlink
    rw [hlinks] at hlink
    exact hm.relations_ne_nil a link hlink

theorem addConstraint_eq_ok {m m' : Model ν} {a b : Nat} {r : Relation ν}
    (h : m.addConstraint a b r = .ok m') :
    a < m.size ∧ b < m.size ∧ a ≠ b ∧
      m' = { m with
        constraints := m.constraints.push ⟨a, b, r⟩
        links := (m.links.modify a (Link.add b r)).modify b (Link.add a r.flip) } := by
  have hlt : ∀ {v : Nat} {name : String}, m.name? v = some name → v < m.size := by
    intro v name hv
    obtain ⟨x, hx, -⟩ := Option.map_eq_some_iff.1 hv
    exact (Array.getElem?_eq_some_iff.1 hx).1
  unfold Model.addConstraint at h
  split at h
  · cases h
  · cases h
  · rename_i ha hb
    split at h
    · cases h
    · rename_i hne
      exact ⟨hlt ha, hlt hb, hne, (Except.ok.inj h).symm⟩

theorem Linked.linksOf_addConstraint {m m' : Model ν} {a b : Nat} {r : Relation ν} (hm : m.Linked)
    (h : m.addConstraint a b r = .ok m') (v : Nat) :
    m'.linksOf v = if v = a then Link.add b r (m.linksOf a)
      else if v = b then Link.add a r.flip (m.linksOf b) else m.linksOf v := by
  obtain ⟨ha, hb, hne, rfl⟩ := addConstraint_eq_ok h
  rw [← hm.size_links] at ha hb
  unfold linksOf
  rw [Array.getElem?_modify, Array.getElem?_modify]
  by_cases hva : v = a
  · subst hva
    rw [if_neg (Ne.symm hne), if_pos rfl, if_pos rfl, Array.getElem?_eq_getElem ha]
    rfl
  · rw [if_neg hva]
    by_cases hvb : v = b
    · subst hvb
      rw [if_pos rfl, if_neg (Ne.symm hva), if_pos rfl, Array.getElem?_eq_getElem hb]
      rfl
    · rw [if_neg (Ne.symm hvb), if_neg (Ne.symm hva), if_neg hvb]

theorem relationsBetween_addConstraint {m m' : Model ν} {a b : Nat} {r : Relation ν}
    (h : m.addConstraint a b r = .ok m') (v w : Nat) :
    m'.relationsBetween v w = m.relationsBetween v w ++
      if v = a ∧ w = b then [r] else if v = b ∧ w = a then [r.flip] else [] := by
  obtain ⟨-, -, -, rfl⟩ := addConstraint_eq_ok h
  unfold relationsBetween
  rw [Array.toList_push, List.filterMap_append]
  congr 1
  rw [List.filterMap_cons, List.filterMap_nil]
  simp only [Constraint.between?, eq_comm (a := a), eq_comm (a := b)]
  by_cases h₁ : v = a ∧ w = b
  · simp [h₁]
  · by_cases h₂ : v = b ∧ w = a
    · rw [if_neg h₁, if_neg h₁, if_pos ⟨h₂.2, h₂.1⟩, if_pos h₂]
    · rw [if_neg h₁, if_neg h₁, if_neg (fun h => h₂ ⟨h.2, h.1⟩), if_neg h₂]

theorem Linked.addConstraint {m m' : Model ν} {a b : Nat} {r : Relation ν} (hm : m.Linked)
    (h : m.addConstraint a b r = .ok m') : m'.Linked := by
  have hlinks := hm.linksOf_addConstraint h
  have hbetween := relationsBetween_addConstraint h
  obtain ⟨ha, hb, hne, rfl⟩ := addConstraint_eq_ok h
  refine ⟨?_, fun c hc => ?_, fun v w => ?_, fun v => ?_, fun v link hlink => ?_⟩
  · rw [Array.size_modify, Array.size_modify]
    exact hm.size_links
  · rw [Array.toList_push, List.mem_append, List.mem_singleton] at hc
    rcases hc with hc | rfl
    · exact hm.ends c hc
    · exact ⟨ha, hb, hne⟩
  · rw [hlinks, hbetween]
    by_cases hva : v = a
    · subst hva
      rw [if_pos rfl, Link.relationsTo_add, hm.relationsTo]
      simp [hne]
    · have hpair : ¬ (v = a ∧ w = b) := fun hv => hva hv.1
      rw [if_neg hva, if_neg hpair]
      by_cases hvb : v = b
      · subst hvb
        rw [if_pos rfl, Link.relationsTo_add, hm.relationsTo]
        simp
      · have hflip : ¬ (v = b ∧ w = a) := fun hv => hvb hv.1
        rw [if_neg hvb, if_neg hflip, List.append_nil]
        exact hm.relationsTo v w
  · unfold neighbors
    rw [hlinks]
    split
    · exact Link.nodup_neighbors_add b r (hm.nodup a)
    · split
      · exact Link.nodup_neighbors_add a r.flip (hm.nodup b)
      · exact hm.nodup v
  · rw [hlinks] at hlink
    split at hlink
    · exact Link.relations_ne_nil_of_mem_add b r (hm.relations_ne_nil a) link hlink
    · split at hlink
      · exact Link.relations_ne_nil_of_mem_add a r.flip (hm.relations_ne_nil b) link hlink
      · exact hm.relations_ne_nil v link hlink

theorem Linked.addToEach (r : Relation ν) (a : Nat) : ∀ (vs : List Nat) {m : Model ν}, m.Linked →
    (m.addToEach r a vs).1.Linked
  | [], _, hm => hm
  | b :: rest, m, hm => by
    unfold Model.addToEach
    split
    · rename_i h
      exact Linked.addToEach r a rest (hm.addConstraint h)
    · exact hm

theorem Linked.addAllDifferent [BEq ν] : ∀ (vs : List Nat) {m : Model ν}, m.Linked →
    (m.addAllDifferent vs).1.Linked
  | [], _, hm => hm
  | a :: rest, m, hm => by
    have hpairs := Linked.addToEach { holds := (· != ·) } a rest hm
    unfold Model.addAllDifferent
    split
    · rename_i h
      rw [h] at hpairs
      exact Linked.addAllDifferent rest hpairs
    · exact hpairs

/-- Every built model is linked. -/
theorem Built.linked [BEq ν] {m : Model ν} (hm : m.Built) : m.Linked := by
  induction hm with
  | empty => exact .empty
  | addVariable _ added ih => exact ih.addVariable added
  | addConstraint _ added ih => exact ih.addConstraint added
  | addAllDifferent vs _ ih => exact ih.addAllDifferent vs

/-! ## Neighbours and consistency -/

theorem mem_relationsBetween_iff {m : Model ν} {a b : Nat} {r : Relation ν} :
    r ∈ m.relationsBetween a b ↔ ∃ c ∈ m.constraints.toList, c.between? a b = some r :=
  List.mem_filterMap

/-- The values of two variables satisfy every constraint between them, each of which is defined
for them. -/
def Agree (m : Model ν) (a : Nat) (x : ν) (b : Nat) (y : ν) : Prop :=
  ∀ r ∈ m.relationsBetween a b, r.holds? x y = some true

theorem Agree.holds? {m : Model ν} {c : Constraint ν} {x y : ν}
    (h : m.Agree c.left x c.right y) (hc : c ∈ m.constraints.toList) :
    c.relation.holds? x y = some true :=
  h _ (mem_relationsBetween_iff.2 ⟨c, hc, if_pos ⟨rfl, rfl⟩⟩)

/-- Every constraint is defined for all values. -/
def Total (m : Model ν) : Prop := ∀ c ∈ m.constraints.toList, c.relation.isTotal = true

end Model

namespace Relation

theorem holds_of_holds? {r : Relation ν} {x y : ν} (h : r.holds? x y = some true) :
    r.holds x y = true := by
  unfold holds? at h
  split at h
  · exact Option.some.inj h
  · cases h

theorem flip_flip (r : Relation ν) : r.flip.flip = r := by
  obtain ⟨holds, limits⟩ := r
  cases limits <;> rfl

theorem holds?_flip (r : Relation ν) (x y : ν) : r.flip.holds? y x = r.holds? x y := by
  obtain ⟨holds, limits⟩ := r
  cases limits <;> rfl

theorem isTotal_flip (r : Relation ν) : r.flip.isTotal = r.isTotal := by
  obtain ⟨holds, limits⟩ := r
  cases limits <;> rfl

theorem holds?_of_isTotal {r : Relation ν} (h : r.isTotal = true) (x y : ν) :
    r.holds? x y = some (r.holds x y) := by
  obtain ⟨holds, limits⟩ := r
  cases limits with
  | none => rfl
  | some defined => cases h

end Relation

theorem Constraint.between?_comm {c : Constraint ν} (hc : c.left ≠ c.right) (a b : Nat) :
    c.between? b a = (c.between? a b).map Relation.flip := by
  unfold between?
  by_cases h₁ : c.left = a ∧ c.right = b
  · have h₂ : ¬ (c.left = b ∧ c.right = a) := fun h => hc (h.1.trans h₁.2.symm)
    rw [if_pos h₁, if_neg h₂, if_pos h₁, Option.map_some]
  · by_cases h₂ : c.left = b ∧ c.right = a
    · rw [if_pos h₂, if_neg h₁, if_pos h₂, Option.map_some, Relation.flip_flip]
    · rw [if_neg h₁, if_neg h₂, if_neg h₁, if_neg h₂, Option.map_none]

namespace Model

theorem agree_of_holds {m : Model ν} {a : Assignment ν}
    (h : ∀ c ∈ m.constraints.toList, ∃ x y,
      a.get? c.left = some x ∧ a.get? c.right = some y ∧ c.relation.holds? x y = some true)
    {v w : Nat} {x y : ν} (hx : a.get? v = some x) (hy : a.get? w = some y) : m.Agree v x w y := by
  intro r hr
  obtain ⟨c, hc, hbetween⟩ := mem_relationsBetween_iff.1 hr
  obtain ⟨x', y', hx', hy', hholds⟩ := h c hc
  unfold Constraint.between? at hbetween
  split at hbetween
  · rename_i hvw
    obtain ⟨rfl, rfl⟩ := hvw
    obtain rfl := Option.some.inj (hx.symm.trans hx')
    obtain rfl := Option.some.inj (hy.symm.trans hy')
    rwa [← Option.some.inj hbetween]
  · split at hbetween
    · rename_i hwv
      obtain ⟨rfl, rfl⟩ := hwv
      obtain rfl := Option.some.inj (hx.symm.trans hy')
      obtain rfl := Option.some.inj (hy.symm.trans hx')
      rwa [← Option.some.inj hbetween, Relation.holds?_flip]
    · cases hbetween

namespace Linked

variable {m : Model ν} (hm : m.Linked)
include hm

theorem relations_eq {a : Nat} {link : Link ν} (h : link ∈ m.linksOf a) :
    link.relations = m.relationsBetween a link.neighbor :=
  (Link.relationsTo_of_mem (hm.nodup a) link h).symm.trans (hm.relationsTo a link.neighbor)

theorem relationsBetween_comm (a b : Nat) :
    m.relationsBetween b a = (m.relationsBetween a b).map Relation.flip := by
  unfold relationsBetween
  rw [List.map_filterMap]
  exact List.filterMap_congr fun c hc => Constraint.between?_comm (hm.ends c hc).2.2 a b

theorem mem_neighbors_iff {a b : Nat} : b ∈ m.neighbors a ↔ m.relationsBetween a b ≠ [] := by
  refine ⟨fun h => ?_, fun h => ?_⟩
  · obtain ⟨link, hlink, rfl⟩ := List.mem_map.1 h
    rw [← hm.relations_eq hlink]
    exact hm.relations_ne_nil a link hlink
  · rw [← hm.relationsTo a b] at h
    unfold Link.relationsTo at h
    split at h
    · rename_i link hlink
      have hb : link.neighbor = b := by simpa using List.find?_some hlink
      exact hb ▸ List.mem_map_of_mem (List.mem_of_find?_eq_some hlink)
    · exact absurd rfl h

theorem mem_neighbors_comm {a b : Nat} : b ∈ m.neighbors a ↔ a ∈ m.neighbors b := by
  rw [hm.mem_neighbors_iff, hm.mem_neighbors_iff, hm.relationsBetween_comm a b]
  simp

theorem lt_size_of_mem_neighbors {a b : Nat} (h : b ∈ m.neighbors a) :
    a < m.size ∧ b < m.size ∧ a ≠ b := by
  obtain ⟨r, hr⟩ := List.exists_mem_of_ne_nil _ (hm.mem_neighbors_iff.1 h)
  obtain ⟨c, hc, hbetween⟩ := mem_relationsBetween_iff.1 hr
  obtain ⟨hleft, hright, hne⟩ := hm.ends c hc
  unfold Constraint.between? at hbetween
  split at hbetween
  · rename_i hab
    obtain ⟨rfl, rfl⟩ := hab
    exact ⟨hleft, hright, hne⟩
  · split at hbetween
    · rename_i hba
      obtain ⟨rfl, rfl⟩ := hba
      exact ⟨hright, hleft, hne.symm⟩
    · cases hbetween

theorem consistent_eq (a : Nat) (x : ν) (b : Nat) (y : ν) :
    m.consistent a x b y = (m.relationsBetween a b).all fun r => r.holds x y := by
  rw [← hm.relationsTo a b]
  unfold consistent Link.relationsTo Link.allows
  cases (m.linksOf a).find? (·.neighbor == b) <;> rfl

theorem relationsBetween_self (a : Nat) : m.relationsBetween a a = [] := by
  by_contra h
  exact (hm.lt_size_of_mem_neighbors (hm.mem_neighbors_iff.2 h)).2.2 rfl

theorem agree_comm {a : Nat} {x : ν} {b : Nat} {y : ν} : m.Agree a x b y ↔ m.Agree b y a x := by
  unfold Agree
  rw [hm.relationsBetween_comm a b]
  simp only [List.forall_mem_map, Relation.holds?_flip]

theorem consistent_comm (a : Nat) (x : ν) (b : Nat) (y : ν) :
    m.consistent a x b y = m.consistent b y a x := by
  rw [hm.consistent_eq, hm.consistent_eq, hm.relationsBetween_comm a b, List.all_map]
  rfl

theorem consistent_of_agree {a : Nat} {x : ν} {b : Nat} {y : ν} (h : m.Agree a x b y) :
    m.consistent a x b y = true := by
  rw [hm.consistent_eq, List.all_eq_true]
  exact fun r hr => Relation.holds_of_holds? (h r hr)

/-! ## Relations that are defined for all values -/

theorem isTotal_of_mem_links (ht : m.Total) {a : Nat} {link : Link ν} (h : link ∈ m.linksOf a) :
    link.isTotal = true := by
  unfold Link.isTotal
  rw [hm.relations_eq h, List.all_eq_true]
  intro r hr
  obtain ⟨c, hc, hbetween⟩ := mem_relationsBetween_iff.1 hr
  unfold Constraint.between? at hbetween
  split at hbetween
  · rw [← Option.some.inj hbetween]
    exact ht c hc
  · split at hbetween
    · rw [← Option.some.inj hbetween, Relation.isTotal_flip]
      exact ht c hc
    · cases hbetween

theorem isTotalAt (ht : m.Total) (v : Nat) : m.isTotalAt v = true := by
  unfold Model.isTotalAt
  rw [List.all_eq_true]
  exact fun link h => hm.isTotal_of_mem_links ht h

theorem isTotalBetween (ht : m.Total) (a b : Nat) : m.isTotalBetween a b = true := by
  unfold Model.isTotalBetween
  rw [Option.all_eq_true]
  exact fun link h => hm.isTotal_of_mem_links ht (List.mem_of_find?_eq_some h)

theorem canCount (ht : m.Total) (assigned : Array (Option Nat)) (v ix : Nat) :
    m.canCount assigned v ix = true := by
  unfold Model.canCount
  split
  · rfl
  · rw [List.all_eq_true]
    intro link h
    split
    · unfold Link.decides
      rw [hm.isTotal_of_mem_links ht h, Bool.true_or]
    · rfl

end Linked
end Model

/-- Where a link is decided and allows two values, each of its relations is defined for them and
holds. -/
theorem Link.holds?_of_allows {link : Link ν} {x y : ν} (hdecides : link.decides x y = true)
    (hallows : link.allows x y = true) : ∀ r ∈ link.relations, r.holds? x y = some true := by
  obtain ⟨neighbor, relations⟩ := link
  unfold decides isTotal allows? at hdecides
  unfold allows at hallows
  rw [Bool.or_eq_true] at hdecides
  rcases hdecides with htotal | hsome
  · intro r hr
    rw [Relation.holds?_of_isTotal (List.all_eq_true.1 htotal r hr)]
    exact congrArg some (List.all_eq_true.1 hallows r hr)
  · dsimp only at hsome hallows ⊢
    induction relations with
    | nil => simp
    | cons r rest ih =>
      rw [List.all_cons, Bool.and_eq_true] at hallows
      rw [List.allM_cons] at hsome
      have hr : r.holds? x y = some true := by
        cases h : r.holds? x y with
        | none => rw [h] at hsome; cases hsome
        | some b =>
          have hb : r.holds x y = b := by
            unfold Relation.holds? at h
            split at h
            · exact Option.some.inj h
            · cases h
          rw [← hb, hallows.1]
      rw [hr] at hsome
      rw [List.forall_mem_cons]
      exact ⟨hr, ih hallows.2 hsome⟩

end ProblemSolving
