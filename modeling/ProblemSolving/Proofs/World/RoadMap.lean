import Mathlib.Data.Sym.Sym2
import Mathlib.Data.String.Basic
import Std.Data.TreeMap.Lemmas
import ProblemSolving.World.RoadMap

/-!
# What a road map holds

* `MapCall`, `RoadMap.build` : calls that extend a road map, and the map that they lead to.
* `MapCall.length?`, `latestLength?` : the length that a call gives to a road, and the one that was
  given last.
* `RoadMap.distance?_connect` : a new road holds in both directions and leaves the others as they
  were.
* `RoadMap.distance?_build` : so the length of a road is the one that was given last.
* `RoadMap.mem_neighbors_iff`, `RoadMap.pairwise_neighbors` : the neighbours of a place are the ends
  of its roads, in ascending order.
-/

namespace ProblemSolving

variable {κ : Type}

/-! ## Calls -/

/-- A call that extends a road map. -/
inductive MapCall (κ : Type) where
  | connect (a b : String) (length : κ)
  | locate (name : String) (x y : κ)

/-- The length that a call gives to the road between two places, whichever it names first. -/
def MapCall.length? : MapCall κ → String → String → Option κ
  | .connect a b length, x, y => if s(a, b) = s(x, y) then some length else none
  | .locate _ _ _, _, _ => none

/-- The length that was given last to the road between two places. -/
def latestLength? (calls : List (MapCall κ)) (x y : String) : Option κ :=
  calls.reverse.findSome? fun call => call.length? x y

namespace RoadMap

/-- The map after a call. -/
def after (m : RoadMap κ) : MapCall κ → RoadMap κ
  | .connect a b length => m.connect a b length
  | .locate name x y => m.locate name x y

/-- The map that calls lead to. -/
def build (calls : List (MapCall κ)) : RoadMap κ := calls.foldl after empty

/-! ## Lengths -/

variable {m : RoadMap κ} {a b x y : String} {length : κ}

theorem distance?_eq (m : RoadMap κ) (x y : String) : m.distance? x y = (m.roads.getD x ∅)[y]? := by
  unfold distance?
  rw [Std.TreeMap.get?_eq_getElem?, Std.TreeMap.getD_eq_getD_getElem?]
  cases m.roads[x]? with
  | none => simp
  | some ends => exact Std.TreeMap.get?_eq_getElem?

theorem getElem?_addRoad (roads : Std.TreeMap String (Std.TreeMap String κ)) (a b : String)
    (length : κ) (x y : String) :
    ((addRoad roads a b length).getD x ∅)[y]? =
      if a = x ∧ b = y then some length else (roads.getD x ∅)[y]? := by
  unfold addRoad
  rw [Std.TreeMap.getD_insert]
  by_cases hfirst : a = x
  · subst hfirst
    rw [if_pos Std.ReflCmp.compare_self, Std.TreeMap.getElem?_insert]
    simp only [Std.LawfulEqCmp.compare_eq_iff_eq, true_and]
  · simp only [Std.LawfulEqCmp.compare_eq_iff_eq, hfirst, if_false, false_and]

/-- A new road is as long from either end, and leaves every other one as it was. -/
theorem distance?_connect (m : RoadMap κ) (a b : String) (length : κ) (x y : String) :
    (m.connect a b length).distance? x y =
      if s(a, b) = s(x, y) then some length else m.distance? x y := by
  rw [distance?_eq, distance?_eq]
  show ((addRoad (addRoad m.roads a b length) b a length).getD x ∅)[y]? = _
  rw [getElem?_addRoad, getElem?_addRoad]
  by_cases hthere : a = x ∧ b = y
  · rw [if_pos hthere, if_pos (Sym2.eq_iff.2 (.inl hthere)), ite_self]
  · rw [if_neg hthere]
    refine if_congr ?_ rfl rfl
    rw [Sym2.eq_iff, or_iff_right hthere, and_comm]

theorem distance?_after (m : RoadMap κ) (call : MapCall κ) (x y : String) :
    (m.after call).distance? x y = (call.length? x y).or (m.distance? x y) := by
  cases call with
  | connect a b length =>
    show (m.connect a b length).distance? x y = _
    rw [distance?_connect, MapCall.length?]
    split <;> rfl
  | locate name x' y' => rfl

/-- The length of a road is the one that was given to it last. -/
theorem distance?_build (calls : List (MapCall κ)) (x y : String) :
    (build calls).distance? x y = latestLength? calls x y := by
  induction calls using List.reverseRecOn with
  | nil => simp [build, empty, distance?, latestLength?]
  | append_singleton calls call ih =>
    unfold build latestLength? at ih ⊢
    rw [List.foldl_append, List.foldl_cons, List.foldl_nil, distance?_after, ih,
      List.reverse_append, List.reverse_singleton, List.singleton_append, List.findSome?_cons]
    cases call.length? x y <;> rfl

theorem latestLength?_comm (calls : List (MapCall κ)) (x y : String) :
    latestLength? calls x y = latestLength? calls y x := by
  have hlength : ∀ call : MapCall κ, call.length? x y = call.length? y x := by
    intro call
    cases call with
    | connect a b length => rw [MapCall.length?, MapCall.length?, Sym2.eq_swap (a := x)]
    | locate name x' y' => rfl
  unfold latestLength?
  exact congrArg (List.findSome? · calls.reverse) (funext hlength)

/-- The road back is as long as the road there. -/
theorem distance?_build_comm (calls : List (MapCall κ)) (x y : String) :
    (build calls).distance? x y = (build calls).distance? y x := by
  rw [distance?_build, distance?_build, latestLength?_comm]

/-! ## Neighbours -/

theorem mem_neighbors_iff : (b, length) ∈ m.neighbors a ↔ m.distance? a b = some length := by
  rw [distance?_eq]
  exact Std.TreeMap.mem_toList_iff_getElem?_eq_some

/-- The neighbours are in strictly ascending order, so none of them is listed twice. -/
theorem pairwise_neighbors (m : RoadMap κ) (a : String) :
    ((m.neighbors a).map (·.1)).Pairwise (· < ·) := by
  refine List.pairwise_map.2 (Std.TreeMap.ordered_keys_toList.imp fun {p q} h => ?_)
  exact compare_lt_iff_lt.1 h

end RoadMap

end ProblemSolving
