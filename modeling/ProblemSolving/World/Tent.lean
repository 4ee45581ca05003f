import ProblemSolving.Local.Landscape
import ProblemSolving.Number.Double

/-!
# A tent

* `Tent` : the function `m / 2 - |m / 2 - x|`, whose one peak is at `m / 2`.
* `Tent.landscape` : its ascent in steps of a fixed length.
-/

namespace ProblemSolving

/-- The greatest argument `m` of the tent, where its climb starts, and the length of a step. -/
structure Tent (κ : Type) where
  initial : κ
  maximum : κ
  delta : κ

namespace Tent

variable {κ : Type} [Scalar κ]

/-- The argument and the value of the peak. -/
def peak (t : Tent κ) : κ := t.maximum / Scalar.ofNat 2

def value (t : Tent κ) (x : κ) : κ := t.peak - Scalar.abs (t.peak - x)

/-- The arguments one step to the right and one to the left. -/
def moves (t : Tent κ) (x : κ) : List κ := [x + t.delta, x - t.delta]

/-- The ascent of the tent; a move is named by where it leads. -/
def landscape (t : Tent κ) : Landscape κ κ κ where
  initial := t.initial
  moves := t.moves
  apply _ next := next
  value := t.value

/-- The tent that is used unless another is given. -/
def standard : Tent Double := ⟨.zero, .ofNat 30, .ofDecimal false 1 (-2)⟩

end Tent

end ProblemSolving
