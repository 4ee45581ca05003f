import ProblemSolving.Number.Double

/-!
# Random sources and draws

* `RandomSource` : a source of random words.
* `Draw` : a computation that draws from a source.
* `Draw.below32`, `Draw.below64` : a number below a bound, every one equally likely.
* `Draw.choose` : a member of a list.
* `Draw.unit` : a number in the unit interval.
-/

namespace ProblemSolving

/-- A source of random words of 32 and 64 bits. -/
class RandomSource (ρ : Type) where
  word32 : ρ → UInt32 × ρ
  word64 : ρ → UInt64 × ρ

/-- A computation that draws from a random source. -/
abbrev Draw (ρ : Type) (α : Type) := StateM ρ α

namespace Draw

variable {ρ : Type} [RandomSource ρ]

def word32 : Draw ρ Nat := fun source =>
  let (w, rest) := RandomSource.word32 source
  (w.toNat, rest)

def word64 : Draw ρ Nat := fun source =>
  let (w, rest) := RandomSource.word64 source
  (w.toNat, rest)

/-- How often a draw below a bound may be refused. The chance of a refusal is below one half, so
the bound only makes the definition total: the last word is then taken as it is. -/
def maxRefusals : Nat := 65536

/-- A number below `n` from words of `width` bits. The product of a word and `n` has the number in
its upper half; words whose lower half is too high are refused, so that all numbers have equally
many words. -/
def belowFrom (word : Draw ρ Nat) (width n : Nat) : (refusals : Nat) → Draw ρ Nat
  | 0 => do return (← word) * n / Nat.pow 2 width
  | refusals + 1 => do
    let product := (← word) * n
    if product % Nat.pow 2 width < n * Nat.pow 2 (width - 1 - n.log2) then
      return product / Nat.pow 2 width
    else belowFrom word width n refusals

/-- A number below `n`, drawn from words of 32 bits. -/
def below32 (n : Nat) : Draw ρ Nat := belowFrom word32 32 n maxRefusals

/-- A number below `n`, drawn from words of 64 bits. -/
def below64 (n : Nat) : Draw ρ Nat := belowFrom word64 64 n maxRefusals

/-- A member of the list, every place equally likely; an empty list draws nothing. -/
def choose {α : Type} : List α → Draw ρ (Option α)
  | [] => return none
  | items => do return items[← below32 items.length]?

/-- A number from zero up to, but not including, one: a multiple of `2 ^ (-53)`. -/
def unit {κ : Type} [Scalar κ] : Draw ρ κ := do
  return Scalar.ofNat ((← word64) / Nat.pow 2 11) / Scalar.ofNat (Nat.pow 2 53)

end Draw

end ProblemSolving
