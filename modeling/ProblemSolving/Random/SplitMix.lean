import ProblemSolving.Random.Source

/-!
# A counting source

* `SplitMix` : a source that hashes a counter, after a list of given words.
-/

namespace ProblemSolving

/-- A source that first gives the words of a script and then hashes a counter that advances by a
fixed odd amount. -/
structure SplitMix where
  script : List UInt64
  counter : UInt64

namespace SplitMix

/-- The hash of a counter value. -/
def mix (z : UInt64) : UInt64 :=
  let z := (z ^^^ (z >>> 30)) * 0xBF58476D1CE4E5B9
  let z := (z ^^^ (z >>> 27)) * 0x94D049BB133111EB
  z ^^^ (z >>> 31)

def next (s : SplitMix) : UInt64 × SplitMix :=
  match s.script with
  | word :: rest => (word, { s with script := rest })
  | [] =>
    let counter := s.counter + 0x9E3779B97F4A7C15
    (mix counter, { s with counter })

instance : RandomSource SplitMix where
  word32 s := let (w, rest) := s.next; (w.toUInt32, rest)
  word64 := next

end SplitMix

end ProblemSolving
