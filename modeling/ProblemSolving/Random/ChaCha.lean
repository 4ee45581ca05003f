import ProblemSolving.Random.Source

/-!
# A stream cipher as a random source

* `ChaCha.block` : sixteen words of the stream.
* `ChaCha` : a source that gives the words of the stream one after the other.
* `ChaCha.ofSeed` : the stream whose key is expanded from a number.
-/

namespace ProblemSolving

/-- A stream of the twelve-round cipher: its key, the number of the next block, and the words of
the last block that are still to be given. -/
structure ChaCha where
  key : List UInt32
  nextBlock : UInt64
  pending : List UInt32

namespace ChaCha

def rotateLeft (x : UInt32) (n : UInt32) : UInt32 := (x <<< n) ||| (x >>> (32 - n))

/-- Mixes the four words of a block that stand at the given places. -/
def quarterRound (x : Vector UInt32 16) (a b c d : Fin 16) : Vector UInt32 16 :=
  let x := x.set a (x[a] + x[b])
  let x := x.set d (rotateLeft (x[d] ^^^ x[a]) 16)
  let x := x.set c (x[c] + x[d])
  let x := x.set b (rotateLeft (x[b] ^^^ x[c]) 12)
  let x := x.set a (x[a] + x[b])
  let x := x.set d (rotateLeft (x[d] ^^^ x[a]) 8)
  let x := x.set c (x[c] + x[d])
  x.set b (rotateLeft (x[b] ^^^ x[c]) 7)

/-- A round on the four columns and one on the four diagonals. -/
def doubleRound (x : Vector UInt32 16) : Vector UInt32 16 :=
  let x := quarterRound x 0 4 8 12
  let x := quarterRound x 1 5 9 13
  let x := quarterRound x 2 6 10 14
  let x := quarterRound x 3 7 11 15
  let x := quarterRound x 0 5 10 15
  let x := quarterRound x 1 6 11 12
  let x := quarterRound x 2 7 8 13
  quarterRound x 3 4 9 14

/-- The four words that every block begins with. -/
def constants : List UInt32 := [0x61707865, 0x3320646e, 0x79622d32, 0x6b206574]

/-- The block before any round: constants, the key, the block number, and two zero words. -/
def start (key : List UInt32) (number : UInt64) : Vector UInt32 16 :=
  let words := constants ++ key ++ [number.toUInt32, (number >>> 32).toUInt32, 0, 0]
  Vector.ofFn fun i => words[i.val]?.getD 0

/-- A block of the stream: twelve rounds, added to where they started. -/
def block (key : List UInt32) (number : UInt64) : List UInt32 :=
  let first := start key number
  let last := (List.range 6).foldl (fun x _ => doubleRound x) first
  (last.zipWith (· + ·) first).toList

/-- The next word of the stream. -/
def next (s : ChaCha) : UInt32 × ChaCha :=
  match s.pending with
  | word :: rest => (word, { s with pending := rest })
  | [] =>
    let words := block s.key s.nextBlock
    (words.headD 0, { s with nextBlock := s.nextBlock + 1, pending := words.tail })

instance : RandomSource ChaCha where
  word32 := next
  word64 s :=
    let (low, s) := s.next
    let (high, s) := s.next
    ((high.toUInt64 <<< 32) ||| low.toUInt64, s)

/-- Expands a number to the words of a key: each word is a permuted output of a linear
congruence. -/
def expand (state : UInt64) : (words : Nat) → List UInt32
  | 0 => []
  | words + 1 =>
    let state := state * 6364136223846793005 + 11634580027462260723
    let x := (((state >>> 18) ^^^ state) >>> 27).toUInt32
    let turn := (state >>> 59).toUInt32
    ((x >>> turn) ||| (x <<< (32 - turn))) :: expand state words

/-- The stream whose key is expanded from `seed`. -/
def ofSeed (seed : UInt64) : ChaCha := ⟨expand seed 8, 0, []⟩

end ChaCha

end ProblemSolving
