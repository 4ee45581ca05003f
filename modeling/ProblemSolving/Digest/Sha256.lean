/-!
# SHA-256

* `Sha256.padded` : a message filled up to whole blocks.
* `Sha256.schedule` : the 64 words that one block contributes.
* `Sha256.digest` : the eight words of the digest.
* `Sha256.hexDigest` : the digest as hexadecimal text.
-/

namespace ProblemSolving.Sha256

/-- The fractional parts of the cube roots of the first 64 primes. -/
def roundConstants : List UInt32 := [
  0x428a2f98, 0x71374491, 0xb5c0fbcf, 0xe9b5dba5, 0x3956c25b, 0x59f111f1, 0x923f82a4, 0xab1c5ed5,
  0xd807aa98, 0x12835b01, 0x243185be, 0x550c7dc3, 0x72be5d74, 0x80deb1fe, 0x9bdc06a7, 0xc19bf174,
  0xe49b69c1, 0xefbe4786, 0x0fc19dc6, 0x240ca1cc, 0x2de92c6f, 0x4a7484aa, 0x5cb0a9dc, 0x76f988da,
  0x983e5152, 0xa831c66d, 0xb00327c8, 0xbf597fc7, 0xc6e00bf3, 0xd5a79147, 0x06ca6351, 0x14292967,
  0x27b70a85, 0x2e1b2138, 0x4d2c6dfc, 0x53380d13, 0x650a7354, 0x766a0abb, 0x81c2c92e, 0x92722c85,
  0xa2bfe8a1, 0xa81a664b, 0xc24b8b70, 0xc76c51a3, 0xd192e819, 0xd6990624, 0xf40e3585, 0x106aa070,
  0x19a4c116, 0x1e376c08, 0x2748774c, 0x34b0bcb5, 0x391c0cb3, 0x4ed8aa4a, 0x5b9cca4f, 0x682e6ff3,
  0x748f82ee, 0x78a5636f, 0x84c87814, 0x8cc70208, 0x90befffa, 0xa4506ceb, 0xbef9a3f7, 0xc67178f2]

/-- The eight words that a digest is carried in. -/
structure State where
  a : UInt32
  b : UInt32
  c : UInt32
  d : UInt32
  e : UInt32
  f : UInt32
  g : UInt32
  h : UInt32

/-- The fractional parts of the square roots of the first eight primes. -/
def initial : State :=
  ⟨0x6a09e667, 0xbb67ae85, 0x3c6ef372, 0xa54ff53a, 0x510e527f, 0x9b05688c, 0x1f83d9ab, 0x5be0cd19⟩

def rotateRight (x : UInt32) (n : UInt32) : UInt32 := (x >>> n) ||| (x <<< (32 - n))

/-- The eight bytes of a length, highest first. -/
def lengthBytes (n : Nat) : List UInt8 :=
  [56, 48, 40, 32, 24, 16, 8, 0].map fun shift => UInt8.ofNat (n >>> shift)

/-- How many zero bytes stand between the closing bit and the length. -/
def paddingZeros (size : Nat) : Nat := (119 - size % 64) % 64

/-- The message, a closing bit, zeros, and the length in bits: whole blocks of 64 bytes. -/
def padded (message : ByteArray) : ByteArray :=
  (0x80 :: List.replicate (paddingZeros message.size) 0 ++ lengthBytes (8 * message.size)).foldl
    ByteArray.push message

/-- The word of four bytes, highest first. -/
def wordAt (bytes : ByteArray) (start : Nat) : UInt32 :=
  [0, 1, 2, 3].foldl (fun word i => (word <<< 8) ||| (bytes[start + i]?.getD 0).toUInt32) 0

/-- The next word of a schedule, from the sixteen before it. -/
def extend (words : Array UInt32) : Array UInt32 :=
  let back (n : Nat) : UInt32 := words[words.size - n]?.getD 0
  let s0 := rotateRight (back 15) 7 ^^^ rotateRight (back 15) 18 ^^^ (back 15 >>> 3)
  let s1 := rotateRight (back 2) 17 ^^^ rotateRight (back 2) 19 ^^^ (back 2 >>> 10)
  words.push (back 16 + s0 + back 7 + s1)

/-- The 64 words of the block that starts at a byte. -/
def schedule (bytes : ByteArray) (start : Nat) : Array UInt32 :=
  (List.range 48).foldl (fun words _ => extend words)
    ((List.range 16).map fun i => wordAt bytes (start + 4 * i)).toArray

/-- One round, with its constant and word. -/
def step (s : State) (constant word : UInt32) : State :=
  let sum1 := rotateRight s.e 6 ^^^ rotateRight s.e 11 ^^^ rotateRight s.e 25
  let choice := (s.e &&& s.f) ^^^ (~~~s.e &&& s.g)
  let t1 := s.h + sum1 + choice + constant + word
  let sum0 := rotateRight s.a 2 ^^^ rotateRight s.a 13 ^^^ rotateRight s.a 22
  let majority := (s.a &&& s.b) ^^^ (s.a &&& s.c) ^^^ (s.b &&& s.c)
  ⟨t1 + sum0 + majority, s.a, s.b, s.c, s.d + t1, s.e, s.f, s.g⟩

/-- The state after one more block. -/
def compress (bytes : ByteArray) (s : State) (block : Nat) : State :=
  let words := (schedule bytes (64 * block)).toList
  let t := (roundConstants.zip words).foldl (fun s cw => step s cw.1 cw.2) s
  ⟨s.a + t.a, s.b + t.b, s.c + t.c, s.d + t.d, s.e + t.e, s.f + t.f, s.g + t.g, s.h + t.h⟩

/-- The words of the digest of a message. -/
def digest (message : ByteArray) : List UInt32 :=
  let bytes := padded message
  let s := (List.range (bytes.size / 64)).foldl (compress bytes) initial
  [s.a, s.b, s.c, s.d, s.e, s.f, s.g, s.h]

/-- The eight hexadecimal digits of a word. -/
def wordHex (word : UInt32) : String :=
  let digits := String.ofList (Nat.toDigits 16 word.toNat)
  "".pushn '0' (8 - digits.length) ++ digits

/-- The digest of a text's bytes, in hexadecimal digits. -/
def hexDigest (text : String) : String :=
  String.join ((digest text.toUTF8).map wordHex)

end ProblemSolving.Sha256
