import PlZero.Text.Numeral

/-! The digest SHA-256: a text is padded to blocks of 64 bytes, and each block is mixed into a state of
eight words. -/

namespace PlZero.Archive.Digest

open PlZero.Text

/-- The round constants: the first 32 bits of the fractional parts of the cube roots of the first 64
primes. -/
def roundConstants : List UInt32 :=
  [0x428a2f98, 0x71374491, 0xb5c0fbcf, 0xe9b5dba5, 0x3956c25b, 0x59f111f1, 0x923f82a4, 0xab1c5ed5,
    0xd807aa98, 0x12835b01, 0x243185be, 0x550c7dc3, 0x72be5d74, 0x80deb1fe, 0x9bdc06a7, 0xc19bf174,
    0xe49b69c1, 0xefbe4786, 0x0fc19dc6, 0x240ca1cc, 0x2de92c6f, 0x4a7484aa, 0x5cb0a9dc, 0x76f988da,
    0x983e5152, 0xa831c66d, 0xb00327c8, 0xbf597fc7, 0xc6e00bf3, 0xd5a79147, 0x06ca6351, 0x14292967,
    0x27b70a85, 0x2e1b2138, 0x4d2c6dfc, 0x53380d13, 0x650a7354, 0x766a0abb, 0x81c2c92e, 0x92722c85,
    0xa2bfe8a1, 0xa81a664b, 0xc24b8b70, 0xc76c51a3, 0xd192e819, 0xd6990624, 0xf40e3585, 0x106aa070,
    0x19a4c116, 0x1e376c08, 0x2748774c, 0x34b0bcb5, 0x391c0cb3, 0x4ed8aa4a, 0x5b9cca4f, 0x682e6ff3,
    0x748f82ee, 0x78a5636f, 0x84c87814, 0x8cc70208, 0x90befffa, 0xa4506ceb, 0xbef9a3f7, 0xc67178f2]

/-- The eight words that blocks are mixed into. -/
structure State where
  a : UInt32
  b : UInt32
  c : UInt32
  d : UInt32
  e : UInt32
  f : UInt32
  g : UInt32
  h : UInt32
  deriving DecidableEq, Repr

/-- The first 32 bits of the fractional parts of the square roots of the first eight primes. -/
def initial : State :=
  ⟨0x6a09e667, 0xbb67ae85, 0x3c6ef372, 0xa54ff53a, 0x510e527f, 0x9b05688c, 0x1f83d9ab, 0x5be0cd19⟩

def rotateRight (word count : UInt32) : UInt32 :=
  (word >>> count) ||| (word <<< (32 - count))

/-- The word that follows sixteen words of a schedule, given the latest first. -/
def nextWord (words : List UInt32) : UInt32 :=
  let near := words.getD 1 0
  let far := words.getD 14 0
  let mixedNear := rotateRight near 17 ^^^ rotateRight near 19 ^^^ (near >>> 10)
  let mixedFar := rotateRight far 7 ^^^ rotateRight far 18 ^^^ (far >>> 3)
  mixedNear + words.getD 6 0 + mixedFar + words.getD 15 0

/-- Adds a number of words to a schedule, which is kept the latest first. -/
def extend : Nat → List UInt32 → List UInt32
  | 0, words => words
  | count + 1, words => extend count (nextWord words :: words)

/-- The words of a block: four bytes each. -/
def words : Bytes → List UInt32
  | a :: b :: c :: d :: rest => (BigEndian.number [a, b, c, d]).toUInt32 :: words rest
  | _ => []

/-- The 64 words of the schedule of a block. -/
def schedule (block : Bytes) : List UInt32 :=
  (extend 48 (words block).reverse).reverse

/-- One round of mixing. -/
def round (state : State) (constantAndWord : UInt32 × UInt32) : State :=
  let ⟨a, b, c, d, e, f, g, h⟩ := state
  let mixedE := rotateRight e 6 ^^^ rotateRight e 11 ^^^ rotateRight e 25
  let choice := (e &&& f) ^^^ (~~~e &&& g)
  let first := h + mixedE + choice + constantAndWord.1 + constantAndWord.2
  let mixedA := rotateRight a 2 ^^^ rotateRight a 13 ^^^ rotateRight a 22
  let majority := (a &&& b) ^^^ (a &&& c) ^^^ (b &&& c)
  ⟨first + (mixedA + majority), a, b, c, d + first, e, f, g⟩

/-- Mixes a block into a state. -/
def compress (state : State) (block : Bytes) : State :=
  let mixed := (roundConstants.zip (schedule block)).foldl round state
  ⟨state.a + mixed.a, state.b + mixed.b, state.c + mixed.c, state.d + mixed.d, state.e + mixed.e,
    state.f + mixed.f, state.g + mixed.g, state.h + mixed.h⟩

/-- A text with a one bit, zeros and its length in bits, so that it fills whole blocks. -/
def pad (text : Bytes) : Bytes :=
  text ++ 0x80 :: List.replicate ((119 - text.length % 64) % 64) 0
    ++ BigEndian.bytes 8 (8 * text.length)

/-- Mixes a number of blocks into a state. -/
def absorb : Nat → State → Bytes → State
  | 0, state, _ => state
  | count + 1, state, text => absorb count (compress state (text.take 64)) (text.drop 64)

/-- The 32 bytes of a digest. -/
def sha256 (text : Bytes) : Bytes :=
  let padded := pad text
  let state := absorb (padded.length / 64) initial padded
  [state.a, state.b, state.c, state.d, state.e, state.f, state.g, state.h].flatMap fun word =>
    BigEndian.bytes 4 word.toNat

/-- A digest in hexadecimal. -/
def hexText (digest : Bytes) : String :=
  String.ofList (digest.flatMap fun byte => hexDigits 2 byte.toNat)

end PlZero.Archive.Digest
