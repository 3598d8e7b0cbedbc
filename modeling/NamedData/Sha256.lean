import NamedData.Bytes
/-!
# SHA-256

The digest function of FIPS 180-4 over byte strings. `hash` pads the message to whole
blocks of sixteen words, folds the compression function over them and writes out the eight
state words. A `Digest` carries its length, so whoever holds one need not check it.
-/

namespace NamedData

/-- Thirty-two bytes. -/
structure Digest where
  bytes : Bytes
  length_bytes : bytes.length = 32
deriving DecidableEq

/-- A byte string as a digest, if it has the length of one. -/
def Digest.ofBytes? (bytes : Bytes) : Option Digest :=
  if h : bytes.length = 32 then some ⟨bytes, h⟩ else none

namespace Sha256

/-! ## Words -/

/-- The eight words of the state. -/
structure Words where
  (a b c d e f g h : UInt32)
deriving DecidableEq

def Words.add (x y : Words) : Words :=
  ⟨x.a + y.a, x.b + y.b, x.c + y.c, x.d + y.d, x.e + y.e, x.f + y.f, x.g + y.g, x.h + y.h⟩

/-- The state before the first block: fractional parts of square roots of the first eight primes. -/
def start : Words :=
  ⟨0x6a09e667, 0xbb67ae85, 0x3c6ef372, 0xa54ff53a, 0x510e527f, 0x9b05688c, 0x1f83d9ab, 0x5be0cd19⟩

/-- The round constants: fractional parts of cube roots of the first sixty-four primes. -/
def constants : List UInt32 :=
  [0x428a2f98, 0x71374491, 0xb5c0fbcf, 0xe9b5dba5, 0x3956c25b, 0x59f111f1, 0x923f82a4, 0xab1c5ed5,
   0xd807aa98, 0x12835b01, 0x243185be, 0x550c7dc3, 0x72be5d74, 0x80deb1fe, 0x9bdc06a7, 0xc19bf174,
   0xe49b69c1, 0xefbe4786, 0x0fc19dc6, 0x240ca1cc, 0x2de92c6f, 0x4a7484aa, 0x5cb0a9dc, 0x76f988da,
   0x983e5152, 0xa831c66d, 0xb00327c8, 0xbf597fc7, 0xc6e00bf3, 0xd5a79147, 0x06ca6351, 0x14292967,
   0x27b70a85, 0x2e1b2138, 0x4d2c6dfc, 0x53380d13, 0x650a7354, 0x766a0abb, 0x81c2c92e, 0x92722c85,
   0xa2bfe8a1, 0xa81a664b, 0xc24b8b70, 0xc76c51a3, 0xd192e819, 0xd6990624, 0xf40e3585, 0x106aa070,
   0x19a4c116, 0x1e376c08, 0x2748774c, 0x34b0bcb5, 0x391c0cb3, 0x4ed8aa4a, 0x5b9cca4f, 0x682e6ff3,
   0x748f82ee, 0x78a5636f, 0x84c87814, 0x8cc70208, 0x90befffa, 0xa4506ceb, 0xbef9a3f7, 0xc67178f2]

/-- Rotation to the right. -/
def rotate (word : UInt32) (amount : UInt32) : UInt32 :=
  (word >>> amount) ||| (word <<< (32 - amount))

/-! ## Compression -/

/-- One more word of the schedule, put in front of those before it. -/
def extend (newest : List UInt32) : List UInt32 :=
  let near := newest.getD 1 0
  let far := newest.getD 14 0
  let mixNear := rotate near 17 ^^^ rotate near 19 ^^^ (near >>> 10)
  let mixFar := rotate far 7 ^^^ rotate far 18 ^^^ (far >>> 3)
  (mixNear + newest.getD 6 0 + mixFar + newest.getD 15 0) :: newest

/-- The sixty-four words that a block of sixteen is stretched to. -/
def schedule (block : List UInt32) : List UInt32 :=
  (Nat.repeat extend 48 block.reverse).reverse

/-- One round, with its constant and its word of the schedule. -/
def round (w : Words) (input : UInt32 × UInt32) : Words :=
  let mixE := rotate w.e 6 ^^^ rotate w.e 11 ^^^ rotate w.e 25
  let choice := (w.e &&& w.f) ^^^ (~~~w.e &&& w.g)
  let first := w.h + mixE + choice + input.1 + input.2
  let mixA := rotate w.a 2 ^^^ rotate w.a 13 ^^^ rotate w.a 22
  let majority := (w.a &&& w.b) ^^^ (w.a &&& w.c) ^^^ (w.b &&& w.c)
  ⟨first + (mixA + majority), w.a, w.b, w.c, w.d + first, w.e, w.f, w.g⟩

/-- The state after one block. -/
def compress (state : Words) (block : List UInt32) : Words :=
  state.add ((constants.zip (schedule block)).foldl round state)

/-! ## Messages -/

/-- The message with a one bit, zeros and its length in bits, filling whole blocks. -/
def padded (message : Bytes) : Bytes :=
  message ++ 0x80 :: (List.replicate ((119 - message.length % 64) % 64) 0
    ++ Bytes.bigEndian 8 (8 * message.length))

/-- Four bytes to a word. -/
def words : Bytes → List UInt32
  | a :: b :: c :: d :: rest =>
    (a.toUInt32 <<< 24 ||| b.toUInt32 <<< 16 ||| c.toUInt32 <<< 8 ||| d.toUInt32) :: words rest
  | _ => []

/-- The first `count` blocks of sixteen words. -/
def blocks : (count : Nat) → List UInt32 → List (List UInt32)
  | 0, _ => []
  | count + 1, ws => ws.take 16 :: blocks count (ws.drop 16)

/-- The four bytes of a word. -/
def wordBytes (word : UInt32) : Bytes :=
  [(word >>> 24).toUInt8, (word >>> 16).toUInt8, (word >>> 8).toUInt8, word.toUInt8]

def Words.toDigest (w : Words) : Digest where
  bytes := wordBytes w.a ++ wordBytes w.b ++ wordBytes w.c ++ wordBytes w.d
    ++ wordBytes w.e ++ wordBytes w.f ++ wordBytes w.g ++ wordBytes w.h
  length_bytes := rfl

/-- The digest of a message. -/
def hash (message : Bytes) : Digest :=
  let ws := words (padded message)
  ((blocks (ws.length / 16) ws).foldl compress start).toDigest

end Sha256

end NamedData
