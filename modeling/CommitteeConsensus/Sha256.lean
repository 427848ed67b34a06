import CommitteeConsensus.Bytes

/-!
# The SHA-256 digest

The committed seed of a height is a digest of the aggregated seed signature, and
the hosts of this library sign and identify blocks by digests too, so the hash is
defined here from its rounds.

The message is padded to whole blocks of sixty-four bytes.  `compress` folds one
block into the eight-word state by sixty-four rounds, one for each pair of a round
constant and a word of the block's schedule.  The state is a structure of eight
words rather than an array: no round can change how many words there are, and the
digest has thirty-two bytes by construction.
-/

namespace CommitteeConsensus.Sha256

/-- The eight words of the chaining state. -/
structure State where
  a : UInt32
  b : UInt32
  c : UInt32
  d : UInt32
  e : UInt32
  f : UInt32
  g : UInt32
  h : UInt32
  deriving DecidableEq

/-- The state before the first block. -/
def State.initial : State :=
  ⟨0x6a09e667, 0xbb67ae85, 0x3c6ef372, 0xa54ff53a, 0x510e527f, 0x9b05688c, 0x1f83d9ab,
    0x5be0cd19⟩

/-- Addition of states, word by word. -/
def State.add (s t : State) : State :=
  ⟨s.a + t.a, s.b + t.b, s.c + t.c, s.d + t.d, s.e + t.e, s.f + t.f, s.g + t.g, s.h + t.h⟩

/-- The constants of the sixty-four rounds. -/
def roundConstants : List UInt32 :=
  [0x428a2f98, 0x71374491, 0xb5c0fbcf, 0xe9b5dba5, 0x3956c25b, 0x59f111f1, 0x923f82a4, 0xab1c5ed5,
   0xd807aa98, 0x12835b01, 0x243185be, 0x550c7dc3, 0x72be5d74, 0x80deb1fe, 0x9bdc06a7, 0xc19bf174,
   0xe49b69c1, 0xefbe4786, 0x0fc19dc6, 0x240ca1cc, 0x2de92c6f, 0x4a7484aa, 0x5cb0a9dc, 0x76f988da,
   0x983e5152, 0xa831c66d, 0xb00327c8, 0xbf597fc7, 0xc6e00bf3, 0xd5a79147, 0x06ca6351, 0x14292967,
   0x27b70a85, 0x2e1b2138, 0x4d2c6dfc, 0x53380d13, 0x650a7354, 0x766a0abb, 0x81c2c92e, 0x92722c85,
   0xa2bfe8a1, 0xa81a664b, 0xc24b8b70, 0xc76c51a3, 0xd192e819, 0xd6990624, 0xf40e3585, 0x106aa070,
   0x19a4c116, 0x1e376c08, 0x2748774c, 0x34b0bcb5, 0x391c0cb3, 0x4ed8aa4a, 0x5b9cca4f, 0x682e6ff3,
   0x748f82ee, 0x78a5636f, 0x84c87814, 0x8cc70208, 0x90befffa, 0xa4506ceb, 0xbef9a3f7, 0xc67178f2]

/-- Rotation to the right by an amount between 1 and 31. -/
def rotateRight (x : UInt32) (n : UInt32) : UInt32 := (x >>> n) ||| (x <<< (32 - n))

/-- One round: `k` is the round constant and `w` the word of the schedule. -/
def round (s : State) (k w : UInt32) : State :=
  let sum1 := rotateRight s.e 6 ^^^ rotateRight s.e 11 ^^^ rotateRight s.e 25
  let choice := (s.e &&& s.f) ^^^ ((~~~ s.e) &&& s.g)
  let temp1 := s.h + sum1 + choice + k + w
  let sum0 := rotateRight s.a 2 ^^^ rotateRight s.a 13 ^^^ rotateRight s.a 22
  let majority := (s.a &&& s.b) ^^^ (s.a &&& s.c) ^^^ (s.b &&& s.c)
  ⟨temp1 + (sum0 + majority), s.a, s.b, s.c, s.d + temp1, s.e, s.f, s.g⟩

/-- The big endian words of a byte string; a rest of fewer than four bytes is not
read. -/
def words : Bytes → List UInt32
  | b0 :: b1 :: b2 :: b3 :: rest =>
    ((b0.toUInt32 <<< 24) ||| (b1.toUInt32 <<< 16) ||| (b2.toUInt32 <<< 8) ||| b3.toUInt32) ::
      words rest
  | _ => []

/-- Appends `count` words to a schedule, each from the words 16, 15, 7 and 2 places
before it. -/
def extend : Nat → Array UInt32 → Array UInt32
  | 0, w => w
  | count + 1, w =>
    let i := w.size
    let x := w.getD (i - 15) 0
    let y := w.getD (i - 2) 0
    let sigma0 := rotateRight x 7 ^^^ rotateRight x 18 ^^^ (x >>> 3)
    let sigma1 := rotateRight y 17 ^^^ rotateRight y 19 ^^^ (y >>> 10)
    extend count (w.push (w.getD (i - 16) 0 + sigma0 + w.getD (i - 7) 0 + sigma1))

/-- The sixty-four words that a block of sixty-four bytes gives to the rounds. -/
def schedule (block : Bytes) : List UInt32 := (extend 48 (words block).toArray).toList

/-- Folds one block into the state. -/
def compress (s : State) (block : Bytes) : State :=
  ((roundConstants.zip (schedule block)).foldl (fun t kw => round t kw.1 kw.2) s).add s

/-- Folds the first `count` blocks of a byte string into the state. -/
def absorb : Nat → State → Bytes → State
  | 0, s, _ => s
  | count + 1, s, input => absorb count (compress s (input.take 64)) (input.drop 64)

/-- The bytes of a word, high byte first. -/
def wordBytes (w : UInt32) : Bytes :=
  [(w >>> 24).toUInt8, (w >>> 16).toUInt8, (w >>> 8).toUInt8, w.toUInt8]

/-- The lowest eight bytes of a number, high byte first. -/
def lengthBytes (n : Nat) : Bytes :=
  [56, 48, 40, 32, 24, 16, 8, 0].map fun shift => UInt8.ofNat (n >>> shift)

/-- The message, a single one bit, zeros, and the bit length: whole blocks. -/
def pad (message : Bytes) : Bytes :=
  message ++ 0x80 :: (List.replicate ((119 - message.length % 64) % 64) 0 ++
    lengthBytes (8 * message.length))

/-- The bytes of a state, word by word. -/
def State.toBytes (s : State) : Bytes :=
  [s.a, s.b, s.c, s.d, s.e, s.f, s.g, s.h].flatMap wordBytes

theorem State.length_toBytes (s : State) : s.toBytes.length = 32 := rfl

/-- The SHA-256 digest of a message. -/
def hash (message : Bytes) : Digest :=
  let padded := pad message
  let state := absorb (padded.length / 64) State.initial padded
  ⟨state.toBytes, state.length_toBytes⟩

/-- The digest of several byte strings, one after another. -/
def hashAll (parts : List Bytes) : Digest := hash parts.flatten

end CommitteeConsensus.Sha256
