import CommitteeConsensus.Bytes

/-!
# Reading UTF-8

The body of a block is bytes, and people like to read it as a text.  Bytes that are
no UTF-8 must not get in the way: what begins like a character and does not go on
like one is shown as a replacement character, and so is a byte that no character
begins with.

The bytes are read one by one.  Between two bytes the reader knows at most the
beginning of a character: what its bytes were so far, how many are to come, and
between which bounds the next one has to be.  The bounds are narrower for some first
bytes, which keeps out encodings that are too long, surrogates, and numbers beyond
the last character.
-/

namespace CommitteeConsensus.Utf8

/-- The beginning of a character. -/
structure Begun where
  /-- The bits read so far. -/
  bits : Nat
  /-- How many bytes are to come. -/
  missing : Nat
  /-- The least that the next byte may be. -/
  least : Nat
  /-- The greatest that the next byte may be. -/
  greatest : Nat

/-- The sign for bytes that are no character. -/
def replacement : Char := '\uFFFD'

/-- Reads a first byte: it is a character, it begins one, or it is neither. -/
def first (b : Nat) : Option Begun × List Char :=
  if b < 0x80 then (none, [Char.ofNat b])
  else if 0xC2 ≤ b ∧ b < 0xE0 then (some ⟨b - 0xC0, 1, 0x80, 0xBF⟩, [])
  else if b = 0xE0 then (some ⟨0, 2, 0xA0, 0xBF⟩, [])
  else if b = 0xED then (some ⟨0xD, 2, 0x80, 0x9F⟩, [])
  else if 0xE0 < b ∧ b < 0xF0 then (some ⟨b - 0xE0, 2, 0x80, 0xBF⟩, [])
  else if b = 0xF0 then (some ⟨0, 3, 0x90, 0xBF⟩, [])
  else if b = 0xF4 then (some ⟨4, 3, 0x80, 0x8F⟩, [])
  else if 0xF0 < b ∧ b < 0xF4 then (some ⟨b - 0xF0, 3, 0x80, 0xBF⟩, [])
  else (none, [replacement])

/-- Reads a byte after the beginning of a character.  A byte that does not belong to
the character may begin another one. -/
def next (begun : Begun) (b : Nat) : Option Begun × List Char :=
  if begun.least ≤ b ∧ b ≤ begun.greatest then
    let bits := begun.bits * 64 + (b - 0x80)
    if begun.missing = 1 then (none, [Char.ofNat bits])
    else (some ⟨bits, begun.missing - 1, 0x80, 0xBF⟩, [])
  else
    let (begun, characters) := first b
    (begun, replacement :: characters)

/-- Reads bytes after the beginning of a character, if one has begun. -/
def readFrom : Option Begun → Bytes → List Char
  | none, [] => []
  | some _, [] => [replacement]
  | begun?, b :: rest =>
    let (after, characters) :=
      match begun? with
      | none => first b.toNat
      | some begun => next begun b.toNat
    characters ++ readFrom after rest

/-- The text of some bytes. -/
def read (bytes : Bytes) : String := String.ofList (readFrom none bytes)

end CommitteeConsensus.Utf8
