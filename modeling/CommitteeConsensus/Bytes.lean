import CommitteeConsensus.Word

/-!
# Byte strings and digests

A byte string is a list of bytes: every statement of this library about encodings
is a statement about appending and splitting lists.  A `Digest` is a byte string
of exactly thirty-two bytes, with its length in the type, so a reader of the
binary format takes thirty-two bytes or refuses and nothing downstream has to ask
again.

Byte strings are shown in lower case hexadecimal, two digits for each byte.
-/

namespace CommitteeConsensus

/-- A string of bytes. -/
abbrev Bytes := List UInt8

/-- Thirty-two bytes, the size of a SHA-256 value. -/
structure Digest where
  bytes : Bytes
  length_bytes : bytes.length = 32
  deriving DecidableEq

/-- The digest of a block, calculated by the host. -/
abbrev BlockHash := Digest

/-- A signature, as opaque bytes of any length. -/
abbrev Signature := Bytes

namespace Digest

@[ext] theorem ext {a b : Digest} (h : a.bytes = b.bytes) : a = b := by
  cases a; cases b; simp_all

/-- The digest made of these bytes, if there are thirty-two of them. -/
def ofBytes? (bytes : Bytes) : Option Digest :=
  if h : bytes.length = 32 then some ⟨bytes, h⟩ else none

/-- The digest of thirty-two zero bytes. -/
def zero : Digest := ⟨List.replicate 32 0, List.length_replicate⟩

@[simp] theorem ofBytes?_bytes (d : Digest) : ofBytes? d.bytes = some d := by
  simp [ofBytes?, d.length_bytes]

end Digest

namespace Bytes

/-! ## Hexadecimal text -/

/-- The hexadecimal digit of a number below sixteen. -/
def hexDigit (n : Nat) : Char :=
  if n < 10 then Char.ofNat ('0'.toNat + n) else Char.ofNat ('a'.toNat + (n - 10))

/-- The number below sixteen that a hexadecimal digit stands for. -/
def hexValue? (c : Char) : Option Nat :=
  if '0' ≤ c ∧ c ≤ '9' then some (c.toNat - '0'.toNat)
  else if 'a' ≤ c ∧ c ≤ 'f' then some (c.toNat - 'a'.toNat + 10)
  else if 'A' ≤ c ∧ c ≤ 'F' then some (c.toNat - 'A'.toNat + 10)
  else none

/-- The two digits of a byte, high half first. -/
def hexPair (b : UInt8) : List Char := [hexDigit (b.toNat / 16), hexDigit (b.toNat % 16)]

/-- Lower case hexadecimal, two digits for each byte. -/
def toHex (bytes : Bytes) : String := String.ofList (bytes.flatMap hexPair)

/-- The bytes that pairs of hexadecimal digits stand for; an odd digit or a
character that is no digit makes the whole text unreadable. -/
def ofHexDigits? : List Char → Option Bytes
  | [] => some []
  | [_] => none
  | high :: low :: rest => do
    let h ← hexValue? high
    let l ← hexValue? low
    let bytes ← ofHexDigits? rest
    some (UInt8.ofNat (16 * h + l) :: bytes)

/-- Reads hexadecimal text back into bytes. -/
def ofHex? (text : String) : Option Bytes := ofHexDigits? text.toList

end Bytes

/-- The UTF-8 bytes of a text. -/
def utf8 (text : String) : Bytes := text.toUTF8.data.toList

end CommitteeConsensus
