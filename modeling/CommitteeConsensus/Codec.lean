import CommitteeConsensus.Bytes

/-!
# Codecs of the binary format

Messages are signed and stored in a fixed binary form: integers have a fixed width
and their low byte first, a list is its length in eight bytes followed by its
elements, an option is a byte 0 or 1, an alternative is its number in four bytes,
and a digest is its thirty-two bytes alone.

A `Codec` is a writer beside a reader.  The reader consumes a prefix and hands back
the rest, so codecs compose: a structure is the pairing of its fields, and what is
proved of the pairing is proved of every structure.  Both sides are total.  Reading
a list of a claimed length stops at the first element that is not there, so a false
length costs no more than the input is long.

The laws are stated for values that fit the format, because a natural number can
be too large for its eight bytes; `Fits` is carried along with each codec.
-/

namespace CommitteeConsensus

/-- A writer and a reader of one type, with the condition under which a value has a
place in the format. -/
structure Codec (α : Type) where
  /-- The bytes of a value. -/
  write : α → Bytes
  /-- Reads a value from the front of the input and leaves the rest. -/
  read : Bytes → Option (α × Bytes)
  /-- Whether a value has a place in the format. -/
  Fits : α → Prop

namespace Codec

variable {α β : Type}

/-! ## Words -/

/-- A number in `width` bytes, low byte first. -/
def writeWord : (width : Nat) → Nat → Bytes
  | 0, _ => []
  | width + 1, n => UInt8.ofNat n :: writeWord width (n / 256)

/-- Reads a number of `width` bytes, low byte first. -/
def readWord : (width : Nat) → Bytes → Option (Nat × Bytes)
  | 0, input => some (0, input)
  | _ + 1, [] => none
  | width + 1, b :: input =>
    match readWord width input with
    | some (high, rest) => some (b.toNat + 256 * high, rest)
    | none => none

/-- Numbers of a fixed width. -/
def word (width : Nat) : Codec Nat where
  write := writeWord width
  read := readWord width
  Fits n := n < 1 <<< (8 * width)

/-- Numbers of eight bytes. -/
def word64 : Codec Nat := word 8

/-- Numbers of four bytes, which number the alternatives of a choice. -/
def word32 : Codec Nat := word 4

/-- Single bytes. -/
def byte : Codec UInt8 where
  write b := [b]
  read
    | [] => none
    | b :: rest => some (b, rest)
  Fits _ := True

/-! ## Structure -/

/-- One value after another. -/
def pair (first : Codec α) (second : Codec β) : Codec (α × β) where
  write p := first.write p.1 ++ second.write p.2
  read input :=
    match first.read input with
    | none => none
    | some (a, rest) =>
      match second.read rest with
      | none => none
      | some (b, rest) => some ((a, b), rest)
  Fits p := first.Fits p.1 ∧ second.Fits p.2

/-- Reads a value and packs it into another type. -/
def readAs (codec : Codec α) (pack : α → β) (input : Bytes) : Option (β × Bytes) :=
  match codec.read input with
  | none => none
  | some (a, rest) => some (pack a, rest)

/-- The same bytes under another type: `pack` makes the value and `unpack` takes it
apart. -/
def map (codec : Codec α) (pack : α → β) (unpack : β → α) : Codec β where
  write b := codec.write (unpack b)
  read := codec.readAs pack
  Fits b := codec.Fits (unpack b)

/-- A value that may be missing: a byte 0, or a byte 1 and the value. -/
def option (codec : Codec α) : Codec (Option α) where
  write
    | none => [0]
    | some a => 1 :: codec.write a
  read
    | [] => none
    | b :: rest =>
      if b = 0 then some (none, rest)
      else if b = 1 then
        match codec.read rest with
        | none => none
        | some (a, rest) => some (some a, rest)
      else none
  Fits o := ∀ a, o = some a → codec.Fits a

/-- Reads a given number of values. -/
def readMany (codec : Codec α) : (count : Nat) → Bytes → Option (List α × Bytes)
  | 0, input => some ([], input)
  | count + 1, input =>
    match codec.read input with
    | none => none
    | some (a, rest) =>
      match readMany codec count rest with
      | none => none
      | some (as, rest) => some (a :: as, rest)

/-- A list: its length and then its elements. -/
def list (codec : Codec α) : Codec (List α) where
  write as := word64.write as.length ++ as.flatMap codec.write
  read input :=
    match word64.read input with
    | none => none
    | some (count, rest) => readMany codec count rest
  Fits as := word64.Fits as.length ∧ ∀ a ∈ as, codec.Fits a

/-- A byte string: its length and then its bytes. -/
def bytes : Codec Bytes := list byte

/-- Thirty-two bytes, without a length. -/
def digest : Codec Digest where
  write d := d.bytes
  read input :=
    match Digest.ofBytes? (input.take 32) with
    | none => none
    | some d => some (d, input.drop 32)
  Fits _ := True

/-- The value at the front of the input; what follows it is not looked at. -/
def decode? (codec : Codec α) (input : Bytes) : Option α := (codec.read input).map Prod.fst

end Codec

end CommitteeConsensus
