import CommitteeConsensus.Bytes
import CommitteeConsensus.Config.Value

/-!
# JSON texts

A configuration comes as a JSON text.  Reading keeps apart what the text keeps apart:
an integer and a double are different numbers, and the order of fields is that of the
text.  Of two fields of one name the later one counts.

A reader takes characters and gives back the rest of them.  Its first argument bounds
how many values may be begun.  Every value takes up a character, so a text never
holds more of them than it has characters.

Writing leaves one thing open: a double has many texts, and the caller says which it
gets.
-/

namespace CommitteeConsensus.Json

/-- Whether a character may stand between the parts of a text. -/
def isBlank (c : Char) : Bool := c == ' ' || c == '\n' || c == '\r' || c == '\t'

/-- What comes after the blanks at the start of a text. -/
def skipBlanks (text : List Char) : List Char := text.dropWhile isBlank

/-! ## Reading texts in quotes -/

/-- The character that an escape of one letter stands for. -/
def escaped? : Char → Option Char
  | '"' => some '"'
  | '\\' => some '\\'
  | '/' => some '/'
  | 'b' => some '\x08'
  | 'f' => some '\x0c'
  | 'n' => some '\n'
  | 'r' => some '\r'
  | 't' => some '\t'
  | _ => none

/-- The unit of UTF-16 that four hexadecimal digits stand for. -/
def unit? (a b c d : Char) : Option Nat := do
  let high ← Bytes.hexValue? a
  let second ← Bytes.hexValue? b
  let third ← Bytes.hexValue? c
  let low ← Bytes.hexValue? d
  some (((high * 16 + second) * 16 + third) * 16 + low)

/-- Whether a unit of UTF-16 is the first of two. -/
def isLeading (u : Nat) : Bool := 0xD800 ≤ u && u < 0xDC00

/-- Whether a unit of UTF-16 is the second of two. -/
def isTrailing (u : Nat) : Bool := 0xDC00 ≤ u && u < 0xE000

/-- Reads up to the closing quote.  A character that was escaped as two units of
UTF-16 needs both of them. -/
def readQuoted (read : List Char) : List Char → Option (String × List Char)
  | [] => none
  | '"' :: rest => some (String.ofList read.reverse, rest)
  | '\\' :: 'u' :: a :: b :: c :: d :: '\\' :: 'u' :: e :: f :: g :: h :: rest =>
    match unit? a b c d, unit? e f g h with
    | some first, some second =>
      if isLeading first then
        if isTrailing second then
          readQuoted (Char.ofNat (0x10000 + (first - 0xD800) * 0x400 + (second - 0xDC00)) :: read)
            rest
        else none
      else if isTrailing first then none
      else readQuoted (Char.ofNat first :: read) ('\\' :: 'u' :: e :: f :: g :: h :: rest)
    | _, _ => none
  | '\\' :: 'u' :: a :: b :: c :: d :: rest =>
    match unit? a b c d with
    | some u =>
      if isLeading u || isTrailing u then none else readQuoted (Char.ofNat u :: read) rest
    | none => none
  | '\\' :: c :: rest =>
    match escaped? c with
    | some c => readQuoted (c :: read) rest
    | none => none
  | c :: rest => if c.toNat < 32 then none else readQuoted (c :: read) rest

/-! ## Reading values -/

/-- Whether a character may be part of a number. -/
def isNumeral (c : Char) : Bool :=
  c.isDigit || c == '-' || c == '+' || c == '.' || c == 'e' || c == 'E'

/-- The fields of a record, given in reverse: the first of each name, in order. -/
def laterFields (reversed : List (String × Value)) : List (String × Value) :=
  reversed.foldl (fun kept field =>
    if kept.any (·.1 == field.1) then kept else field :: kept) []

mutual

/-- Reads a value. -/
def readValue : Nat → List Char → Option (Value × List Char)
  | 0, _ => none
  | fuel + 1, text =>
    match skipBlanks text with
    | '"' :: rest => (readQuoted [] rest).map fun read => (.text read.1, read.2)
    | '[' :: rest =>
      match skipBlanks rest with
      | ']' :: rest => some (.list [], rest)
      | rest => readItems fuel [] rest
    | '\x7b' :: rest =>
      match skipBlanks rest with
      | '\x7d' :: rest => some (.record [], rest)
      | rest => readFields fuel [] rest
    | 't' :: 'r' :: 'u' :: 'e' :: rest => some (.truth true, rest)
    | 'f' :: 'a' :: 'l' :: 's' :: 'e' :: rest => some (.truth false, rest)
    | 'n' :: 'u' :: 'l' :: 'l' :: rest => some (.null, rest)
    | rest =>
      (Number.ofText? (rest.takeWhile isNumeral)).map fun n =>
        (.number n, rest.dropWhile isNumeral)

/-- Reads the items of a list from its first item on. -/
def readItems : Nat → List Value → List Char → Option (Value × List Char)
  | 0, _, _ => none
  | fuel + 1, read, text =>
    match readValue fuel text with
    | none => none
    | some (value, rest) =>
      match skipBlanks rest with
      | ',' :: rest => readItems fuel (value :: read) rest
      | ']' :: rest => some (.list (value :: read).reverse, rest)
      | _ => none

/-- Reads the fields of a record from its first field on. -/
def readFields : Nat → List (String × Value) → List Char → Option (Value × List Char)
  | 0, _, _ => none
  | fuel + 1, read, text =>
    match skipBlanks text with
    | '"' :: rest =>
      match readQuoted [] rest with
      | none => none
      | some (name, rest) =>
        match skipBlanks rest with
        | ':' :: rest =>
          match readValue fuel rest with
          | none => none
          | some (value, rest) =>
            match skipBlanks rest with
            | ',' :: rest => readFields fuel ((name, value) :: read) rest
            | '\x7d' :: rest => some (.record (laterFields ((name, value) :: read)), rest)
            | _ => none
        | _ => none
    | _ => none

end

/-- Reads a value that makes up a whole text. -/
def parse? (text : String) : Option Value :=
  let characters := text.toList
  match readValue (characters.length + 1) characters with
  | some (value, rest) => if (skipBlanks rest).isEmpty then some value else none
  | none => none

/-! ## Writing -/

/-- A character of a text in quotes. -/
def quoteChar (c : Char) : String :=
  if c = '"' then "\\\""
  else if c = '\\' then "\\\\"
  else if c.toNat < 32 then
    "\\u00" ++ String.ofList [Bytes.hexDigit (c.toNat / 16), Bytes.hexDigit (c.toNat % 16)]
  else c.toString

/-- A text in quotes. -/
def quote (s : String) : String := s.foldl (fun written c => written ++ quoteChar c) "\"" ++ "\""

section

variable (double : Float → String)

mutual

/-- Writes a value, with the caller's texts for doubles. -/
def write : Value → String
  | .null => "null"
  | .truth b => if b then "true" else "false"
  | .number (.integer n) => toString n
  | .number (.double x) => double x
  | .text s => quote s
  | .list items => "[" ++ ",".intercalate (writeItems items) ++ "]"
  | .record fields => "\x7b" ++ ",".intercalate (writeFields fields) ++ "\x7d"

/-- Writes the items of a list. -/
def writeItems : List Value → List String
  | [] => []
  | value :: rest => write value :: writeItems rest

/-- Writes the fields of a record. -/
def writeFields : List (String × Value) → List String
  | [] => []
  | (name, value) :: rest => (quote name ++ ":" ++ write value) :: writeFields rest

end

end

end CommitteeConsensus.Json
