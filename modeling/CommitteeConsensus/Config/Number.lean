import CommitteeConsensus.Word

/-!
# Numbers in a configuration

A number is written in decimal, and its spelling decides what it is.  Without a point
and without an exponent it is an integer, as long as it fits a 64-bit word, signed if
it has a sign.  Everything else is a double, and so is minus zero.

A double is the one nearest to the number that is written, however many digits it is
written with.  A number beyond every double is refused, while one too close to zero
is zero.
-/

namespace CommitteeConsensus

/-- A number of a configuration. -/
inductive Number where
  | integer (value : Int)
  | double (value : Float)

/-- The parts that a number is written in. -/
structure Numeral where
  negative : Bool
  whole : List Nat
  fraction : Option (List Nat)
  exponent : Option Int

namespace Numeral

/-- Splits off the digits at the start of a text. -/
def splitDigits (text : List Char) : List Nat × List Char :=
  ((text.takeWhile (·.isDigit)).map fun c => c.toNat - 48, text.dropWhile (·.isDigit))

/-- Reads a sign, if there is one. -/
def splitSign : List Char → Bool × List Char
  | '-' :: rest => (true, rest)
  | '+' :: rest => (false, rest)
  | rest => (false, rest)

/-- The number that digits stand for. -/
def ofDigits (digits : List Nat) : Nat := digits.foldl (fun n d => 10 * n + d) 0

/-- Reads the fraction of a numeral, if there is one. -/
def splitFraction : List Char → Option (Option (List Nat) × List Char)
  | '.' :: rest =>
    match splitDigits rest with
    | ([], _) => none
    | (digits, rest) => some (some digits, rest)
  | rest => some (none, rest)

/-- Reads the exponent of a numeral, if there is one. -/
def splitExponent : List Char → Option (Option Int × List Char)
  | [] => some (none, [])
  | c :: rest =>
    if c = 'e' ∨ c = 'E' then
      let (negative, rest) := splitSign rest
      match splitDigits rest with
      | ([], _) => none
      | (digits, rest) =>
        let size : Int := ofDigits digits
        some (some (if negative then -size else size), rest)
    else some (none, c :: rest)

/-- Whether digits are the whole part of a numeral: some, and no zero before others. -/
def isWhole : List Nat → Bool
  | [] => false
  | [_] => true
  | first :: _ => first != 0

/-- Reads a numeral that makes up a whole text. -/
def ofText? (text : List Char) : Option Numeral := do
  let (negative, rest) := match text with
    | '-' :: rest => (true, rest)
    | rest => (false, rest)
  let (whole, rest) := splitDigits rest
  let (fraction, rest) ← splitFraction rest
  let (exponent, rest) ← splitExponent rest
  if isWhole whole && rest.isEmpty then some ⟨negative, whole, fraction, exponent⟩ else none

/-- The digits of a numeral, with the point left out. -/
def digits (numeral : Numeral) : List Nat := numeral.whole ++ numeral.fraction.getD []

/-- The power of ten by which the digits of a numeral are scaled: its exponent, less
one for every digit after the point. -/
def power (numeral : Numeral) : Int :=
  numeral.exponent.getD 0 - (numeral.fraction.getD []).length

/-- The double nearest to a number times a power of ten, and of two equally near the
even one.  What is beyond every double has none. -/
def nearest? (n : Nat) (power : Int) : Option Float :=
  let x := Float.ofScientific n (decide (power < 0)) power.natAbs
  if x.isInf then none else some x

/-- The double that a numeral stands for. -/
def toDouble? (numeral : Numeral) : Option Float :=
  (nearest? (ofDigits numeral.digits) numeral.power).map fun x =>
    if numeral.negative then -x else x

/-- The integer that a numeral stands for, if it is written as one and fits a word. -/
def toInteger? (numeral : Numeral) : Option Int :=
  match numeral.fraction, numeral.exponent with
  | none, none =>
    let size := ofDigits numeral.whole
    if numeral.negative then
      if size = 0 ∨ 0x8000000000000000 < size then none else some (-size)
    else if size ≤ maxWord then some size else none
  | _, _ => none

end Numeral

/-- Reads a number. -/
def Number.ofText? (text : List Char) : Option Number := do
  let numeral ← Numeral.ofText? text
  match numeral.toInteger? with
  | some n => some (.integer n)
  | none => return .double (← numeral.toDouble?)

/-- A number as a double. -/
def Number.toDouble : Number → Float
  | .integer n => Float.ofInt n
  | .double x => x

end CommitteeConsensus
