import CommitteeConsensus.Config.Basic
import CommitteeConsensus.Config.Number

/-!
# Seconds

In a configuration a span of time is a number of seconds, with a fraction if need be.
Reading it multiplies by the nanoseconds of a second, in doubles, and drops what is
less than a nanosecond.  A span below zero is refused, and so is one of 2⁶⁴ seconds
or more; minus zero is zero.  Writing adds the whole seconds and the fraction, each as
a double.  What is read back from what is written may differ in the last nanoseconds.
-/

namespace CommitteeConsensus

/-- The integer part of a finite double that is not negative. -/
def integerPart (x : Float) : Nat :=
  let bits := x.toBits.toNat
  let exponent := (bits >>> 52) % (1 <<< 11)
  let significand := (1 <<< 52) + bits % (1 <<< 52)
  if exponent = 0 then 0
  else if exponent < 1075 then significand >>> (1075 - exponent)
  else significand <<< (exponent - 1075)

/-- Reads a span of time from its seconds. -/
def readSeconds? (seconds : Number) : Option Nanoseconds :=
  let nanoseconds := seconds.toDouble * Float.ofNat secondNanoseconds
  if nanoseconds.isFinite && !(nanoseconds < 0) &&
      nanoseconds < Float.ofNat ((maxWord + 1) * secondNanoseconds) then
    some (integerPart nanoseconds)
  else none

/-- Writes a span of time in seconds. -/
def writeSeconds (span : Nanoseconds) : Float :=
  Float.ofNat (span / secondNanoseconds) +
    Float.ofNat (span % secondNanoseconds) / Float.ofNat secondNanoseconds

end CommitteeConsensus
