/-!
# Rounding to double precision

A measured value leaves the library as a double.  Doubles hold every integer of up
to fifty-three bits; a longer one goes to the nearest integer that has fifty-three
significant bits, and of two equally near to the one whose last significant bit is
zero.
-/

namespace CommitteeConsensus

/-- How many low bits of `n` a double has no room for. -/
def droppedBits (n : Nat) : Nat := n.log2 + 1 - 53

/-- The integer that a double nearest to `n` holds. -/
def nearestDouble (n : Nat) : Nat :=
  let unit := 1 <<< droppedBits n
  let kept := n / unit
  let rest := n % unit
  if 2 * rest < unit ∨ (2 * rest = unit ∧ kept % 2 = 0) then kept * unit else (kept + 1) * unit

end CommitteeConsensus
