/-!
# Counters of sixty-four bits

Heights, views, member ids and seeds travel as 64-bit words.  Inside the protocol
they are natural numbers, so that an argument about them is an argument about
`Nat`; the width of the word shows up in few places, and this module names each of
them once.

* A limit that is added to a counter stops at the largest word (`satAdd`).
* The successor of the largest height does not exist (`nextHeight?`), and neither does that
  of the largest view.
* The binary format writes eight bytes (see `CommitteeConsensus.Codec`).
* The seconds of a span of time are a word (see `CommitteeConsensus.Span`).

What is computed in numbers of a given width is given up where a number gets too large
for it (`within?`).
-/

namespace CommitteeConsensus

/-- The sequence number of the block being agreed upon. -/
abbrev Height := Nat

/-- A sub-round within a height.  It is 0 when the height starts and grows with
every change of leader. -/
abbrev View := Nat

/-- The identity of a committee member, as the key manager knows it. -/
abbrev MemberId := Nat

/-- The random seed of a height, from which its committee is drawn. -/
abbrev Seed := Nat

/-- The largest value of a 64-bit counter. -/
def maxWord : Nat := 0xFFFFFFFFFFFFFFFF

/-- Addition that stops at the largest word instead of passing it. -/
def satAdd (a b : Nat) : Nat := min (a + b) maxWord

/-- The height after `h`, if there is one. -/
def nextHeight? (h : Height) : Option Height :=
  if h < maxWord then some (h + 1) else none

/-- A number, unless it exceeds a limit. -/
def within? (limit n : Nat) : Option Nat := if n ≤ limit then some n else none

theorem le_satAdd {a : Nat} (b : Nat) (h : a ≤ maxWord) : a ≤ satAdd a b :=
  Nat.le_min.2 ⟨Nat.le_add_right a b, h⟩

theorem satAdd_le_satAdd {a b : Nat} (k : Nat) (h : a ≤ b) : satAdd a k ≤ satAdd b k := by
  rw [satAdd, satAdd]
  omega

@[simp] theorem nextHeight?_eq_some {h k : Height} :
    nextHeight? h = some k ↔ h < maxWord ∧ h + 1 = k := by
  unfold nextHeight?; split
  · simp [*]
  · simp [*]

@[simp] theorem within?_eq_some {limit n k : Nat} :
    within? limit n = some k ↔ n ≤ limit ∧ n = k := by
  unfold within?; split
  · simp [*]
  · simp [*]

@[simp] theorem within?_eq_none {limit n : Nat} : within? limit n = none ↔ limit < n := by
  unfold within?; split
  · simpa using ‹n ≤ limit›
  · simpa using ‹¬n ≤ limit›

theorem getD_within? (limit n : Nat) : (within? limit n).getD limit = min n limit := by
  unfold within?; split
  · exact (Nat.min_eq_left ‹n ≤ limit›).symm
  · exact (Nat.min_eq_right (Nat.le_of_not_le ‹¬n ≤ limit›)).symm

end CommitteeConsensus
