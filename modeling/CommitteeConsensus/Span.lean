import CommitteeConsensus.Config.Basic

/-!
# Spans of time

Configurations and clocks count nanoseconds.  A span that is multiplied comes in two
parts: whole seconds, which are a word, and the nanoseconds beyond them, fewer than a
second has.  Each part is multiplied for itself, and the whole seconds among the
nanoseconds are carried to the seconds.

The longest span has the largest number of seconds and all but a nanosecond of one
more.  A product that would be longer is given up (`Span.times?`), and the longest span
takes its place (`Span.satTimes`).  So a product is exact, or else it is the longest
span (`Span.nanoseconds_satTimes`).
-/

namespace CommitteeConsensus

/-- The longest span of time there is: the largest number of whole seconds, and all
but a nanosecond of one more. -/
def longestSpan : Nanoseconds := maxWord * 1000000000 + 999999999

/-- A span of time in two parts. -/
@[ext]
structure Span where
  /-- The whole seconds. -/
  seconds : Nat
  /-- The nanoseconds beyond the whole seconds. -/
  beyond : Nanoseconds
  seconds_le : seconds ≤ maxWord
  beyond_lt : beyond < secondNanoseconds
  deriving DecidableEq

namespace Span

/-- A span of time in nanoseconds. -/
def nanoseconds (s : Span) : Nanoseconds := s.seconds * secondNanoseconds + s.beyond

/-- The longest span of time. -/
def longest : Span := ⟨maxWord, 999999999, Nat.le_refl _, by decide⟩

/-- The span of so many nanoseconds, or the longest one if they are too many. -/
def ofNanoseconds (n : Nanoseconds) : Span :=
  if h : n / secondNanoseconds ≤ maxWord then
    ⟨n / secondNanoseconds, n % secondNanoseconds, h, Nat.mod_lt _ (by decide)⟩
  else longest

/-- A span so many times over, unless its seconds do not fit a word, before the carry or
after it. -/
def times? (s : Span) (factor : Nat) : Option Span :=
  let beyond := s.beyond * factor
  let carry := beyond / secondNanoseconds
  if s.seconds * factor ≤ maxWord then
    if h : s.seconds * factor + carry ≤ maxWord then
      some ⟨s.seconds * factor + carry, beyond % secondNanoseconds, h, Nat.mod_lt _ (by decide)⟩
    else none
  else none

/-- A span so many times over, or the longest one if that is too long. -/
def satTimes (s : Span) (factor : Nat) : Span := (s.times? factor).getD longest

/-! ## Spans and their nanoseconds -/

theorem longestSpan_eq : longestSpan = maxWord * secondNanoseconds + (secondNanoseconds - 1) := by
  decide

@[simp] theorem nanoseconds_longest : longest.nanoseconds = longestSpan := longestSpan_eq.symm

theorem nanoseconds_le_longestSpan (s : Span) : s.nanoseconds ≤ longestSpan := by
  rw [nanoseconds, longestSpan_eq]
  exact Nat.add_le_add (Nat.mul_le_mul_right _ s.seconds_le) (Nat.le_sub_one_of_lt s.beyond_lt)

/-- Seconds of which there are too many for a word take longer than the longest span. -/
theorem longestSpan_lt {seconds : Nat} (h : maxWord < seconds) (beyond : Nanoseconds) :
    longestSpan < seconds * secondNanoseconds + beyond :=
  calc longestSpan
      < (maxWord + 1) * secondNanoseconds := by decide
    _ ≤ seconds * secondNanoseconds := Nat.mul_le_mul_right _ h
    _ ≤ seconds * secondNanoseconds + beyond := Nat.le_add_right _ _

@[simp] theorem ofNanoseconds_nanoseconds (s : Span) : ofNanoseconds s.nanoseconds = s := by
  obtain ⟨hseconds, hbeyond⟩ : s.nanoseconds / secondNanoseconds = s.seconds ∧
      s.nanoseconds % secondNanoseconds = s.beyond := by
    refine (Nat.div_mod_unique (by decide)).2 ⟨?_, s.beyond_lt⟩
    rw [nanoseconds, Nat.mul_comm, Nat.add_comm]
  have hfits : s.nanoseconds / secondNanoseconds ≤ maxWord := hseconds ▸ s.seconds_le
  rw [ofNanoseconds, dif_pos hfits]
  exact Span.ext hseconds hbeyond

theorem nanoseconds_ofNanoseconds (n : Nanoseconds) :
    (ofNanoseconds n).nanoseconds = min n longestSpan := by
  have hsplit := Nat.div_add_mod' n secondNanoseconds
  by_cases hfits : n / secondNanoseconds ≤ maxWord
  · have hsame : (ofNanoseconds n).nanoseconds = n := by
      rw [ofNanoseconds, dif_pos hfits]
      exact hsplit
    rw [hsame]
    exact (Nat.min_eq_left (hsame ▸ nanoseconds_le_longestSpan _)).symm
  · rw [ofNanoseconds, dif_neg hfits, nanoseconds_longest]
    have hlong := longestSpan_lt (Nat.lt_of_not_le hfits) (n % secondNanoseconds)
    rw [hsplit] at hlong
    exact (Nat.min_eq_right (Nat.le_of_lt hlong)).symm

/-! ## Products -/

/-- The parts of a product, after the carry. -/
theorem nanoseconds_mul (s : Span) (factor : Nat) :
    s.nanoseconds * factor =
      (s.seconds * factor + s.beyond * factor / secondNanoseconds) * secondNanoseconds +
        s.beyond * factor % secondNanoseconds :=
  calc s.nanoseconds * factor
      = s.seconds * factor * secondNanoseconds + s.beyond * factor := by
        rw [nanoseconds, Nat.add_mul, Nat.mul_right_comm]
    _ = (s.seconds * factor + s.beyond * factor / secondNanoseconds) * secondNanoseconds +
        s.beyond * factor % secondNanoseconds := by
        rw [Nat.add_mul, Nat.add_assoc, Nat.div_add_mod']

/-- A product is exact, or it is given up because it is longer than the longest span. -/
theorem times?_cases (s : Span) (factor : Nat) :
    (∃ product, s.times? factor = some product ∧
        product.nanoseconds = s.nanoseconds * factor) ∨
      s.times? factor = none ∧ longestSpan < s.nanoseconds * factor := by
  rw [nanoseconds_mul]
  by_cases hseconds : s.seconds * factor ≤ maxWord
  · by_cases hcarried : s.seconds * factor + s.beyond * factor / secondNanoseconds ≤ maxWord
    · rw [times?, if_pos hseconds, dif_pos hcarried]
      exact Or.inl ⟨_, rfl, rfl⟩
    · refine Or.inr ⟨?_, longestSpan_lt (Nat.lt_of_not_le hcarried) _⟩
      rw [times?, if_pos hseconds, dif_neg hcarried]
  · refine Or.inr ⟨by rw [times?, if_neg hseconds], longestSpan_lt ?_ _⟩
    exact Nat.lt_of_lt_of_le (Nat.lt_of_not_le hseconds) (Nat.le_add_right _ _)

/-- **A product is exact up to the longest span**, and is the longest span from there on. -/
theorem nanoseconds_satTimes (s : Span) (factor : Nat) :
    (s.satTimes factor).nanoseconds = min (s.nanoseconds * factor) longestSpan := by
  rcases s.times?_cases factor with ⟨product, hproduct, hexact⟩ | ⟨hnone, hlong⟩
  · rw [satTimes, hproduct, Option.getD_some, ← hexact]
    exact (Nat.min_eq_left product.nanoseconds_le_longestSpan).symm
  · rw [satTimes, hnone, Option.getD_none, nanoseconds_longest]
    exact (Nat.min_eq_right (Nat.le_of_lt hlong)).symm

end Span

end CommitteeConsensus
