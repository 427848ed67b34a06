import CommitteeConsensus.ElectionTimer
import Mathlib.Algebra.Order.Ring.Nat

/-!
# The timeouts of the views back off

The election timeout is computed in numbers of a given width, and stops at a largest number in
three places: the view that is an exponent, the power of two, and the seconds of the product,
with and without what is carried to them.  The true numbers stop at the same points.

* A power by squaring is given up only where the power itself is too large: no number on the way
  is larger, as the last square is not taken any more once the exponent is used up
  (`timesPow?_eq`).
* A view is cut off where its power is too large in any case (`min_two_pow_min`).
* The product is exact up to the longest span (`Span.nanoseconds_satTimes`).

So in nanoseconds the timeout is the smaller of a product and the longest span
(`Span.nanoseconds_backedOff`, `electionTimeout_eq`).
-/

namespace CommitteeConsensus

/-! ## Powers of 32 bits -/

/-- To give up at a number on the way makes no difference if the result is no smaller. -/
theorem within?_bind {limit step result : Nat} {rest : Nat → Option Nat} (le : step ≤ result)
    (h : step ≤ limit → rest step = within? limit result) :
    (within? limit step).bind rest = within? limit result := by
  by_cases hlarge : limit < step
  · rw [within?_eq_none.2 hlarge, within?_eq_none.2 (Nat.lt_of_lt_of_le hlarge le)]
    rfl
  · have hstep := Nat.le_of_not_lt hlarge
    rw [within?_eq_some.2 ⟨hstep, rfl⟩]
    exact h hstep

/-- **A power by squaring is given up exactly if it is too large.** -/
theorem timesPow?_eq {digits factor base exponent : Nat} (factor_pos : 0 < factor)
    (fits : factor ≤ maxFactor) (base_pos : 0 < base) (short : exponent < 2 ^ digits) :
    timesPow? digits factor base exponent = within? maxFactor (factor * base ^ exponent) := by
  induction digits generalizing factor base exponent with
  | zero =>
    obtain rfl : exponent = 0 := Nat.lt_one_iff.1 short
    rw [timesPow?, Nat.pow_zero, Nat.mul_one]
    exact (within?_eq_some.2 ⟨fits, rfl⟩).symm
  | succ digits ih =>
    -- the last digit goes into the factor, and the others are the exponent of the square
    have hsplit : factor * base ^ exponent =
        factor * base ^ (exponent % 2) * (base * base) ^ (exponent / 2) := by
      rw [← Nat.pow_two, ← Nat.pow_mul, Nat.mul_assoc, ← Nat.pow_add, Nat.mod_add_div]
    have hdigit : (if exponent % 2 = 1 then factor * base else factor) =
        factor * base ^ (exponent % 2) := by
      rcases Nat.mod_two_eq_zero_or_one exponent with heven | hodd
      · rw [heven, if_neg (by decide), Nat.pow_zero, Nat.mul_one]
      · rw [hodd, if_pos rfl, Nat.pow_one]
    have hfactor_pos : 0 < factor * base ^ (exponent % 2) :=
      Nat.mul_pos factor_pos (Nat.pow_pos base_pos)
    have hsquare_pos : 0 < base * base := Nat.mul_pos base_pos base_pos
    rw [timesPow?, hdigit, hsplit]
    refine within?_bind (Nat.le_mul_of_pos_right _ (Nat.pow_pos hsquare_pos)) fun hfactor => ?_
    by_cases hlast : exponent ≤ 1
    · have hnone : exponent / 2 = 0 := by omega
      rw [if_pos hlast, hnone, Nat.pow_zero, Nat.mul_one]
      exact (within?_eq_some.2 ⟨hfactor, rfl⟩).symm
    · rw [if_neg hlast]
      have hpower : base * base ≤ (base * base) ^ (exponent / 2) := Nat.le_self_pow (by omega) _
      exact within?_bind (Nat.le_trans hpower (Nat.le_mul_of_pos_left _ hfactor_pos)) fun _ =>
        ih hfactor_pos hfactor hsquare_pos (by omega)

theorem satPow_eq {base exponent : Nat} (base_pos : 0 < base) (short : exponent < 2 ^ 32) :
    satPow base exponent = min (base ^ exponent) maxFactor := by
  rw [satPow, timesPow?_eq Nat.one_pos (by decide) base_pos short, Nat.one_mul, getD_within?]

/-! ## The factor of a view -/

/-- Up to a limit, a power of two is that of an exponent up to this limit. -/
theorem min_two_pow_min (exponent limit : Nat) :
    min (2 ^ min exponent limit) limit = min (2 ^ exponent) limit := by
  rcases Nat.le_total exponent limit with hle | hge
  · rw [Nat.min_eq_left hle]
  · have hlimit : limit < 2 ^ limit := Nat.lt_two_pow_self
    have hexponent : exponent < 2 ^ exponent := Nat.lt_two_pow_self
    rw [Nat.min_eq_right hge]
    omega

theorem backoff_eq (view : View) : backoff view = min (2 ^ view) maxFactor := by
  have hshort : min view maxFactor < 2 ^ 32 := Nat.lt_of_le_of_lt (Nat.min_le_right _ _) (by decide)
  rw [backoff, getD_within?, satPow_eq (by decide) hshort, min_two_pow_min]

theorem backoff_le_maxFactor (view : View) : backoff view ≤ maxFactor := by
  rw [backoff_eq]
  exact Nat.min_le_right _ _

theorem backoff_pos (view : View) : 0 < backoff view := by
  have hpower := Nat.two_pow_pos view
  rw [backoff_eq, maxFactor]
  omega

theorem backoff_mono {view later : View} (h : view ≤ later) : backoff view ≤ backoff later := by
  rw [backoff_eq, backoff_eq]
  exact min_le_min_right _ (Nat.pow_le_pow_right (by decide) h)

/-- Up to view `31` the factor doubles. -/
theorem backoff_succ {view : View} (h : view < 31) : backoff (view + 1) = 2 * backoff view := by
  have hpower : 2 ^ view ≤ 2 ^ 30 := Nat.pow_le_pow_right (by decide) (Nat.le_of_lt_succ h)
  rw [backoff_eq, backoff_eq, Nat.pow_succ, maxFactor]
  omega

/-! ## The timeout of a view -/

theorem Span.nanoseconds_backedOff (base : Span) (view : View) :
    (base.backedOff view).nanoseconds = min (base.nanoseconds * backoff view) longestSpan :=
  Span.nanoseconds_satTimes _ _

/-- The same in nanoseconds, also for a base timeout longer than the longest span. -/
theorem electionTimeout_eq (base : Nanoseconds) (view : View) :
    electionTimeout base view = min (base * backoff view) longestSpan := by
  have hpos := backoff_pos view
  rw [electionTimeout, Span.nanoseconds_backedOff, Span.nanoseconds_ofNanoseconds]
  rcases Nat.le_total base longestSpan with hle | hge
  · rw [Nat.min_eq_left hle]
  · have hproduct : longestSpan ≤ base * backoff view :=
      Nat.le_trans hge (Nat.le_mul_of_pos_right _ hpos)
    rw [Nat.min_eq_right hge, Nat.min_eq_right hproduct,
      Nat.min_eq_right (Nat.le_mul_of_pos_right _ hpos)]

namespace Span

/-- The nanoseconds beyond the seconds are multiplied in a word. -/
theorem beyond_mul_backoff_le (base : Span) (view : View) :
    base.beyond * backoff view ≤ maxWord := by
  calc base.beyond * backoff view
      ≤ secondNanoseconds * maxFactor :=
        Nat.mul_le_mul (Nat.le_of_lt base.beyond_lt) (backoff_le_maxFactor view)
    _ ≤ maxWord := by decide

/-- **The back-off is exact, monotone and never overflows.**  For any base timeout and any view:

* The timeout is the base timeout times a power of two, where the power stops at the largest
  32-bit number and the product at the longest span.  The nanoseconds that are carried from fit a
  word.
* A later view or a longer base timeout does not have a shorter timeout.
* Up to view `31` the timeout doubles, unless the double is longer than the longest span.
* If the base timeout is not zero, no timeout is. -/
theorem backedOff_exact (base : Span) (view : View) :
    (electionTimeout base.nanoseconds view = (base.backedOff view).nanoseconds ∧
      (base.backedOff view).nanoseconds =
        min (base.nanoseconds * min (2 ^ view) (2 ^ 32 - 1)) longestSpan ∧
      base.beyond * backoff view ≤ maxWord) ∧
    (∀ (longer : Span) (later : View), base.nanoseconds ≤ longer.nanoseconds → view ≤ later →
      (base.backedOff view).nanoseconds ≤ (longer.backedOff later).nanoseconds) ∧
    (view < 31 → (base.backedOff (view + 1)).nanoseconds =
      min (2 * (base.backedOff view).nanoseconds) longestSpan) ∧
    (0 < base.nanoseconds → 0 < (base.backedOff view).nanoseconds) := by
  refine ⟨⟨?_, ?_, base.beyond_mul_backoff_le view⟩, fun longer later hlonger hlater => ?_,
    fun hbelow => ?_, fun hpos => ?_⟩
  · rw [electionTimeout, ofNanoseconds_nanoseconds]
  · rw [nanoseconds_backedOff, backoff_eq]
    rfl
  · rw [nanoseconds_backedOff, nanoseconds_backedOff]
    exact min_le_min_right _ (Nat.mul_le_mul hlonger (backoff_mono hlater))
  · have hdouble : base.nanoseconds * backoff (view + 1) =
        2 * (base.nanoseconds * backoff view) := by
      rw [backoff_succ hbelow, Nat.mul_left_comm]
    have hstop : ∀ product limit : Nat,
        min (2 * product) limit = min (2 * min product limit) limit := by omega
    rw [nanoseconds_backedOff, nanoseconds_backedOff, hdouble]
    exact hstop _ _
  · have hproduct := Nat.mul_pos hpos (backoff_pos view)
    rw [nanoseconds_backedOff]
    exact Nat.lt_min.2 ⟨hproduct, by decide⟩

/-- A nanosecond less than `2 ^ 62` seconds. -/
def brink : Span := .ofNanoseconds (2 ^ 62 * secondNanoseconds - 1)

/-- In view `2` the carry fills the word of the seconds, and three nanoseconds are missing to the
longest span.  In view `3` it is the longest span. -/
theorem backedOff_exact_brink :
    (brink.backedOff 2 = ⟨maxWord, 999999996, by decide, by decide⟩ ∧
        brink.backedOff 3 = longest) ∧
      electionTimeout brink.nanoseconds 2 =
        min (brink.nanoseconds * min (2 ^ 2) (2 ^ 32 - 1)) longestSpan ∧
      (brink.nanoseconds ≤ longest.nanoseconds ∧
        (brink.backedOff 2).nanoseconds ≤ (longest.backedOff 64).nanoseconds) ∧
      (2 < 31 ∧ (brink.backedOff 3).nanoseconds =
        min (2 * (brink.backedOff 2).nanoseconds) longestSpan) ∧
      0 < brink.nanoseconds ∧ 0 < (brink.backedOff 2).nanoseconds := by
  obtain ⟨⟨hsame, hexact, -⟩, hmono, hdouble, hpos⟩ := backedOff_exact brink 2
  have hlonger : brink.nanoseconds ≤ longest.nanoseconds := by decide
  have hbase : 0 < brink.nanoseconds := by decide
  exact ⟨⟨by decide, by decide⟩, hsame.trans hexact,
    ⟨hlonger, hmono longest 64 hlonger (by decide)⟩, ⟨by decide, hdouble (by decide)⟩,
    hbase, hpos hbase⟩

end Span

/-- From view `32` on, the factor is the largest 32-bit number. -/
example : backoff 31 = 2 ^ 31 ∧ backoff 32 = maxFactor ∧ backoff maxWord = maxFactor := by decide

end CommitteeConsensus
