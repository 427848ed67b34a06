import CommitteeConsensus.Span

/-!
# The election timer

Each view has a time to decide, and each further view has twice as long.  One timer
is enough for that: it is armed for a view, fires once, and is armed anew for the
next.  Arming it for the view it is already armed for does nothing, and this holds
after it fired as well, so a view never gets a second timeout by being asked for it
twice.

Time is an input here.  The timer stores the instant at which it is due; whoever
keeps the clock says what time it is when the timer is armed, and lets it fire when
its instant has come.  A note of the caller's goes along and comes back when the
timer fires.
-/

namespace CommitteeConsensus

/-- The most base timeouts that a view has: the largest 32-bit number. -/
def maxFactor : Nat := 0xFFFFFFFF

/-- A factor times a power, by squaring.  It is given up once a number on the way exceeds the
largest factor.  The exponent has at most so many binary digits. -/
def timesPow? : (digits : Nat) → (factor base exponent : Nat) → Option Nat
  | 0, factor, _, _ => some factor
  | digits + 1, factor, base, exponent => do
    let factor ← within? maxFactor (if exponent % 2 = 1 then factor * base else factor)
    if exponent ≤ 1 then some factor
    else
      let square ← within? maxFactor (base * base)
      timesPow? digits factor square (exponent / 2)

/-- A power of a number, or the largest factor if that is exceeded. -/
def satPow (base exponent : Nat) : Nat := (timesPow? 32 1 base exponent).getD maxFactor

/-- How many base timeouts a view has.  It doubles with the view until it reaches
the largest 32-bit number.  A view above that number counts as that number. -/
def backoff (view : View) : Nat := satPow 2 ((within? maxFactor view).getD maxFactor)

/-- The election timeout of a view, for a base timeout in seconds and nanoseconds. -/
def Span.backedOff (base : Span) (view : View) : Span := base.satTimes (backoff view)

/-- The election timeout of a view. -/
def electionTimeout (base : Nanoseconds) (view : View) : Nanoseconds :=
  ((Span.ofNanoseconds base).backedOff view).nanoseconds

/-- A timer that was armed. -/
structure Armed (α : Type) where
  view : View
  /-- When it is due. -/
  due : Nanoseconds
  /-- Whether it is still to fire. -/
  pending : Bool
  /-- What its caller wants to be told when it fires. -/
  note : α
  deriving DecidableEq

/-- The timer of one member, with a note of type `α`. -/
structure ElectionTimer (α : Type) where
  /-- The election timeout of view 0. -/
  base : Nanoseconds
  armed : Option (Armed α)
  deriving DecidableEq

namespace ElectionTimer

variable {α : Type}

/-- A timer that was not armed. -/
def idle (base : Nanoseconds) : ElectionTimer α := ⟨base, none⟩

/-- The view that the timer is armed for, whether or not it fired. -/
def view? (t : ElectionTimer α) : Option View := t.armed.map (·.view)

/-- Arms the timer for a view, in place of any other view. -/
def arm (t : ElectionTimer α) (now : Nanoseconds) (view : View) (note : α) : ElectionTimer α :=
  if t.view? = some view then t
  else { t with armed := some ⟨view, now + electionTimeout t.base view, true, note⟩ }

/-- Disarms the timer. -/
def disarm (t : ElectionTimer α) : ElectionTimer α := { t with armed := none }

/-- The timer that is still to fire. -/
def pending? (t : ElectionTimer α) : Option (Armed α) := t.armed.filter (·.pending)

/-- The timer after it fired. -/
def fired (t : ElectionTimer α) : ElectionTimer α :=
  { t with armed := t.armed.map fun a => { a with pending := false } }

/-- Lets the timer fire if it is due by an instant. -/
def fireBy (t : ElectionTimer α) (instant : Nanoseconds) : ElectionTimer α × Option (Armed α) :=
  match t.pending? with
  | none => (t, none)
  | some a => if a.due ≤ instant then (t.fired, some a) else (t, none)

/-! ## What the operations leave behind -/

theorem arm_of_view? {t : ElectionTimer α} {view : View} (h : t.view? = some view)
    (now : Nanoseconds) (note : α) : t.arm now view note = t := by
  simp [arm, h]

@[simp] theorem view?_disarm (t : ElectionTimer α) : t.disarm.view? = none := rfl

end ElectionTimer

end CommitteeConsensus
