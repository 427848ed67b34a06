import CommitteeConsensus.ElectionTimer

/-!
# An election timer on its own

A timer bench is an election timer with a clock.  Whoever drives it arms the timer,
disarms it, puts a new one in its place, or lets time pass, and sees what fires.  A
timer that is due fires before anything else is done, so after each use of the bench
nothing is overdue.
-/

namespace CommitteeConsensus.Simulation

/-- A timer and the time. -/
structure TimerBench where
  timer : ElectionTimer Unit
  now : Nanoseconds

/-- What is done on a timer bench. -/
inductive TimerUse where
  /-- The timer is armed for a view. -/
  | arm (view : View)
  | disarm
  /-- A new timer takes the place of the old one. -/
  | replace (base : Nanoseconds)
  /-- Time passes. -/
  | wait (span : Nanoseconds)
  deriving DecidableEq

namespace TimerBench

/-- A timer that was not armed, at the beginning of time. -/
def fresh (base : Nanoseconds) : TimerBench := ⟨.idle base, 0⟩

/-- The bench after a use, with what is due still to fire. -/
def apply (b : TimerBench) : TimerUse → TimerBench
  | .arm view => { b with timer := b.timer.arm b.now view () }
  | .disarm => { b with timer := b.timer.disarm }
  | .replace base => { b with timer := .idle base }
  | .wait span => { b with now := b.now + span }

/-- Uses the bench, and lets the timer fire if it is due. -/
def use (b : TimerBench) (action : TimerUse) : TimerBench × Option (Armed Unit) :=
  let after := b.apply action
  let (timer, fired) := after.timer.fireBy after.now
  ({ after with timer }, fired)

/-- Uses the bench several times, and lists what fired. -/
def useAll (b : TimerBench) : List TimerUse → TimerBench × List (Armed Unit)
  | [] => (b, [])
  | action :: actions =>
    let (next, fired) := b.use action
    let (last, later) := useAll next actions
    (last, fired.toList ++ later)

end TimerBench

end CommitteeConsensus.Simulation
