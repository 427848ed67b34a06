import CommitteeConsensus.Controller.Inputs

/-!
# The life of a controller

A session is a controller together with what it set going: the tasks that the host
works on, and the late events that came in and were not handled yet.  Everything
that can happen to a running member is a `Happening`, and `Session.step` says what
it comes to.  The order in which things happen is not decided here.  A statement
about every order is a statement about every list of happenings.

A session ends when it is shut down, when its inputs are closed, or when an activity
of its controller stops.  What it set going is cancelled then.
-/

namespace CommitteeConsensus

/-- A controller and what it set going. -/
structure Session where
  controller : Controller
  /-- The tasks that are under way and not cancelled, in the order of their start. -/
  tasks : List Task
  /-- The events that were not handled yet, in the order of their arrival. -/
  events : List LateEvent

/-- How a session ended. -/
inductive Ending where
  /-- It was told to. -/
  | shutDown
  /-- It could not go on. -/
  | stopped (reason : Stop)
  deriving DecidableEq

/-- What one turn of a session came to. -/
structure Turn where
  session : Session
  /-- What was done to the world, in order. -/
  effects : List Effect
  ending : Option Ending

/-- Something that happens to a running member. -/
inductive Happening where
  /-- The host starts consensus at a height. -/
  | start (height : Height)
  /-- The host gives an input. -/
  | input (input : Input)
  /-- The election timer fires. -/
  | timer
  /-- The host comes back with an answer to a task. -/
  | answer (number : Nat) (answer : Answer)
  /-- The first of the waiting events is handled. -/
  | attend
  /-- There will be no more inputs. -/
  | inputsClosed
  /-- The host shuts consensus down. -/
  | shutdown

/-- The task that an effect starts. -/
def Effect.task? : Effect → Option Task
  | .launch task => some task
  | _ => none

/-- The error of a member whose inputs were closed. -/
def inputsClosed : HostError := .internalNetwork "Consensus inputs should never be closed"

namespace Session

/-- A controller that has set nothing going. -/
def fresh (controller : Controller) : Session := ⟨controller, [], []⟩

/-- Takes over what an activity of the controller came to.  The tasks it started are
under way, and those it has no use for any more are cancelled. -/
def absorb (s : Session) (o : Outcome Unit) : Turn where
  session :=
    { s with
      controller := o.controller
      tasks := (s.tasks ++ o.effects.filterMap (·.task?)).filter o.controller.wants }
  effects := o.effects
  ending :=
    match o.result with
    | .ok () => none
    | .error reason => some (.stopped reason)

/-- Lets the controller do something. -/
def call (s : Session) (moment : Moment) (act : Activity Unit) : Turn :=
  s.absorb (act.run moment s.controller)

/-- A turn that only changes the session. -/
def silently (s : Session) : Turn := ⟨s, [], none⟩

/-- The session with everything cancelled that it set going. -/
def cancelled (s : Session) : Session :=
  ⟨{ s.controller with
      timer := s.controller.timer.disarm
      scope := ⟨s.controller.scope.number + 1, 0⟩ }, [], []⟩

/-- Ends the session. -/
def finish (s : Session) (ending : Ending) : Turn := ⟨s, [], some ending⟩

/-- The event that the armed timer brings about. -/
def timerEvent (armed : Armed Height) : LateEvent := ⟨armed.note, .electionTimeout armed.view⟩

/-- The timer fires, if it is still to fire. -/
def fireTimer (s : Session) : Session :=
  match s.controller.timer.pending? with
  | none => s
  | some armed =>
    { s with
      controller := { s.controller with timer := s.controller.timer.fired }
      events := s.events ++ [timerEvent armed] }

/-- A task ends with an answer, if it was not cancelled. -/
def conclude (s : Session) (number : Nat) (answer : Answer) : Turn :=
  match s.tasks.find? (·.number == number) with
  | none => s.silently
  | some task =>
    let (event, metrics) := task.conclude answer
    ⟨{ s with
        tasks := s.tasks.filter (·.number != number)
        events := s.events ++ [event] }, metrics.map .report, none⟩

/-- Handles the first of the waiting events. -/
def attend (s : Session) (moment : Moment) : Turn :=
  match s.events with
  | [] => s.silently
  | event :: events =>
    { s with events }.call moment (Controller.handleLate event)

/-- What a happening comes to. -/
def step (s : Session) (moment : Moment) : Happening → Turn
  | .start height => s.call moment (Controller.setHeight height)
  | .input input => s.call moment (Controller.handle input)
  | .timer => s.fireTimer.silently
  | .answer number answer => s.conclude number answer
  | .attend => s.attend moment
  | .inputsClosed => s.finish (.stopped (.failed inputsClosed))
  | .shutdown => s.finish .shutDown

end Session

end CommitteeConsensus
