import CommitteeConsensus.Metrics
import CommitteeConsensus.Session
import CommitteeConsensus.Simulation.Behaviour

/-!
# A simulated world

A world is a clock, a network and some members, each with a session and a host.
Nothing in it is left to chance.

What can run is a list of jobs, done one after the other in the order in which they
became possible.  What waits for the clock is a list of alarms.  The clock moves only
in `World.advance`, from alarm to alarm; alarms of one instant go off in the order in
which they were set, and everything that can run runs before the clock moves on.

A message on the network goes to the inbox of its recipient and stays there until it
is given on.  So whoever drives the world decides in which order members hear of what.

A member may be attended or not.  At an attended one every late event is handled as
soon as its turn comes.  At an unattended one they are never handled: its controller
does what it is called for, and nothing else.
-/

namespace CommitteeConsensus.Simulation

/-! ## The network -/

/-- A message as the network saw it. -/
structure Sent where
  sender : MemberId
  kind : MessageKind
  height : Height
  deriving DecidableEq

/-- Who is heard by whom, and what was sent. -/
structure Network where
  /-- The members whose messages are lost, as if they had not been sent. -/
  silenced : List MemberId
  /-- The members that nothing reaches. -/
  blocked : List MemberId
  /-- What was sent, the latest first. -/
  sent : List Sent

/-- A network on which everyone hears everyone. -/
def Network.unhindered : Network := ⟨[], [], []⟩

/-- How many messages of a kind a member sent at a height. -/
def Network.count (n : Network) (sender : MemberId) (kind : MessageKind) (height : Height) : Nat :=
  (n.sent.filter (· == ⟨sender, kind, height⟩)).length

/-! ## Members -/

/-- One member of the world. -/
structure Member where
  id : MemberId
  session : Session
  host : Host
  /-- Whether late events are handled. -/
  attended : Bool
  ending : Option Ending
  /-- The messages that came and were not given on, in the order of their coming. -/
  inbox : List Message
  /-- The calls that the host saw, each with its time, the latest first. -/
  calls : List (Nanoseconds × Call)
  /-- What was committed, the latest first. -/
  commits : List Decision

/-- A member with an empty inbox whose host saw nothing. -/
def Member.fresh (config : Config) (rule : SeedRule) (host : Host) (attended : Bool) : Member where
  id := host.me
  session := .fresh (.initial config (capabilities rule host.me))
  host := host
  attended := attended
  ending := none
  inbox := []
  calls := []
  commits := []

/-- The member with its election timer, if it is still to fire. -/
def Member.alarm? (m : Member) : Option (Armed Height) := m.session.controller.timer.pending?

/-! ## The world -/

/-- Something that a member can do now. -/
inductive Job where
  /-- Take what happens to it. -/
  | take (happening : Happening)
  /-- Handle the late events. -/
  | attend
  /-- Set an alarm for the election timer. -/
  | watch (armed : Armed Height)
  /-- Let the election timer fire. -/
  | fire (armed : Armed Height)
  /-- Start the work of a task. -/
  | work (task : Task)
  /-- End the work of a task. -/
  | conclude (task : Task) (outlook : Outlook)

/-- A job of a member, for an instant to come. -/
structure Alarm where
  due : Nanoseconds
  member : MemberId
  job : Job

/-- A clock, a network and some members. -/
structure World where
  now : Nanoseconds
  members : List Member
  network : Network
  recorder : Recorder
  /-- What can run, in order. -/
  jobs : List (MemberId × Job)
  /-- What waits for the clock, in the order in which it was set. -/
  alarms : List Alarm

namespace World

/-- A world in which nothing has happened. -/
def fresh (members : List Member) : World := ⟨0, members, .unhindered, .empty, [], []⟩

/-- A member of the world. -/
def member? (w : World) (id : MemberId) : Option Member := w.members.find? (·.id == id)

/-- Changes a member. -/
def adapt (w : World) (id : MemberId) (f : Member → Member) : World :=
  { w with members := w.members.map fun m => if m.id = id then f m else m }

/-- Makes jobs of a member possible. -/
def enqueue (w : World) (id : MemberId) (jobs : List Job) : World :=
  { w with jobs := w.jobs ++ jobs.map (id, ·) }

/-- Sets an alarm. -/
def setAlarm (w : World) (due : Nanoseconds) (id : MemberId) (job : Job) : World :=
  { w with alarms := w.alarms ++ [⟨due, id, job⟩] }

/-- Notes that the host of a member was called. -/
def noteCall (w : World) (id : MemberId) (call : Call) : World :=
  w.adapt id fun m => { m with calls := (w.now, call) :: m.calls }

/-- Puts a message into the inboxes of its recipients. -/
def transmit (w : World) (sender : MemberId) (recipients : List MemberId) (message : Message) :
    World :=
  if w.network.silenced.contains sender then w
  else
    let record : Sent := ⟨sender, message.kind, message.height⟩
    let reached := recipients.filter (!w.network.blocked.contains ·)
    reached.foldl (fun w id => w.adapt id fun m => { m with inbox := m.inbox ++ [message] })
      { w with network := { w.network with sent := record :: w.network.sent } }

/-- Does to the world what a member did. -/
def applyEffect (id : MemberId) (w : World) : Effect → World
  | .askCommittee height seed => w.noteCall id (.committee height seed)
  | .send recipients message =>
    let w := w.noteCall id (.send recipients message)
    if (w.member? id).any (·.host.behaviour.sendFails) then w
    else w.transmit id recipients message
  | .commit decision => w.adapt id fun m => { m with commits := decision :: m.commits }
  | .launch task => w.enqueue id [.work task]
  | .report metric => { w with recorder := w.recorder.record metric }

/-- The job of an attended member that has late events. -/
def attendJobs (m : Member) : List Job :=
  if m.attended && !m.session.events.isEmpty then [.attend] else []

/-- The job of a member whose timer was armed since it was `before`. -/
def watchJobs (before : Option (Armed Height)) (m : Member) : List Job :=
  match m.alarm? with
  | none => []
  | some armed => if before = some armed then [] else [.watch armed]

/-- Takes over a turn of a member. -/
def takeTurn (w : World) (m : Member) (turn : Turn) : World :=
  let ended := m.attended && turn.ending.isSome
  let after :=
    { m with
      session := if ended then turn.session.cancelled else turn.session
      ending := if ended then turn.ending else m.ending }
  let jobs := if ended then [] else watchJobs m.alarm? after ++ attendJobs after
  turn.effects.foldl (applyEffect m.id)
    ((w.adapt m.id fun _ => after).enqueue m.id jobs)

/-- Lets something happen to a member, if it has not ended. -/
def happen (w : World) (id : MemberId) (happening : Happening) : World :=
  match w.member? id with
  | none => w
  | some m =>
    if m.ending.isSome then w
    else w.takeTurn m (m.session.step (m.host.moment w.now) happening)

/-- Handles late events of a member, at most so many. -/
def attendAll : Nat → World → MemberId → World
  | 0, w, _ => w
  | n + 1, w, id => attendAll n (w.happen id .attend) id

/-- The member's task with this number, if it was not cancelled. -/
def task? (w : World) (id : MemberId) (number : Nat) : Option (Member × Task) := do
  let m ← w.member? id
  let task ← m.session.tasks.find? (·.number == number)
  some (m, task)

/-- Starts the work of a task.  Work that takes no time ends at once. -/
def startWork (w : World) (m : Member) (task : Task) : World :=
  let timeout := timeoutOf m.session.controller.config.timeouts task.work
  let (due, outlook) := (m.host.manner task.work).plan w.now timeout
  let w := w.noteCall m.id (callOf task)
  if due ≤ w.now then w.happen m.id (.answer task.number (m.host.answer task outlook))
  else w.setAlarm due m.id (.conclude task outlook)

/-- Does a job.  A job whose timer was disarmed or whose task was cancelled has
become pointless. -/
def run (w : World) (id : MemberId) : Job → World
  | .take happening => w.happen id happening
  | .attend =>
    match w.member? id with
    | none => w
    | some m => attendAll m.session.events.length w id
  | .watch armed =>
    if (w.member? id).bind (·.alarm?) = some armed then
      if armed.due ≤ w.now then w.happen id .timer
      else w.setAlarm (w.now + waitingTime (armed.due - w.now)) id (.fire armed)
    else w
  | .fire armed =>
    if (w.member? id).bind (·.alarm?) = some armed then w.happen id .timer else w
  | .work task =>
    match w.task? id task.number with
    | none => w
    | some (m, task) => w.startWork m task
  | .conclude task outlook =>
    match w.task? id task.number with
    | none => w
    | some (m, task) => w.happen id (.answer task.number (m.host.answer task outlook))

/-- Does everything that can be done without moving the clock.  The first argument
bounds the number of jobs. -/
def settle : Nat → World → World
  | 0, w => w
  | fuel + 1, w =>
    match w.jobs with
    | [] => w
    | (id, job) :: jobs => settle fuel ({ w with jobs }.run id job)

/-- How many jobs are done before a world is given up that does not come to rest. -/
def patience : Nat := 1000000

/-- Does everything that can be done without moving the clock. -/
def rest (w : World) : World := w.settle patience

/-- The instant of the next alarm. -/
def nextDue? (w : World) : Option Nanoseconds := (w.alarms.map (·.due)).min?

/-- Moves the clock, and lets the alarms of the new instant go off. -/
def moveTo (w : World) (instant : Nanoseconds) : World :=
  let due := w.alarms.filter (·.due ≤ instant)
  { w with
    now := instant
    alarms := w.alarms.filter (instant < ·.due)
    jobs := w.jobs ++ due.map fun a => (a.member, a.job) }

/-- Moves the clock to an instant, from alarm to alarm.  The first argument bounds
the number of alarms; each is later than the one before. -/
def advanceTo (instant : Nanoseconds) : Nat → World → World
  | 0, w => { w with now := instant }
  | fuel + 1, w =>
    match w.nextDue? with
    | none => { w with now := instant }
    | some due =>
      if due ≤ instant then advanceTo instant fuel (w.moveTo due).rest
      else { w with now := instant }

/-- Lets a span of time pass. -/
def advance (w : World) (span : Nanoseconds) : World :=
  advanceTo (w.now + span) (span + 1) w.rest

end World

end CommitteeConsensus.Simulation
