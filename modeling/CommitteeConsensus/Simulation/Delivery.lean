import CommitteeConsensus.Simulation.World

/-!
# Driving a simulated world

Messages are given on from the inboxes.  `World.deliver` gives on several messages of
one inbox together.  `World.pump` gives on what there is in rounds, one message for
each member in a round, and the world comes to rest after each.  A member that has
ended takes no notice of what it is given.

A world may also be driven before it comes to rest for the first time.  Its members
are then about to start, and what one of them is given waits until it has started,
but not until others have.
-/

namespace CommitteeConsensus.Simulation

/-- The elements that a list, latest first, has got since it was `before`, in order. -/
def newest {α : Type} (before after : List α) : List α :=
  (after.take (after.length - before.length)).reverse

namespace World

/-- A world in which members are about to start at a height. -/
def starting (members : List Member) (height : Height) : World :=
  { fresh members with jobs := members.map fun m => (m.id, .take (.start height)) }

/-- Has something happen to a member, right behind what that member is about to do. -/
def bring (w : World) (id : MemberId) (happening : Happening) : World :=
  let (others, own) := w.jobs.reverse.span (·.1 != id)
  { w with jobs := own.reverse ++ (id, .take happening) :: others.reverse }

/-- Lets something happen to a member, and the world come to rest. -/
def give (w : World) (id : MemberId) (happening : Happening) : World :=
  (w.bring id happening).rest

/-- Lets the controller of a member do something, and says how that ended. -/
def command (w : World) (id : MemberId) (act : Activity Unit) : World × Option Ending :=
  match w.member? id with
  | none => (w, none)
  | some m =>
    let turn := m.session.call (m.host.moment w.now) act
    ((w.takeTurn m turn).rest, turn.ending)

/-- Takes messages out of the inbox of a member, at most so many. -/
def takeMail (w : World) (count : Nat) (id : MemberId) : List Message × World :=
  match w.member? id with
  | none => ([], w)
  | some m => (m.inbox.take count, w.adapt id fun m => { m with inbox := m.inbox.drop count })

/-- Hands messages to a member, and lets the world come to rest.  The member handles
all of them before anything is done that they set going. -/
def handOver (w : World) (id : MemberId) (messages : List Message) : World :=
  (messages.foldl (fun w message => w.bring id (.input (.message message))) w).rest

/-- Gives on messages of one inbox together, at most so many. -/
def deliver (w : World) (count : Nat) (id : MemberId) : World :=
  let (messages, w) := w.takeMail count id
  w.handOver id messages

/-- Gives on the first message of an inbox, if there is one. -/
def deliver? (w : World) (id : MemberId) : Option World :=
  match w.takeMail 1 id with
  | ([], _) => none
  | (messages, w) => some (w.handOver id messages)

/-- Loses messages of one inbox, at most so many. -/
def lose (w : World) (count : Nat) (id : MemberId) : World := (w.takeMail count id).2

/-- One round: each of the members is given a message, as long as any may be given.
The number that may be given after the round comes back. -/
def pumpRound : List MemberId → Nat → World → Nat × World
  | [], left, w => (left, w)
  | _ :: _, 0, w => (0, w)
  | id :: ids, left + 1, w =>
    match w.deliver? id with
    | none => pumpRound ids (left + 1) w
    | some w => pumpRound ids left w

/-- Rounds until one gives nothing.  The first argument bounds their number. -/
def pumpRounds (ids : List MemberId) : Nat → Nat → World → Nat × World
  | 0, left, w => (left, w)
  | rounds + 1, left, w =>
    let (after, w) := pumpRound ids left w
    if after = left then (left, w) else pumpRounds ids rounds after w

/-- Gives on messages in rounds over the members by ascending id, at most so many,
and says how many there were. -/
def pump (w : World) (limit : Nat) : Nat × World :=
  let ids := (w.members.map (·.id)).mergeSort (· ≤ ·)
  let (left, w) := pumpRounds ids limit limit w
  (limit - left, w)

/-- The world with another behaviour of a host. -/
def behave (w : World) (id : MemberId) (f : Behaviour → Behaviour) : World :=
  w.adapt id fun m => { m with host := { m.host with behaviour := f m.host.behaviour } }

/-- From now on a host rejects a block. -/
def reject (w : World) (id : MemberId) (hash : BlockHash) : World :=
  w.adapt id fun m => { m with host := { m.host with rejected := hash :: m.host.rejected } }

/-- From now on the messages of a member are lost. -/
def silence (w : World) (id : MemberId) : World :=
  { w with network := { w.network with silenced := id :: w.network.silenced } }

/-- From now on nothing reaches a member. -/
def block (w : World) (id : MemberId) : World :=
  { w with network := { w.network with blocked := id :: w.network.blocked } }

/-- The world with other messages kept by a member. -/
def keepLog (w : World) (id : MemberId) (log : MessageLog) : World :=
  w.adapt id fun m =>
    { m with session := { m.session with controller := m.session.controller.withLog log } }

end World

end CommitteeConsensus.Simulation
