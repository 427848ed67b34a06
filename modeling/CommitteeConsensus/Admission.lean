import CommitteeConsensus.Config.Basic
import CommitteeConsensus.Message.Basic
import CommitteeConsensus.Metrics

/-!
# Admission of messages by height

A member works on one height at a time, and messages come for others.  A message of
a past height, or one that claims to be the member's own, is dropped; one of the
current height passes; one of a height ahead is cached and released, in arrival
order, when its height becomes current.

The sender of a cached message is not authenticated, so the cache is bounded whatever
the messages claim: by how far ahead a height may be, by how many messages one sender
may have, and by how many there are in all.  A sender over its limit loses its own
oldest message; otherwise a cache over its limit loses the oldest message there is.

The cache is indexed two times.  By height it holds the messages themselves, each
under the number of its arrival; by sender it holds only the places of that sender's
messages, oldest first.  The first index answers a change of height, the second an
overdrawn sender, and evicting the oldest of all compares one message per height.
-/

namespace CommitteeConsensus

/-! ## Tables by ascending number -/

namespace Table

variable {β : Type}

/-- The value under a key. -/
def get? (key : Nat) : List (Nat × β) → Option β
  | [] => none
  | (k, b) :: rest => if k = key then some b else get? key rest

/-- The table with `f` applied to what is under a key, in a table kept by ascending
key.  A value that becomes `none` leaves the table together with its key. -/
def alter (key : Nat) (f : Option β → Option β) : List (Nat × β) → List (Nat × β)
  | [] => match f none with
    | none => []
    | some b => [(key, b)]
  | (k, b) :: rest =>
    if k < key then (k, b) :: alter key f rest
    else if k = key then
      match f (some b) with
      | none => rest
      | some c => (k, c) :: rest
    else
      match f none with
      | none => (k, b) :: rest
      | some c => (key, c) :: (k, b) :: rest

end Table

/-! ## The filter -/

/-- The arrival number of a cached message. -/
abbrev Arrival := Nat

/-- The state of the filter of one member. -/
structure Admission where
  me : MemberId
  /-- The height that passes. -/
  height : Height
  limits : Limits
  /-- The cached messages of each height, by ascending height and arrival. -/
  byHeight : List (Height × List (Arrival × Message))
  /-- Where the cached messages of each sender are, oldest first. -/
  bySender : List (MemberId × List (Height × Arrival))
  /-- The number of the next message to be cached. -/
  nextArrival : Arrival
  deriving DecidableEq

namespace Admission

/-- A filter at a height, with nothing cached. -/
def start (me : MemberId) (height : Height) (limits : Limits) : Admission :=
  ⟨me, height, limits, [], [], 0⟩

/-- How many messages are cached. -/
def cachedCount (a : Admission) : Nat := (a.byHeight.flatMap (·.2)).length

/-- The report of how many messages are cached. -/
def cachedLevel (a : Admission) : Metric := .set .cachedMessages a.cachedCount

/-- The cached message at a place. -/
def messageAt? (a : Admission) (height : Height) (arrival : Arrival) : Option Message :=
  (Table.get? height a.byHeight).bind (Table.get? arrival)

/-- Drops the entry with this arrival number; no entries at all are no value. -/
def withoutArrival (arrival : Arrival) :
    Option (List (Arrival × Message)) → Option (List (Arrival × Message))
  | none => none
  | some entries =>
    let left := entries.filter (·.1 != arrival)
    if left.isEmpty then none else some left

/-- Takes the message at a place out of the index by height. -/
def remove (a : Admission) (height : Height) (arrival : Arrival) : Admission :=
  { a with byHeight := Table.alter height (withoutArrival arrival) a.byHeight }

/-- The first arrival of a list of entries, beside their height. -/
def firstArrival (entry : Height × List (Arrival × Message)) : Option (Arrival × Height) :=
  entry.2.head?.map fun first => (first.1, entry.1)

/-- The earlier of two places. -/
def earlier (a b : Arrival × Height) : Arrival × Height :=
  if b.1 < a.1 ∨ (b.1 = a.1 ∧ b.2 < a.2) then b else a

/-- The place of the message that arrived first. -/
def oldest? (a : Admission) : Option (Arrival × Height) :=
  match a.byHeight.filterMap firstArrival with
  | [] => none
  | first :: others => some (others.foldl earlier first)

/-- Drops a place from a sender's queue; an empty queue is no value. -/
def withoutPlace (height : Height) (arrival : Arrival) :
    Option (List (Height × Arrival)) → Option (List (Height × Arrival))
  | none => none
  | some places =>
    let left := places.filter (· != (height, arrival))
    if left.isEmpty then none else some left

/-- Evicts the message that arrived first, of whatever sender. -/
def evictOldest (a : Admission) : Admission × List Metric :=
  match a.oldest? with
  | none => (a, [])
  | some (arrival, height) =>
    match a.messageAt? height arrival with
    | none => (a.remove height arrival, [])
    | some message =>
      let left := a.remove height arrival
      ({ left with
          bySender := Table.alter message.sender (withoutPlace height arrival) left.bySender },
        [.dropped .cacheFull])

/-- Caches a message of a height ahead, and evicts one if that was one too many. -/
def hold (a : Admission) (message : Message) : Except Fault (Admission × List Metric) :=
  let arrival := a.nextArrival
  let queue := (Table.get? message.sender a.bySender).getD [] ++ [(message.height, arrival)]
  let held : Admission :=
    { a with
      nextArrival := arrival + 1
      byHeight := Table.alter message.height
        (fun entries => some (entries.getD [] ++ [(arrival, message)])) a.byHeight
      bySender := Table.alter message.sender (fun _ => some queue) a.bySender }
  if a.limits.perSender < queue.length then
    match queue with
    | [] => .error .nothingToEvict
    | (height, first) :: left =>
      let evicted : Admission :=
        { held with
          bySender := Table.alter message.sender (fun _ => some left) held.bySender }
      let kept := evicted.remove height first
      .ok (kept, [.dropped .senderLimit, kept.cachedLevel])
  else if a.limits.total < held.cachedCount then
    let (kept, metrics) := held.evictOldest
    .ok (kept, metrics ++ [kept.cachedLevel])
  else .ok (held, [held.cachedLevel])

/-- What the filter says to a message. -/
structure Answer where
  admission : Admission
  /-- The message, if it belongs to the current height. -/
  passed : Option Message
  metrics : List Metric
  deriving DecidableEq

/-- Takes a message in: it passes, is cached, or is dropped. -/
def offer (a : Admission) (message : Message) : Except Fault Answer :=
  if message.sender = a.me then .ok ⟨a, none, [.dropped .ownMessage]⟩
  else if message.height < a.height then .ok ⟨a, none, [.dropped .pastHeight]⟩
  else if message.height = a.height then .ok ⟨a, some message, []⟩
  else if satAdd a.height a.limits.heightsAhead < message.height then
    .ok ⟨a, none, [.dropped .tooFarAhead]⟩
  else do
    let (held, metrics) ← a.hold message
    .ok ⟨held, none, metrics⟩

/-- The filter after the messages of heights up to `height` left the cache. -/
def moved (a : Admission) (height : Height) : Admission :=
  { a with
    height
    byHeight := a.byHeight.filter (height < ·.1)
    bySender := a.bySender.filterMap fun (sender, places) =>
      let left := places.filter (height < ·.1)
      if left.isEmpty then none else some (sender, left) }

/-- What a change of height sets free. -/
structure Release where
  admission : Admission
  /-- The cached messages of the new height, in arrival order. -/
  released : List Message
  metrics : List Metric
  deriving DecidableEq

/-- Moves to a height: its cached messages are released, those of lower heights are
dropped.  The height must not be lower than the current one, and must not be the
largest, whose cached messages could not be told from those above it. -/
def setHeight (a : Admission) (height : Height) : Except Fault Release :=
  if height < a.height then .error (.heightDecreasing a.height height)
  else do
    let _ ← nextHeight height
    let next := a.moved height
    .ok ⟨next, ((Table.get? height a.byHeight).getD []).map (·.2), [next.cachedLevel]⟩

end Admission

end CommitteeConsensus
