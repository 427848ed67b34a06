import CommitteeConsensus.Rounding
import CommitteeConsensus.Word

/-!
# Metrics

Consensus counts what happens to it and shows a few levels.  A handler does not
touch a recorder: it reports `Metric`s in order beside its other results, and a
`Recorder`, which is the host's, adds them up.  A counter or gauge that was never
reported is absent from the recorder rather than zero there.
-/

namespace CommitteeConsensus

/-- Why an incoming message was dropped. -/
inductive DropReason where
  | pastHeight
  | ownMessage
  | tooFarAhead
  | senderLimit
  | cacheFull
  | staleView
  | invalid
  | duplicate
  deriving DecidableEq, Repr

namespace DropReason

/-- Every reason, in the order in which they are listed. -/
def all : List DropReason :=
  [.pastHeight, .ownMessage, .tooFarAhead, .senderLimit, .cacheFull, .staleView, .invalid,
    .duplicate]

/-- The label value of a reason. -/
def label : DropReason → String
  | .pastHeight => "past_height"
  | .ownMessage => "own_message"
  | .tooFarAhead => "too_far_ahead"
  | .senderLimit => "sender_limit"
  | .cacheFull => "cache_full"
  | .staleView => "stale_view"
  | .invalid => "invalid"
  | .duplicate => "duplicate"

/-- The name of the label that tells reasons apart. -/
def labelName : String := "drop_reason"

end DropReason

/-- A level that is set to its latest value. -/
inductive Gauge where
  | height
  | view
  | cachedMessages
  deriving DecidableEq, Repr

namespace Gauge

/-- Every gauge. -/
def all : List Gauge := [.height, .view, .cachedMessages]

/-- The name of a gauge. -/
def name : Gauge → String
  | .height => "height"
  | .view => "view"
  | .cachedMessages => "cached_messages"

/-- What a gauge shows. -/
def description : Gauge → String
  | .height => "The block height consensus is working to decide"
  | .view => "The view of the active term"
  | .cachedMessages => "How many messages of future heights are cached"

end Gauge

/-- A number of events. -/
inductive Counter where
  | decisionsByConsensus
  | decisionsBySync
  | viewChanges
  | newViewsSent
  | electionTimeouts
  | proposalsFailed
  | proposalsInvalid
  | dropped (reason : DropReason)
  deriving DecidableEq, Repr

namespace Counter

/-- Every counter, the dropped messages under each of their reasons. -/
def all : List Counter :=
  [.decisionsByConsensus, .decisionsBySync, .viewChanges, .newViewsSent, .electionTimeouts,
    .proposalsFailed, .proposalsInvalid] ++ DropReason.all.map .dropped

/-- The name of a counter, without the label that splits it. -/
def name : Counter → String
  | .decisionsByConsensus => "decisions_reached_by_consensus"
  | .decisionsBySync => "decisions_reached_by_sync"
  | .viewChanges => "view_changes"
  | .newViewsSent => "new_views_sent"
  | .electionTimeouts => "election_timeouts"
  | .proposalsFailed => "proposals_failed"
  | .proposalsInvalid => "proposals_invalid"
  | .dropped _ => "dropped_messages"

/-- The label value that splits a counter, if one does. -/
def label? : Counter → Option String
  | .dropped reason => some reason.label
  | _ => none

/-- The name of a counter, with its label value if it has one. -/
def fullName (c : Counter) : String :=
  match c.label? with
  | some label => c.name ++ ":" ++ label
  | none => c.name

/-- What a counter counts. -/
def description : Counter → String
  | .decisionsByConsensus => "The total number of decisions reached by way of consensus"
  | .decisionsBySync => "The total number of decisions reached by way of sync"
  | .viewChanges => "The number of times a term moved to a new view"
  | .newViewsSent => "The number of NewView messages sent as the leader of a new view"
  | .electionTimeouts => "The number of times the election timer fired"
  | .proposalsFailed => "The number of block proposal requests which failed or timed out"
  | .proposalsInvalid => "The number of proposed blocks which failed validation"
  | .dropped _ => "The number of incoming consensus messages which were dropped"

end Counter

/-- One report: a gauge takes a value, or a counter grows. -/
inductive Metric where
  | set (gauge : Gauge) (value : Nat)
  | count (counter : Counter) (amount : Nat)
  deriving DecidableEq, Repr

/-- The report that a message was dropped. -/
def Metric.dropped (reason : DropReason) : Metric := .count (.dropped reason) 1

/-! ## Recorders -/

/-- What a host has recorded: the counters and gauges touched so far, and the
descriptions registered. -/
structure Recorder where
  counters : List (Counter × Nat)
  gauges : List (Gauge × Nat)
  descriptions : List (String × String)
  deriving DecidableEq

namespace Recorder

/-- The recorder that nothing was reported to. -/
def empty : Recorder := ⟨[], [], []⟩

/-- Changes the value under a key; a key that is missing counts as `absent`. -/
def updateAt {κ : Type} [DecidableEq κ] (key : κ) (absent : Nat) (f : Nat → Nat) :
    List (κ × Nat) → List (κ × Nat)
  | [] => [(key, f absent)]
  | (k, n) :: rest => if k = key then (k, f n) :: rest else (k, n) :: updateAt key absent f rest

/-- Takes a report in.  A counter goes round at the width of its word, and a gauge
is a double. -/
def record (r : Recorder) : Metric → Recorder
  | .set gauge value =>
    { r with gauges := updateAt gauge 0 (fun _ => nearestDouble value) r.gauges }
  | .count counter amount =>
    { r with counters := updateAt counter 0 (fun n => (n + amount) % (maxWord + 1)) r.counters }

/-- Takes reports in, in order. -/
def recordAll (r : Recorder) (metrics : List Metric) : Recorder := metrics.foldl record r

/-- Describes a metric; the latest description of a name counts. -/
def describe (r : Recorder) (name text : String) : Recorder :=
  { r with descriptions := (name, text) :: r.descriptions.filter (·.1 != name) }

/-- Makes a gauge known: it is zero and has its description. -/
def registerGauge (r : Recorder) (gauge : Gauge) : Recorder :=
  (r.record (.set gauge 0)).describe gauge.name gauge.description

/-- Makes a counter known: it is at least zero and has its description. -/
def registerCounter (r : Recorder) (counter : Counter) : Recorder :=
  { r with counters := updateAt counter 0 id r.counters }.describe counter.name
    counter.description

/-- Makes every metric of consensus known. -/
def register (r : Recorder) : Recorder :=
  Counter.all.foldl registerCounter (Gauge.all.foldl registerGauge r)

/-- The value of a counter; one that was never touched is zero. -/
def counter (r : Recorder) (c : Counter) : Nat := (r.counters.lookup c).getD 0

/-- The counters that grew since an earlier state of the recorder, and by how much. -/
def growthSince (r earlier : Recorder) : List (Counter × Nat) :=
  (r.counters.map fun (c, n) => (c, n - earlier.counter c)).filter (·.2 != 0)

end Recorder

end CommitteeConsensus
