import CommitteeConsensus.Certificate
import CommitteeConsensus.MessageLog
import CommitteeConsensus.Metrics

/-!
# The term of one height

A term is one member's part in agreeing on the block of one height.  It is
synchronous: a message or an event goes in, and what comes out is a `Step`, the
progress made and the requests that the caller has to execute, in order.  What the
host needs time for, building a block or validating one, is a request, and its
result comes back later as an event.

What a term is about never changes while it runs, and what it has seen does.  The
two are kept apart: `Term` holds the height, its committee and the member's
capabilities, and `Progress` holds the view, the phase and the log.  That a handler
leaves the height or the committee alone is then not a theorem but a type.

A member that is not in the committee follows the term as an observer.  It decides
as the others do, and sends nothing.
-/

namespace CommitteeConsensus

/-- What a member can do without waiting for its host. -/
structure Capabilities where
  keys : Keys
  /-- Whether a hash is the hash of a block at a height. -/
  matchesHash : Height → Block → BlockHash → Bool

/-- What one member's part in one height is about. -/
structure Term where
  height : Height
  seed : Seed
  committee : Committee
  capabilities : Capabilities
  /-- How many views ahead votes are kept. -/
  viewsAhead : Nat

/-- Where a term stands in its view. -/
inductive Phase where
  /-- Waiting for a proposal, or for a quorum of votes for it. -/
  | collectingPrePrepare
  /-- A quorum voted; waiting for a quorum of commits. -/
  | prepared
  /-- The height is decided. -/
  | committed
  /-- The view was moved to, and its proposal has not been accepted. -/
  | viewChanging
  deriving DecidableEq, Repr

/-- The name of a phase. -/
def Phase.name : Phase → String
  | .collectingPrePrepare => "CollectingPrePrepare"
  | .prepared => "Prepared"
  | .committed => "Committed"
  | .viewChanging => "ViewChanging"

/-- What a term has seen and where it stands. -/
structure Progress where
  view : View
  phase : Phase
  /-- The view whose proposal the host is validating. -/
  validating : Option View
  /-- The view that this member is to open, and the votes for it, while it waits for
  a block to propose. -/
  pendingNewView : Option (View × List Confirmation)
  /-- The highest view that this member opened as its leader. -/
  lastNewView : Option View
  log : MessageLog
  deriving DecidableEq

/-- A term that has seen nothing, over a log. -/
def Progress.initial (log : MessageLog) : Progress :=
  ⟨0, .collectingPrePrepare, none, none, none, log⟩

/-- What comes back to a term later. -/
inductive Event where
  /-- The election timer of a view fired, or an election was called for. -/
  | electionTimeout (view : View)
  /-- Building a block for a view ended, with a block or without. -/
  | proposalBuilt (view : View) (proposal : Option (Block × BlockHash))
  /-- Validating the block of a proposal ended. -/
  | validationFinished (prePrepare : PrePrepare) (valid : Bool)
  deriving DecidableEq

/-- What a term asks its caller to do. -/
inductive Request where
  /-- Send a message. -/
  | send (recipients : List MemberId) (message : Message)
  /-- Arm the election timer of a view, unless it is armed. -/
  | scheduleElection (view : View)
  /-- Disarm the election timer. -/
  | cancelElection
  /-- Build a block to propose in a view. -/
  | buildProposal (view : View)
  /-- Validate the block of a proposal. -/
  | validateProposal (prePrepare : PrePrepare)
  /-- Commit a block. -/
  | decide (decision : Decision)
  deriving DecidableEq

/-- What handling one input comes to. -/
structure Step where
  progress : Progress
  requests : List Request
  metrics : List Metric
  deriving DecidableEq

namespace Step

/-- Nothing happens. -/
def quiet (p : Progress) : Step := ⟨p, [], []⟩

/-- Nothing happens but that a message is counted as dropped. -/
def drop (p : Progress) (reason : DropReason) : Step := ⟨p, [], [.dropped reason]⟩

/-- Something is asked for. -/
def ask (p : Progress) (requests : List Request) : Step := ⟨p, requests, []⟩

/-- One step and then another from where it led. -/
def andThen (s : Step) (next : Progress → Step) : Step :=
  let t := next s.progress
  ⟨t.progress, s.requests ++ t.requests, s.metrics ++ t.metrics⟩

end Step

namespace Term

variable (t : Term)

/-- The member's keys. -/
def keys : Keys := t.capabilities.keys

/-- The member itself. -/
def me : MemberId := t.keys.me

/-- Whether the member is outside the committee. -/
def observer : Bool := !t.committee.contains t.me

/-- Whether the member leads a view. -/
def leads (view : View) : Bool := !t.observer && t.committee.leader view == t.me

/-- The request to send a message to all other members. -/
def broadcast (message : Message) : Request := .send (t.committee.others t.me) message

/-- Whether a view is too far ahead for its votes to be kept. -/
def tooFarAhead (p : Progress) (view : View) : Bool := satAdd p.view t.viewsAhead < view

/-- Whether a vote for a hash may stand: a view whose proposal is known has votes for
that proposal only. -/
def matchesProposal (p : Progress) (view : View) (hash : BlockHash) : Bool :=
  match p.log.prePrepare? t.height view with
  | none => true
  | some m => m.blockHash == hash

/-- Starts the current view: its election timer runs, and its leader needs a block. -/
def start (p : Progress) : Step :=
  ⟨p, .scheduleElection p.view :: (if t.leads p.view then [.buildProposal p.view] else []),
    [.set .view p.view]⟩

end Term

end CommitteeConsensus
