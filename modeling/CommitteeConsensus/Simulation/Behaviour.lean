import CommitteeConsensus.Controller.Basic
import CommitteeConsensus.Simulation.Digests

/-!
# How a simulated host behaves

Left alone, a simulated host answers at once: it proposes its sample block, finds
every block valid whose hash is right, and has one committee for every height.  A
`Behaviour` makes it slow or makes it fail, and a block can be rejected by its hash.

How long the work takes, and whether it fails then, is settled when it starts.
Whether a block is rejected is looked up when its validation ends.

A simulated clock does not count for ever: a wait that is to take longer than thirty
years is over after thirty years, whatever is waited for.
-/

namespace CommitteeConsensus.Simulation

/-- The longest time that a simulated clock waits for anything: thirty years of 365 days. -/
def longestWait : Nanoseconds := 30 * 365 * 86400 * 1000000000

/-- How long a wait takes that is to take a span of time. -/
def waitingTime (span : Nanoseconds) : Nanoseconds := min span longestWait

/-- The manner in which a host does one kind of work. -/
structure Manner where
  /-- How long it takes. -/
  delay : Nanoseconds
  /-- Why it fails then, if it does. -/
  failure : Option String
  deriving DecidableEq

/-- At once, and without failing. -/
def Manner.prompt : Manner := ⟨0, none⟩

/-- What is settled about a piece of work when it starts. -/
inductive Outlook where
  /-- Its time will run out. -/
  | late
  /-- It will fail. -/
  | doomed (detail : String)
  /-- It will be done. -/
  | regular
  deriving DecidableEq

/-- When work that starts now will end, and how.  Work that takes exactly its time
is in time. -/
def Manner.plan (m : Manner) (now timeout : Nanoseconds) : Nanoseconds × Outlook :=
  let delay := waitingTime m.delay
  let limit := waitingTime timeout
  if limit < delay then (now + limit, .late)
  else
    (now + delay,
      match m.failure with
      | some detail => .doomed detail
      | none => .regular)

/-- How a host behaves. -/
structure Behaviour where
  proposing : Manner
  validating : Manner
  /-- Whether messages are lost on their way to the network. -/
  sendFails : Bool
  /-- The heights with a committee of their own, or with none to be had. -/
  exceptions : List (Height × Except String (List MemberId))

/-- The behaviour of a host that is left alone. -/
def Behaviour.regular : Behaviour := ⟨.prompt, .prompt, false, []⟩

/-- The host of one member. -/
structure Host where
  me : MemberId
  /-- The committee of every height that is no exception. -/
  committee : List MemberId
  behaviour : Behaviour
  /-- The hashes of the blocks that are rejected. -/
  rejected : List BlockHash

namespace Host

/-- The committee of a height. -/
def committeeOf (h : Host) (height : Height) (_ : Seed) : Except HostError (List MemberId) :=
  match h.behaviour.exceptions.lookup height with
  | none => .ok h.committee
  | some (.ok members) => .ok members
  | some (.error detail) => .error (.membership detail)

/-- What the controller is told when it is called. -/
def moment (h : Host) (now : Nanoseconds) : Moment := ⟨now, h.committeeOf⟩

/-- The manner in which the host does a piece of work. -/
def manner (h : Host) : Work → Manner
  | .build _ => h.behaviour.proposing
  | .validate _ => h.behaviour.validating

/-- The answer to a task when it ends. -/
def answer (h : Host) (task : Task) : Outlook → Answer
  | .late =>
    match task.work with
    | .build view => .failed (.timeout ("Block proposal of view " ++ toString view))
    | .validate m => .failed (.timeout ("Validation of " ++ Text.hexadecimal m.blockHash.bytes))
  | .doomed detail =>
    match task.work with
    | .build _ => .failed (.blockProposal detail)
    | .validate _ => .failed (.blockValidation detail)
  | .regular =>
    match task.work with
    | .build _ =>
      let block := sampleBlock task.height h.me
      .proposal block (blockHash block)
    | .validate m =>
      if !matchesHash task.height m.block m.blockHash then
        .failed (.blockValidation ("Block hash mismatch " ++ Text.hexadecimal m.blockHash.bytes))
      else if h.rejected.contains m.blockHash then
        .failed (.blockValidation ("Rejected block " ++ Text.hexadecimal m.blockHash.bytes))
      else .valid

end Host

/-- How long a piece of work may take. -/
def timeoutOf (timeouts : Timeouts) : Work → Nanoseconds
  | .build _ => timeouts.proposal
  | .validate _ => timeouts.validation

/-! ## What a host sees -/

/-- Something that a host was asked to do. -/
inductive Call where
  | committee (height : Height) (seed : Seed)
  | propose (height : Height) (previous : Option Block)
  | validate (height : Height) (hash : BlockHash) (previous : Option Block)
  | send (recipients : List MemberId) (message : Message)
  deriving DecidableEq

/-- The call that a task begins with. -/
def callOf (task : Task) : Call :=
  match task.work with
  | .build _ => .propose task.height task.previous
  | .validate m => .validate task.height m.blockHash task.previous

end CommitteeConsensus.Simulation
