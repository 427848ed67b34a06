import CommitteeConsensus.Controller.Heights

/-!
# What the controller is given

From outside come messages, blocks that the network committed without this member,
and calls for an election.  From its own timer and from the work it started come
late events, each for the height it was started in; one of another height is of no
interest any more.

A block is taken over from the network if its proof holds for the committee of its
height.  That committee is drawn by the seed of the block before it, so the proof of
that block comes along.
-/

namespace CommitteeConsensus

/-- What a host gives to a running controller. -/
inductive Input where
  /-- A message came from the network. -/
  | message (message : Message)
  /-- The network committed a block. -/
  | sync (block : Block) (proof : BlockProof) (previousProof : Option BlockProof)
  /-- The election of the current view is to be held now. -/
  | triggerElection
  deriving DecidableEq

namespace Controller

open Activity

/-- Handles a message from the network. -/
def receive (message : Message) : Activity Unit := do
  let c ← look
  let answer ← require (c.admission.offer message)
  change fun c => { c with admission := answer.admission }
  report answer.metrics
  match answer.passed with
  | none => pure ()
  | some message =>
    let decided ← pass message
    settle decided

/-- Handles an event of the active term. -/
def handleEvent (event : Event) : Activity Unit := do
  match (← look).stage with
  | .idle _ => pure ()
  | .running term progress =>
    let decided ← follow term (term.handleEvent progress event)
    settle decided

/-- Holds the election of the current view, as if its timer had fired. -/
def triggerElection : Activity Unit := do
  match (← look).view? with
  | none => pure ()
  | some view => handleEvent (.electionTimeout view)

/-- The report of an event that is handled. -/
def eventMetrics : Event → List Metric
  | .electionTimeout _ => [.count .electionTimeouts 1]
  | _ => []

/-- Handles an event from the timer or from finished work. -/
def handleLate (late : LateEvent) : Activity Unit := do
  if (← look).height? = some late.height then
    report (eventMetrics late.event)
    handleEvent late.event
  else pure ()

/-- Takes over a block that the network committed, and goes on after its height.  A
block below the active height, one that does not match its proof, or one whose proof
does not hold is ignored. -/
def sync (block : Block) (proof : BlockProof) (previousProof : Option BlockProof) :
    Activity Unit := do
  let c ← look
  if c.height?.any (proof.height < ·) then pure ()
  else if !c.capabilities.matchesHash proof.height block proof.blockHash then pure ()
  else
    let seed := (previousProof.map (·.nextSeed)).getD 0
    let committee ← committee proof.height seed
    if !committee.acceptsBlockProof c.capabilities.keys proof seed then pure ()
    else
      report [.count .decisionsBySync 1]
      change fun c => { c with tip := some ⟨block, proof⟩ }
      let next ← require (nextHeight proof.height)
      setHeight next

/-- Handles an input from outside. -/
def handle : Input → Activity Unit
  | .message message => receive message
  | .sync block proof previousProof => sync block proof previousProof
  | .triggerElection => triggerElection

end Controller

end CommitteeConsensus
