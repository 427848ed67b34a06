import CommitteeConsensus.Controller.Basic

/-!
# From height to height

A height is started by giving up everything of the height before it, asking for its
committee and starting its term.  Then the messages that were cached for it are
replayed.  They may be enough to decide the height at once, and then the next one is
started, and so on.

`moveOn` goes round until a height does not decide when it starts.  A height decides
when it starts only through a cached message, which leaves the cache.  So the number
of cached messages bounds the number of rounds.
-/

namespace CommitteeConsensus

namespace Controller

open Activity

/-! ## Executing requests -/

/-- Makes sure that the scope alive is for a view at least as high as this one. -/
def reachView (view : View) : Activity Unit :=
  change fun c =>
    if c.scope.view < view then { c with scope := ⟨c.scope.number + 1, view⟩ } else c

/-- The height of the active term. -/
def activeHeight : Activity Height := do
  match (← look).height? with
  | some height => pure height
  | none => stop (.broken .noActiveTerm)

/-- Starts work of the host in the scope of a view. -/
def launch (view : View) (work : Work) : Activity Unit := do
  let height ← activeHeight
  reachView view
  let c ← look
  change fun c => { c with launched := c.launched + 1 }
  perform (.launch
    { number := c.launched, height, scope := c.scope.number
      previous := c.tip.map (·.block), work })

/-- Executes one request.  What a term decided is put aside until its other requests
are executed. -/
def execute (decided : Option Decision) : Request → Activity (Option Decision)
  | .send recipients message => do
    perform (.send recipients message)
    pure decided
  | .scheduleElection view => do
    reachView view
    let height ← activeHeight
    let instant ← now
    change fun c => { c with timer := c.timer.arm instant view height }
    pure decided
  | .cancelElection => do
    change fun c => { c with timer := c.timer.disarm }
    pure decided
  | .buildProposal view => do
    launch view (.build view)
    pure decided
  | .validateProposal m => do
    launch m.view (.validate m)
    pure decided
  | .decide decision =>
    match decided with
    | none => pure (some decision)
    | some _ => stop (.broken .decidedTwice)

/-- Executes requests in order. -/
def executeAll : Option Decision → List Request → Activity (Option Decision)
  | decided, [] => pure decided
  | decided, request :: requests => do
    let decided ← execute decided request
    executeAll decided requests

/-- Takes over what a term did, and executes what it asks for. -/
def follow (term : Term) (step : Except Fault Step) : Activity (Option Decision) := do
  let step ← require step
  change fun c => { c with stage := .running term step.progress }
  report step.metrics
  executeAll none step.requests

/-! ## Starting heights -/

/-- Gives up the height before `height`: its term, its timer, its work and the
messages of heights below. -/
def leave (c : Controller) (height : Height) : Controller :=
  { c with
    scope := ⟨c.scope.number + 1, 0⟩
    timer := c.timer.disarm
    stage := .idle (c.log.clearBelow height) }

/-- Gives a message of the current height to the active term. -/
def pass (message : Message) : Activity (Option Decision) := do
  match (← look).stage with
  | .idle _ => pure none
  | .running term progress => follow term (term.handleMessage progress message)

/-- Gives messages to the active term, until it decides. -/
def replay : Option Decision → List Message → Activity (Option Decision)
  | some decision, _ => pure (some decision)
  | none, [] => pure none
  | none, message :: messages => do
    let decided ← pass message
    replay decided messages

/-- A height may be started if it is above that of the active term. -/
def checkStart (c : Controller) (height : Height) : Except Fault Unit :=
  match c.height? with
  | none => .ok ()
  | some current =>
    if current < height then .ok () else .error (.heightNotIncreasing current height)

/-- Starts a height, and replays what was cached for it. -/
def startHeight (height : Height) : Activity (Option Decision) := do
  require ((← look).checkStart height)
  change fun c => c.leave height
  let c ← look
  let committee ← committee height c.seed
  report [.set .height height]
  let term : Term :=
    { height, seed := c.seed, committee, capabilities := c.capabilities
      viewsAhead := c.config.limits.viewsAhead }
  let decided ← follow term (.ok (term.start (Progress.initial c.log)))
  let release ← require ((← look).admission.setHeight height)
  change fun c => { c with admission := release.admission }
  report release.metrics
  replay decided release.released

/-- Commits a decision: it is the new tip. -/
def commit (decision : Decision) : Activity Unit := do
  report [.count .decisionsByConsensus 1]
  perform (.commit decision)
  change fun c => { c with tip := some ⟨decision.block, decision.proof⟩ }

/-- Commits what was decided and starts the next height, as long as heights decide.
The first argument bounds the number of rounds. -/
def moveOn : Nat → Option Decision → Activity Unit
  | _, none => pure ()
  | rounds, some decision => do
    commit decision
    let next ← require (nextHeight decision.height)
    let decided ← startHeight next
    match rounds with
    | 0 => pure ()
    | rounds + 1 => moveOn rounds decided

/-- Ends a call that may have decided the active height. -/
def settle (decided : Option Decision) : Activity Unit := do
  moveOn ((← look).admission.cachedCount + 1) decided

/-- Starts consensus on a height, giving up the active term.  The height must be
above that of the active term. -/
def setHeight (height : Height) : Activity Unit := do
  let decided ← startHeight height
  settle decided

end Controller

end CommitteeConsensus
