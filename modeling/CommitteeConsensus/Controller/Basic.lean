import CommitteeConsensus.Admission
import CommitteeConsensus.ElectionTimer
import CommitteeConsensus.Term.ViewChange

/-!
# The controller of one member

The controller takes one member from height to height.  It holds the term of the
active height, the filter that messages pass on their way to it, the election timer,
and the last block of the chain.  It starts no thread and reads no clock: what it
does to the world is a list of `Effect`s in order, and what it needs to know of the
world when it is called, the time and the committees, is a `Moment`.

An activity of the controller is a function of both, and it ends in one of two ways:
with a value, or at a `Stop`.  What happened before a stop has happened.  The
controller that the stop left behind and the effects up to it are part of the
outcome, because a host may carry on with them.

## Scopes

Work of the host is started for a view of a height, and is of no use beyond it.
Each piece is started in a scope, and the controller knows the number of the scope
that is alive.  A new height opens a new scope, and so does the first work for a
higher view.  Work of a scope that is not alive is cancelled.
-/

namespace CommitteeConsensus

/-! ## Work of the host -/

/-- What the host is asked to work on. -/
inductive Work where
  /-- Build a block to propose in a view. -/
  | build (view : View)
  /-- Validate the block of a proposal. -/
  | validate (prePrepare : PrePrepare)
  deriving DecidableEq

/-- A piece of work under way. -/
structure Task where
  /-- No two tasks of one controller have the same number. -/
  number : Nat
  height : Height
  /-- The scope that the work is of use in. -/
  scope : Nat
  /-- The block that the height builds on. -/
  previous : Option Block
  work : Work
  deriving DecidableEq

/-- What the host comes back with. -/
inductive Answer where
  /-- A block was built. -/
  | proposal (block : Block) (hash : BlockHash)
  /-- The block is valid. -/
  | valid
  /-- The work failed, or took too long. -/
  | failed (error : HostError)
  deriving DecidableEq

/-- An event of a term, on its way to the controller from outside. -/
structure LateEvent where
  /-- The height whose term the event is for. -/
  height : Height
  event : Event
  deriving DecidableEq

/-- What becomes of an answer: the event for the term, and the report of a failure. -/
def Task.conclude (task : Task) (answer : Answer) : LateEvent × List Metric :=
  match task.work, answer with
  | .build view, .proposal block hash =>
    (⟨task.height, .proposalBuilt view (some (block, hash))⟩, [])
  | .build view, _ => (⟨task.height, .proposalBuilt view none⟩, [.count .proposalsFailed 1])
  | .validate m, .valid => (⟨task.height, .validationFinished m true⟩, [])
  | .validate m, _ => (⟨task.height, .validationFinished m false⟩, [.count .proposalsInvalid 1])

/-! ## Effects -/

/-- What the controller does to the world. -/
inductive Effect where
  /-- The host was asked for the committee of a height. -/
  | askCommittee (height : Height) (seed : Seed)
  /-- A message was given to the network. -/
  | send (recipients : List MemberId) (message : Message)
  /-- A block was committed. -/
  | commit (decision : Decision)
  /-- Work of the host was started. -/
  | launch (task : Task)
  /-- Something was counted or a level was set. -/
  | report (metric : Metric)
  deriving DecidableEq

/-- Why an activity ended early. -/
inductive Stop where
  /-- The host did not do its part. -/
  | failed (error : HostError)
  /-- A promise was broken. -/
  | broken (fault : Fault)
  deriving DecidableEq

/-- What the controller is told of the world when it is called. -/
structure Moment where
  now : Nanoseconds
  /-- The ordered members of a height, as drawn by its seed. -/
  committeeOf : Height → Seed → Except HostError (List MemberId)

/-! ## The controller -/

/-- What goes on at a controller. -/
inductive Stage where
  /-- No term is active; the messages that count are kept. -/
  | idle (log : MessageLog)
  /-- A term is active. -/
  | running (term : Term) (progress : Progress)

/-- The last block of the chain, with its certificate. -/
structure Tip where
  block : Block
  proof : BlockProof
  deriving DecidableEq

/-- The scope that is alive. -/
structure Scope where
  number : Nat
  /-- The highest view that work was started for, or 0. -/
  view : View
  deriving DecidableEq

/-- The controller of one member. -/
structure Controller where
  config : Config
  capabilities : Capabilities
  admission : Admission
  stage : Stage
  /-- The election timer; its note is the height it was armed for. -/
  timer : ElectionTimer Height
  scope : Scope
  /-- How many tasks were started. -/
  launched : Nat
  tip : Option Tip

namespace Controller

/-- A controller before its first height. -/
def initial (config : Config) (capabilities : Capabilities) : Controller where
  config := config
  capabilities := capabilities
  admission := Admission.start capabilities.keys.me 0 config.limits
  stage := .idle MessageLog.empty
  timer := ElectionTimer.idle config.timeouts.electionBase
  scope := ⟨0, 0⟩
  launched := 0
  tip := none

/-- The member that is controlled. -/
def me (c : Controller) : MemberId := c.capabilities.keys.me

/-- The height of the active term. -/
def height? (c : Controller) : Option Height :=
  match c.stage with
  | .idle _ => none
  | .running term _ => some term.height

/-- The progress of the active term. -/
def progress? (c : Controller) : Option Progress :=
  match c.stage with
  | .idle _ => none
  | .running _ progress => some progress

/-- The view of the active term. -/
def view? (c : Controller) : Option View := c.progress?.map (·.view)

/-- The phase of the active term. -/
def phase? (c : Controller) : Option Phase := c.progress?.map (·.phase)

/-- The messages that are kept, with or without an active term. -/
def log (c : Controller) : MessageLog :=
  match c.stage with
  | .idle log => log
  | .running _ progress => progress.log

/-- The controller with other messages kept. -/
def withLog (c : Controller) (log : MessageLog) : Controller :=
  match c.stage with
  | .idle _ => { c with stage := .idle log }
  | .running term progress => { c with stage := .running term { progress with log } }

/-- The seed of the height after the tip; a chain without a block starts with 0. -/
def seed (c : Controller) : Seed :=
  match c.tip with
  | none => 0
  | some tip => tip.proof.nextSeed

/-- Whether a task is still of use. -/
def wants (c : Controller) (task : Task) : Bool := task.scope == c.scope.number

end Controller

/-! ## Activities -/

/-- What an activity came to. -/
structure Outcome (α : Type) where
  /-- The controller as the activity left it. -/
  controller : Controller
  /-- What was done to the world, in order. -/
  effects : List Effect
  result : Except Stop α

/-- An activity of a controller. -/
def Activity (α : Type) := Moment → Controller → Outcome α

namespace Activity

variable {α β : Type}

/-- Runs an activity. -/
def run (act : Activity α) (moment : Moment) (c : Controller) : Outcome α := act moment c

/-- One activity and then the next, unless the first one stopped. -/
def andThen (act : Activity α) (next : α → Activity β) : Activity β := fun moment c =>
  let first := act moment c
  match first.result with
  | .error stop => ⟨first.controller, first.effects, .error stop⟩
  | .ok a =>
    let second := next a moment first.controller
    ⟨second.controller, first.effects ++ second.effects, second.result⟩

instance : Monad Activity where
  pure a := fun _ c => ⟨c, [], .ok a⟩
  bind := andThen

/-- The controller as it is. -/
def look : Activity Controller := fun _ c => ⟨c, [], .ok c⟩

/-- Changes the controller. -/
def change (f : Controller → Controller) : Activity Unit := fun _ c => ⟨f c, [], .ok ()⟩

/-- Does something to the world. -/
def perform (effect : Effect) : Activity Unit := fun _ c => ⟨c, [effect], .ok ()⟩

/-- Reports metrics. -/
def report (metrics : List Metric) : Activity Unit := fun _ c =>
  ⟨c, metrics.map .report, .ok ()⟩

/-- Ends here. -/
def stop (reason : Stop) : Activity α := fun _ c => ⟨c, [], .error reason⟩

/-- Ends at a broken promise. -/
def require : Except Fault α → Activity α
  | .ok a => pure a
  | .error fault => stop (.broken fault)

/-- What time it is. -/
def now : Activity Nanoseconds := fun moment c => ⟨c, [], .ok moment.now⟩

/-- Asks the host for the committee of a height.  A committee has members. -/
def committee (height : Height) (seed : Seed) : Activity Committee := fun moment c =>
  ⟨c, [.askCommittee height seed],
    match moment.committeeOf height seed with
    | .error error => .error (.failed error)
    | .ok members =>
      match Committee.ofList? members with
      | none => .error (.broken (.emptyCommitteeOf height))
      | some committee => .ok committee⟩

/-! ### Running activities -/

@[simp] theorem run_pure (a : α) (moment : Moment) (c : Controller) :
    (pure a : Activity α).run moment c = ⟨c, [], .ok a⟩ := rfl

theorem run_bind_of_ok {act : Activity α} {moment : Moment} {c : Controller} {a : α}
    (h : (act.run moment c).result = .ok a) (next : α → Activity β) :
    (act >>= next).run moment c =
      let second := (next a).run moment (act.run moment c).controller
      ⟨second.controller, (act.run moment c).effects ++ second.effects, second.result⟩ := by
  simp only [run, bind, andThen] at h ⊢
  rw [h]

theorem run_bind_of_error {act : Activity α} {moment : Moment} {c : Controller} {reason : Stop}
    (h : (act.run moment c).result = .error reason) (next : α → Activity β) :
    (act >>= next).run moment c =
      ⟨(act.run moment c).controller, (act.run moment c).effects, .error reason⟩ := by
  simp only [run, bind, andThen] at h ⊢
  rw [h]

end Activity

end CommitteeConsensus
