import CommitteeConsensus.Term.Voting

/-!
# Changing the view

A member whose timer runs out moves to the next view and asks its leader to open it.
The leader opens a view on a quorum of such requests.  If one of them proves that a
block was prepared in an earlier view, the leader has to propose that block again,
the one of the highest such view; otherwise it asks its host for a new one.  Whoever
receives the opening checks it against the same rule.

A view is entered by one function, which refuses to go back.  Its three callers
compare the views before they call it.  A view that somebody else opens may be the
largest one, and a member whose timer runs out there has no view to move to.
-/

namespace CommitteeConsensus

/-- Moves to a higher view.  What was under way in the view before is forgotten. -/
def Progress.enterView (p : Progress) (view : View) : Except Fault Step :=
  if p.view < view then
    .ok ⟨{ p with view, phase := .viewChanging, validating := none, pendingNewView := none }, [],
      [.count .viewChanges 1, .set .view view]⟩
  else .error (.viewNotIncreasing p.view view)

namespace Term

variable (t : Term)

/-- Opens a view with a block: the NewView goes to all members, and the proposal in
it is the leader's own. -/
def openView (p : Progress) (view : View) (block : Block) (hash : BlockHash)
    (confirmations : List Confirmation) : Step :=
  let m := t.keys.prePrepare t.height view block hash
  let opening := t.keys.newView t.height view m confirmations
  (⟨p, [t.broadcast (.newView opening)], [.count .newViewsSent 1]⟩ : Step).andThen fun p =>
    t.accept p m

/-- The block that a quorum of votes obliges the leader to propose again: the one of
the highest prepared proof, from the first vote that brings it along. -/
def reproposal (votes : List ViewChange) : Option (Block × BlockHash) := do
  let proof ← highestPreparedProof (votes.map (·.signed))
  let hash ← proof.blockHash
  let block ← votes.findSome? fun vote =>
    if vote.signed.content.preparedProof.bind (·.blockHash) = some hash then vote.block else none
  some (block, hash)

/-- Opens a view as its leader once a quorum asked for it, if it has not been opened
before and none above it has. -/
def checkViewChanges (p : Progress) (view : View) : Except Fault Step :=
  let votes := p.log.viewChangesFor t.height view
  if p.lastNewView.any (view ≤ ·) ∨ votes.length < t.committee.quorum then .ok (.quiet p)
  else do
    let p := { p with lastNewView := some view }
    let entered ←
      if p.view < view then do
        let moved ← p.enterView view
        .ok (moved.andThen fun p => .ask p [.scheduleElection view])
      else .ok (.quiet p)
    let confirmations := votes.map (·.signed)
    .ok <| entered.andThen fun p =>
      match reproposal votes with
      | some (block, hash) => t.openView p view block hash confirmations
      | none =>
        .ask { p with pendingNewView := some (view, confirmations) } [.buildProposal view]

/-- The election timer of a view fired.  In the current view it moves the member on
and makes it ask for the next view, with proof of what it saw prepared. -/
def onElectionTimeout (p : Progress) (view : View) : Except Fault Step :=
  if view ≠ p.view then .ok (.quiet p)
  else do
    let next ← nextView view
    let moved ← p.enterView next
    let scheduled := moved.andThen fun p => .ask p [.scheduleElection next]
    if t.observer then .ok scheduled
    else
      let vote := t.keys.viewChange t.height next (p.log.prepared? t.height t.committee.quorum)
      let voted := { scheduled.progress with log := scheduled.progress.log.withViewChange vote }
      let asked ←
        if t.committee.leader next = t.me then t.checkViewChanges voted next
        else .ok (.ask voted [.send [t.committee.leader next] (.viewChange vote)])
      .ok (scheduled.andThen fun _ => asked)

/-- Whether a request for a view is a valid vote and brings along the block that its
proof is about, without which the proof is of no use to the leader. -/
def admitsViewChange (m : ViewChange) : Bool :=
  t.committee.acceptsVote t.keys t.height m.view m.signed &&
    match m.signed.content.preparedProof.bind (·.blockHash), m.block with
    | none, _ => true
    | some hash, some block =>
      block.height == t.height && t.capabilities.matchesHash t.height block hash
    | some _, none => false

/-- A request for a view arrives. -/
def onViewChange (p : Progress) (m : ViewChange) : Except Fault Step :=
  if m.view < p.view then .ok (.drop p .staleView)
  else if t.tooFarAhead p m.view then .ok (.drop p .tooFarAhead)
  else if !t.leads m.view ∨ !t.admitsViewChange m then .ok (.drop p .invalid)
  else
    match p.log.storeViewChange? m with
    | none => .ok (.drop p .duplicate)
    | some log => t.checkViewChanges { p with log } m.view

/-- The host has built a block, or failed to. -/
def onProposalBuilt (p : Progress) (view : View) (proposal : Option (Block × BlockHash)) :
    Except Fault Step :=
  if view ≠ p.view ∨ !t.leads view then .ok (.quiet p)
  else
    match proposal with
    | none => .ok (.quiet p)
    | some (block, hash) =>
      match p.pendingNewView with
      | some (pending, confirmations) =>
        if pending = view then
          .ok (t.openView { p with pendingNewView := none } view block hash confirmations)
        else .error .staleNewView
      | none =>
        -- a view above the first is opened by a NewView only
        if view ≠ 0 ∨ (p.log.prePrepare? t.height view).isSome then .ok (.quiet p)
        else
          let m := t.keys.prePrepare t.height view block hash
          .ok ((Step.ask p [t.broadcast (.prePrepare m)]).andThen fun p => t.accept p m)

/-- Whether an opening is the leader's, justified by a quorum of votes, and proposes
the block that those votes oblige it to. -/
def admitsNewView (m : NewView) : Bool :=
  let view := m.signed.content.view
  m.signed.content.height == t.height && m.signed.sender == t.committee.leader view &&
    m.signed.verifies t.keys && t.admitsProposal m.prePrepare view &&
    t.committee.acceptsConfirmations t.keys t.height view m.signed.content.confirmations &&
    match (highestPreparedProof m.signed.content.confirmations).bind (·.blockHash) with
    | some hash => m.prePrepare.blockHash == hash
    | none => true

/-- The opening of a view arrives.  The member moves there, and the block goes to the
host to be validated; until it is found valid the view has no proposal. -/
def onNewView (p : Progress) (m : NewView) : Except Fault Step :=
  let view := m.signed.content.view
  if view < p.view ∨ (view = p.view ∧ p.phase ≠ .viewChanging) then .ok (.drop p .staleView)
  else if p.validating = some view then .ok (.drop p .duplicate)
  else if !t.admitsNewView m then .ok (.drop p .invalid)
  else do
    let entered ← if p.view < view then p.enterView view else .ok (.quiet p)
    .ok <| entered.andThen fun p =>
      .ask { p with validating := some view }
        [.scheduleElection view, .validateProposal m.prePrepare]

/-! ## All inputs -/

/-- Handles a message of the term's height.  A decided term is done with messages,
and one that is not from a member is dropped. -/
def handleMessage (p : Progress) (message : Message) : Except Fault Step :=
  if message.height ≠ t.height then .error .foreignMessage
  else if p.phase = .committed then .ok (.quiet p)
  else if !t.committee.contains message.sender then .ok (.drop p .invalid)
  else
    match message with
    | .prePrepare m => .ok (t.onPrePrepare p m)
    | .prepare m => .ok (t.onPrepare p m)
    | .commit m => .ok (t.onCommit p m)
    | .viewChange m => t.onViewChange p m
    | .newView m => t.onNewView p m

/-- Handles an event.  A decided term is done with events. -/
def handleEvent (p : Progress) (event : Event) : Except Fault Step :=
  if p.phase = .committed then .ok (.quiet p)
  else
    match event with
    | .electionTimeout view => t.onElectionTimeout p view
    | .proposalBuilt view proposal => t.onProposalBuilt p view proposal
    | .validationFinished m valid => .ok (t.onValidated p m valid)

end Term

end CommitteeConsensus
