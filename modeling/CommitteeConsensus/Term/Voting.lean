import CommitteeConsensus.Term.Basic

/-!
# Voting within a view

The proposal of a view is validated by the host, then stored and voted for.  When a
quorum voted, the leader's proposal counting as its vote, the member commits; when a
quorum committed, the height is decided.

Votes may run ahead of the proposal they are for.  They are stored as they come, and
the counts are taken again when the proposal is accepted, so it makes no difference
in which order the two arrive.
-/

namespace CommitteeConsensus

namespace Term

variable (t : Term)

/-- Decides the height if a quorum committed to the current proposal, and that is the
block with this hash. -/
def checkCommitted (p : Progress) (hash : BlockHash) : Step :=
  if p.phase = .committed then .quiet p
  else
    match p.log.prePrepare? t.height p.view with
    | none => .quiet p
    | some m =>
      let commits := p.log.commitsFor t.height p.view hash
      if m.blockHash = hash ∧ t.committee.quorum ≤ commits.length then
        let counted := commits.take t.committee.quorum
        let proof : BlockProof :=
          { height := t.height, view := p.view, blockHash := hash, commits := counted
            seedSignature := t.keys.aggregate t.height (seedShares counted) }
        .ask { p with phase := .committed }
          [.cancelElection, .decide ⟨t.height, p.view, m.block, proof⟩]
      else .quiet p

/-- Commits to the block with this hash.  An observer has nothing to send. -/
def commitTo (p : Progress) (hash : BlockHash) : Step :=
  if t.observer then .quiet p
  else
    let commit := t.keys.commit t.height p.view hash t.seed
    .ask { p with log := p.log.withCommit commit } [t.broadcast (.commit commit)]

/-- Commits to the current proposal if a quorum voted for it. -/
def checkPrepared (p : Progress) : Step :=
  if p.phase = .collectingPrePrepare then
    match p.log.prePrepare? t.height p.view with
    | none => .quiet p
    | some m =>
      if t.committee.quorum - 1 ≤ (p.log.prepareSenders t.height p.view m.blockHash).length then
        (t.commitTo { p with phase := .prepared } m.blockHash).andThen fun p =>
          t.checkCommitted p m.blockHash
      else .quiet p
  else .quiet p

/-- Votes for a proposal.  The leader's proposal is its vote, and an observer has
none. -/
def voteFor (p : Progress) (m : PrePrepare) : Step :=
  if t.observer ∨ t.leads m.view then .quiet p
  else
    let prepare := t.keys.prepare t.height m.view m.blockHash
    .ask { p with log := p.log.withPrepare prepare } [t.broadcast (.prepare prepare)]

/-- Stores a valid proposal of the current view and votes for it; votes and commits
that came before it are counted now. -/
def accept (p : Progress) (m : PrePrepare) : Step :=
  match p.log.storePrePrepare? m with
  | none => .quiet p
  | some log =>
    (Step.ask { p with log, phase := .collectingPrePrepare } [.scheduleElection p.view]).andThen
      fun p => (t.voteFor p m).andThen fun p => (t.checkPrepared p).andThen fun p =>
        t.checkCommitted p m.blockHash

/-- Whether a proposal is the leader's for a view and for its block.  What is in the
block is not looked at. -/
def admitsProposal (m : PrePrepare) (view : View) : Bool :=
  m.height == t.height && m.view == view && m.sender == t.committee.leader view &&
    m.block.height == t.height && m.signed.verifies t.keys &&
    t.capabilities.matchesHash t.height m.block m.blockHash

/-- A proposal arrives: its block goes to the host to be validated. -/
def onPrePrepare (p : Progress) (m : PrePrepare) : Step :=
  if m.view ≠ p.view then .drop p .staleView
  else if p.phase ≠ .collectingPrePrepare ∨ p.validating = some m.view ∨
      (p.log.prePrepare? t.height m.view).isSome then .drop p .duplicate
  else if t.admitsProposal m m.view then
    .ask { p with validating := some m.view } [.validateProposal m]
  else .drop p .invalid

/-- The host has validated a proposal. -/
def onValidated (p : Progress) (m : PrePrepare) (valid : Bool) : Step :=
  if m.view ≠ p.view ∨ p.validating ≠ some m.view then .quiet p
  else
    let p := { p with validating := none }
    if valid then t.accept p m else .quiet p

/-- A vote arrives. -/
def onPrepare (p : Progress) (m : Signed PrepareContent) : Step :=
  let view := m.content.view
  if view < p.view then .drop p .staleView
  else if t.tooFarAhead p view then .drop p .tooFarAhead
  else if m.sender = t.committee.leader view ∨ !t.matchesProposal p view m.content.blockHash ∨
      !m.verifies t.keys then .drop p .invalid
  else if p.log.hasPrepareFrom t.height view m.sender then .drop p .duplicate
  else
    let p := { p with log := p.log.withPrepare m }
    if view = p.view then t.checkPrepared p else .quiet p

/-- A commit arrives. -/
def onCommit (p : Progress) (m : Signed CommitContent) : Step :=
  let view := m.content.view
  if view < p.view then .drop p .staleView
  else if t.tooFarAhead p view then .drop p .tooFarAhead
  else if !t.matchesProposal p view m.content.blockHash ∨ !m.verifies t.keys ∨
      !t.keys.verifySeed t.height t.seed m.content.seedShare m.sender then .drop p .invalid
  else if p.log.hasCommitFrom t.height view m.sender then .drop p .duplicate
  else
    let p := { p with log := p.log.withCommit m }
    if view = p.view then t.checkCommitted p m.content.blockHash else .quiet p

end Term

end CommitteeConsensus
