import CommitteeConsensus.Keys

/-!
# Certificates

Three certificates travel inside of messages: a prepared proof shows that a block
gathered a quorum of votes in some view, the confirmations of a new view are a
quorum of requests for it, and a block proof is a quorum of commits.  The functions
here say which of them hold for a committee.  They read nothing but the certificate,
the committee and the keys.

The common core is a list of signed contents from pairwise distinct members.  That
the members are distinct is asked once, of the list of senders, and apart from what
is asked of each content.

A prepared proof is looked at in two stages.  What its heights, views and lengths
say is decided first (`PreparedProof.triage`), and only a proof that passes needs
the leader of its view.  So a missing or malformed proof has its answer even where
there is no committee to have a leader.
-/

namespace CommitteeConsensus

/-- Whether no member occurs two times. -/
def distinct (members : List MemberId) : Bool := decide members.Nodup

/-! ## Prepared proofs -/

/-- What the shape of a prepared proof says before any signature is looked at. -/
inductive ProofTriage where
  /-- Nothing was claimed: a member that prepared nothing may ask for a view too. -/
  | vacuous
  /-- The proof is malformed, out of place or too short. -/
  | refused
  /-- The signatures decide. -/
  | claimed (prePrepare : Signed PrePrepareContent) (prepares : List (Signed PrepareContent))
  deriving DecidableEq

/-- Sorts a prepared proof that is to justify moving to `targetView`. -/
def PreparedProof.triage (targetHeight : Height) (targetView : View) (quorum : Nat) :
    Option PreparedProof → ProofTriage
  | none => .vacuous
  | some proof =>
    match proof.prePrepare, proof.prepares with
    | none, [] => .vacuous
    | none, _ :: _ => .refused
    | some _, [] => .refused
    | some prePrepare, prepares@(_ :: _) =>
      if prePrepare.content.height == targetHeight && prePrepare.content.view < targetView &&
          quorum - 1 ≤ prepares.length then
        .claimed prePrepare prepares
      else .refused

/-- Whether a vote supports a proposal of `leader`: it is for the same height, view
and block, and from another member of the committee. -/
def supports (keys : Keys) (members : List MemberId) (leader : MemberId)
    (content : PrePrepareContent) (prepare : Signed PrepareContent) : Bool :=
  prepare.content.height == content.height && prepare.content.view == content.view &&
    prepare.content.blockHash == content.blockHash && prepare.sender != leader &&
    members.contains prepare.sender && prepare.verifies keys

/-- Whether the signatures of a claimed prepared proof hold up. -/
def supported (keys : Keys) (members : List MemberId) (leader : MemberId)
    (prePrepare : Signed PrePrepareContent) (prepares : List (Signed PrepareContent)) : Bool :=
  prePrepare.sender == leader && prePrepare.verifies keys &&
    prepares.all (supports keys members leader prePrepare.content) &&
    distinct (prepares.map (·.sender))

/-- Whether a prepared proof justifies moving to `targetView`, for ordered members
and any quorum.  Members that have no leader are a fault, once one is needed. -/
def preparedProofHolds (keys : Keys) (members : List MemberId) (quorum : Nat)
    (targetHeight : Height) (targetView : View) (proof : Option PreparedProof) :
    Except Fault Bool :=
  match PreparedProof.triage targetHeight targetView quorum proof with
  | .vacuous => .ok true
  | .refused => .ok false
  | .claimed prePrepare prepares =>
    match leaderOf members prePrepare.content.view with
    | .error fault => .error fault
    | .ok leader => .ok (supported keys members leader prePrepare prepares)

/-- The prepared proof of the highest view that a list of confirmations carries; of
two in one view, the later in the list. -/
def highestPreparedProof (confirmations : List Confirmation) : Option PreparedProof :=
  (confirmations.filterMap (·.content.preparedProof)).foldl
    (fun best proof =>
      match best, proof.view with
      | best, none => best
      | none, some _ => some proof
      | some b, some view => if b.view.getD 0 ≤ view then some proof else some b)
    none

/-! ## Certificates of a committee -/

namespace Committee

variable (c : Committee) (keys : Keys)

/-- Whether a prepared proof justifies moving to `targetView`. -/
def acceptsProof (targetHeight : Height) (targetView : View) (proof : Option PreparedProof) :
    Bool :=
  match PreparedProof.triage targetHeight targetView c.quorum proof with
  | .vacuous => true
  | .refused => false
  | .claimed prePrepare prepares =>
    supported keys c.members (c.leader prePrepare.content.view) prePrepare prepares

/-- Whether a confirmation is a member's vote to move to `targetView`. -/
def acceptsVote (targetHeight : Height) (targetView : View) (vote : Confirmation) : Bool :=
  vote.content.height == targetHeight && vote.content.view == targetView &&
    c.contains vote.sender && vote.verifies keys &&
    c.acceptsProof keys targetHeight targetView vote.content.preparedProof

/-- Whether confirmations are votes of a quorum of distinct members for one view. -/
def acceptsConfirmations (height : Height) (view : View) (votes : List Confirmation) : Bool :=
  c.quorum ≤ votes.length && distinct (votes.map (·.sender)) &&
    votes.all (c.acceptsVote keys height view)

/-- Whether a commit is a member's, for the block of a proof and with a valid share
of the seed. -/
def acceptsCommit (proof : BlockProof) (seed : Seed) (commit : Signed CommitContent) : Bool :=
  commit.content.height == proof.height && commit.content.view == proof.view &&
    commit.content.blockHash == proof.blockHash && c.contains commit.sender &&
    commit.verifies keys &&
    keys.verifySeed proof.height seed commit.content.seedShare commit.sender

/-- Whether a block proof holds: a quorum of distinct members committed to its block,
and their shares add up to its seed signature. -/
def acceptsBlockProof (proof : BlockProof) (seed : Seed) : Bool :=
  c.quorum ≤ proof.commits.length && proof.commits.all (c.acceptsCommit keys proof seed) &&
    distinct (proof.commits.map (·.sender)) &&
    keys.aggregate proof.height (seedShares proof.commits) == proof.seedSignature

end Committee

/-- For a committee, the general check asks its quorum and its leaders. -/
theorem preparedProofHolds_members (c : Committee) (keys : Keys) (h : Height) (v : View)
    (proof : Option PreparedProof) :
    preparedProofHolds keys c.members c.quorum h v proof = .ok (c.acceptsProof keys h v proof) := by
  unfold preparedProofHolds Committee.acceptsProof
  cases PreparedProof.triage h v c.quorum proof <;> simp

end CommitteeConsensus
