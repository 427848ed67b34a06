import CommitteeConsensus.Committee
import CommitteeConsensus.Codec
import CommitteeConsensus.Sha256

/-!
# Consensus messages

A height is agreed upon by five kinds of messages.  The leader of a view proposes a
block by a PrePrepare; members vote for it by Prepares, and a member that saw a
quorum of votes commits to the block by a Commit.  A member that waited too long
asks for the next view by a ViewChange, and the leader of that view opens it by a
NewView that carries a quorum of such requests.

Every message is a content signed by its sender, so the five kinds share one
wrapper, `Signed`.  Evidence that travels inside other messages, such as the
prepares of a prepared proof or the votes of a new view, consists of the same
signed contents, complete with their signatures: whoever reads a message can check
all of it.

What a leader attaches without signing it, the block itself, stands beside the
signed content and not in it.  The hash in the content binds the two.
-/

namespace CommitteeConsensus

/-- A block as consensus sees it: a height, and a body that only the host reads. -/
structure Block where
  height : Height
  body : Bytes
  deriving DecidableEq

/-- The five kinds of messages. -/
inductive MessageKind where
  | prePrepare
  | prepare
  | commit
  | viewChange
  | newView
  deriving DecidableEq, Repr

/-- A content together with its sender and the sender's signature. -/
structure Signed (α : Type) where
  content : α
  sender : MemberId
  signature : Signature
  deriving DecidableEq

/-! ## Contents -/

/-- The leader of `view` proposes the block with this hash. -/
structure PrePrepareContent where
  height : Height
  view : View
  blockHash : BlockHash
  deriving DecidableEq

/-- The sender found the proposal of `view` valid. -/
structure PrepareContent where
  height : Height
  view : View
  blockHash : BlockHash
  deriving DecidableEq

/-- The sender saw a quorum for the block and commits to it. -/
structure CommitContent where
  height : Height
  view : View
  blockHash : BlockHash
  /-- The sender's share of the random seed of this height. -/
  seedShare : Signature
  deriving DecidableEq

/-- A certificate that a block was prepared in some view: the proposal and a quorum
of votes for it.  Either both parts are there or both are missing; anything else is
malformed. -/
structure PreparedProof where
  prePrepare : Option (Signed PrePrepareContent)
  prepares : List (Signed PrepareContent)
  deriving DecidableEq

/-- The sender wants to move to `view`. -/
structure ViewChangeContent where
  height : Height
  view : View
  /-- The highest view in which the sender saw a quorum of prepares, if any. -/
  preparedProof : Option PreparedProof
  deriving DecidableEq

/-- The leader of `view` opens it. -/
structure NewViewContent where
  height : Height
  view : View
  /-- The votes that justify the view. -/
  confirmations : List (Signed ViewChangeContent)
  deriving DecidableEq

/-- A signed vote to change the view, without the block it may carry. -/
abbrev Confirmation := Signed ViewChangeContent

/-! ## Messages -/

/-- The proposal of a block by the leader of a view. -/
structure PrePrepare where
  signed : Signed PrePrepareContent
  block : Block
  deriving DecidableEq

/-- A vote to change the view, sent to the leader of the view asked for.  With a
prepared proof comes the block that the proof is about. -/
structure ViewChange where
  signed : Confirmation
  block : Option Block
  deriving DecidableEq

/-- The opening of a view: a quorum of votes for it, and its proposal. -/
structure NewView where
  signed : Signed NewViewContent
  prePrepare : PrePrepare
  deriving DecidableEq

/-- What members send each other. -/
inductive Message where
  | prePrepare (message : PrePrepare)
  | prepare (message : Signed PrepareContent)
  | commit (message : Signed CommitContent)
  | viewChange (message : ViewChange)
  | newView (message : NewView)
  deriving DecidableEq

namespace PrePrepare

/-- The height a proposal is for. -/
def height (m : PrePrepare) : Height := m.signed.content.height

/-- The view a proposal is for. -/
def view (m : PrePrepare) : View := m.signed.content.view

/-- The hash of the proposed block, as its sender signed it. -/
def blockHash (m : PrePrepare) : BlockHash := m.signed.content.blockHash

/-- Who signed the proposal. -/
def sender (m : PrePrepare) : MemberId := m.signed.sender

end PrePrepare

namespace ViewChange

/-- The height of a vote. -/
def height (m : ViewChange) : Height := m.signed.content.height

/-- The view a vote asks for. -/
def view (m : ViewChange) : View := m.signed.content.view

/-- Who signed the vote. -/
def sender (m : ViewChange) : MemberId := m.signed.sender

end ViewChange

namespace Message

/-- The height a message belongs to. -/
def height : Message → Height
  | .prePrepare m => m.signed.content.height
  | .prepare m => m.content.height
  | .commit m => m.content.height
  | .viewChange m => m.signed.content.height
  | .newView m => m.signed.content.height

/-- The view a message belongs to. -/
def view : Message → View
  | .prePrepare m => m.signed.content.view
  | .prepare m => m.content.view
  | .commit m => m.content.view
  | .viewChange m => m.signed.content.view
  | .newView m => m.signed.content.view

/-- The member a message claims to be from. -/
def sender : Message → MemberId
  | .prePrepare m => m.signed.sender
  | .prepare m => m.sender
  | .commit m => m.sender
  | .viewChange m => m.signed.sender
  | .newView m => m.signed.sender

/-- The kind of a message. -/
def kind : Message → MessageKind
  | .prePrepare _ => .prePrepare
  | .prepare _ => .prepare
  | .commit _ => .commit
  | .viewChange _ => .viewChange
  | .newView _ => .newView

end Message

/-! ## Proofs -/

namespace PreparedProof

/-- The view in which the block was prepared. -/
def view (p : PreparedProof) : Option View := p.prePrepare.map (·.content.view)

/-- The hash of the prepared block. -/
def blockHash (p : PreparedProof) : Option BlockHash := p.prePrepare.map (·.content.blockHash)

end PreparedProof

/-- A stored proposal together with the votes that made it prepared. -/
structure Prepared where
  prePrepare : PrePrepare
  prepares : List (Signed PrepareContent)
  deriving DecidableEq

/-- The certificate of a committed block: a quorum of commits for one height, view
and hash, and the signature that their seed shares add up to. -/
structure BlockProof where
  height : Height
  view : View
  blockHash : BlockHash
  commits : List (Signed CommitContent)
  seedSignature : Signature
  deriving DecidableEq

/-- The seed of the height after the proven block: the first eight bytes of the
digest of the seed signature, low byte first. -/
def BlockProof.nextSeed (p : BlockProof) : Seed :=
  match Codec.readWord 8 (Sha256.hash p.seedSignature).bytes with
  | some (seed, _) => seed
  | none => 0

/-- A block that consensus committed, with its certificate. -/
structure Decision where
  height : Height
  view : View
  block : Block
  proof : BlockProof
  deriving DecidableEq

/-- The seed shares that a list of commits carries, each beside the
member it comes from, in order. -/
def seedShares (commits : List (Signed CommitContent)) : List (MemberId × Signature) :=
  commits.map fun commit => (commit.sender, commit.content.seedShare)

end CommitteeConsensus
