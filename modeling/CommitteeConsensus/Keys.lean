import CommitteeConsensus.Message.Encoding

/-!
# Keys and signatures

A member signs and verifies through a `Keys` record that its host supplies.  The
library says nothing about how it works.  What an argument needs of it, that own
signatures verify or that a correct member's signature cannot be forged, is a
hypothesis on the record, stated where it is used.

Besides messages a member signs its share of the random seed of each height.  A
quorum of shares adds up to the seed signature of a block proof.
-/

namespace CommitteeConsensus

/-- The signing capability of one member. -/
structure Keys where
  /-- The member whose keys these are. -/
  me : MemberId
  /-- Signs bytes. -/
  sign : Bytes → Signature
  /-- Whether a signature of these bytes is by this member. -/
  verify : Bytes → Signature → MemberId → Bool
  /-- Signs the own share of a height's random seed. -/
  signSeed : Height → Seed → Signature
  /-- Whether a share of a height's random seed is by this member. -/
  verifySeed : Height → Seed → Signature → MemberId → Bool
  /-- Adds shares up to the seed signature of a block proof. -/
  aggregate : Height → List (MemberId × Signature) → Signature

/-- A content that members sign: it belongs to one kind of message and has a binary
form. -/
class Signable (α : Type) where
  /-- The kind of message that carries the content. -/
  kind : MessageKind
  /-- The binary form of the content. -/
  codec : Codec α

instance : Signable PrePrepareContent := ⟨.prePrepare, Codec.prePrepareContent⟩

instance : Signable PrepareContent := ⟨.prepare, Codec.prepareContent⟩

instance : Signable CommitContent := ⟨.commit, Codec.commitContent⟩

instance : Signable ViewChangeContent := ⟨.viewChange, Codec.viewChangeContent⟩

instance : Signable NewViewContent := ⟨.newView, Codec.newViewContent⟩

/-- What a member signs under a content: the number of the kind, then the content. -/
def signingBytes {α : Type} [Signable α] (content : α) : Bytes :=
  Codec.word32.write (Signable.kind α).tag ++ Signable.codec.write content

/-- Whether a signed content bears the signature of its sender. -/
def Signed.verifies {α : Type} [Signable α] (keys : Keys) (s : Signed α) : Bool :=
  keys.verify (signingBytes s.content) s.signature s.sender

/-! ## Writing messages

A member's own messages, each a content signed with its keys. -/

namespace Keys

variable (keys : Keys)

/-- Signs a content as the owner of the keys. -/
def endorse {α : Type} [Signable α] (content : α) : Signed α :=
  ⟨content, keys.me, keys.sign (signingBytes content)⟩

/-- Proposes a block. -/
def prePrepare (height : Height) (view : View) (block : Block) (blockHash : BlockHash) :
    PrePrepare :=
  ⟨keys.endorse { height, view, blockHash : PrePrepareContent }, block⟩

/-- Votes for a proposed block. -/
def prepare (height : Height) (view : View) (blockHash : BlockHash) : Signed PrepareContent :=
  keys.endorse { height, view, blockHash : PrepareContent }

/-- Commits to a prepared block, with the own share of the height's seed. -/
def commit (height : Height) (view : View) (blockHash : BlockHash) (seed : Seed) :
    Signed CommitContent :=
  keys.endorse { height, view, blockHash, seedShare := keys.signSeed height seed : CommitContent }

/-- Asks for a view.  What was prepared goes along as a proof and as its block. -/
def viewChange (height : Height) (view : View) (prepared : Option Prepared) : ViewChange :=
  { signed := keys.endorse
      { height, view,
        preparedProof := prepared.map fun p => ⟨some p.prePrepare.signed, p.prepares⟩ :
        ViewChangeContent }
    block := prepared.map (·.prePrepare.block) }

/-- Opens a view. -/
def newView (height : Height) (view : View) (prePrepare : PrePrepare)
    (confirmations : List Confirmation) : NewView :=
  ⟨keys.endorse { height, view, confirmations : NewViewContent }, prePrepare⟩

end Keys

end CommitteeConsensus
