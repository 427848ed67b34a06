import CommitteeConsensus.Message.Basic

/-!
# The binary form of messages

Each structure is the pairing of its fields in order, so its codec is written once
and read off for both directions.  What a member signs is the number of the message
kind followed by the content.  The number is part of what is signed: a PrePrepare
and a Prepare hold the same three fields, and without it a signature under the one
would be a signature under the other.
-/

namespace CommitteeConsensus

namespace Codec

variable {α : Type}

/-- The bytes of a block: height and body. -/
def block : Codec Block :=
  (pair word64 bytes).map (fun p => ⟨p.1, p.2⟩) (fun b => (b.height, b.body))

/-- A signed content: the content, the sender and the signature. -/
def signed (content : Codec α) : Codec (Signed α) :=
  (pair content (pair word64 bytes)).map (fun p => ⟨p.1, p.2.1, p.2.2⟩)
    (fun s => (s.content, s.sender, s.signature))

/-- Height, view and block hash, the fields that most contents begin with. -/
def ballot : Codec (Height × View × BlockHash) := pair word64 (pair word64 digest)

/-- The content of a PrePrepare. -/
def prePrepareContent : Codec PrePrepareContent :=
  ballot.map (fun p => ⟨p.1, p.2.1, p.2.2⟩) (fun c => (c.height, c.view, c.blockHash))

/-- The content of a Prepare. -/
def prepareContent : Codec PrepareContent :=
  ballot.map (fun p => ⟨p.1, p.2.1, p.2.2⟩) (fun c => (c.height, c.view, c.blockHash))

/-- The content of a Commit. -/
def commitContent : Codec CommitContent :=
  (pair ballot bytes).map (fun p => ⟨p.1.1, p.1.2.1, p.1.2.2, p.2⟩)
    (fun c => ((c.height, c.view, c.blockHash), c.seedShare))

/-- A prepared proof. -/
def preparedProof : Codec PreparedProof :=
  (pair (option (signed prePrepareContent)) (list (signed prepareContent))).map
    (fun p => ⟨p.1, p.2⟩) (fun p => (p.prePrepare, p.prepares))

/-- The content of a ViewChange. -/
def viewChangeContent : Codec ViewChangeContent :=
  (pair word64 (pair word64 (option preparedProof))).map (fun p => ⟨p.1, p.2.1, p.2.2⟩)
    (fun c => (c.height, c.view, c.preparedProof))

/-- The content of a NewView. -/
def newViewContent : Codec NewViewContent :=
  (pair word64 (pair word64 (list (signed viewChangeContent)))).map
    (fun p => ⟨p.1, p.2.1, p.2.2⟩) (fun c => (c.height, c.view, c.confirmations))

/-- A PrePrepare: the signed part, then the block. -/
def prePrepare : Codec PrePrepare :=
  (pair (signed prePrepareContent) block).map (fun p => ⟨p.1, p.2⟩)
    (fun m => (m.signed, m.block))

/-- A ViewChange: the signed part, then the block if there is one. -/
def viewChange : Codec ViewChange :=
  (pair (signed viewChangeContent) (option block)).map (fun p => ⟨p.1, p.2⟩)
    (fun m => (m.signed, m.block))

/-- A NewView: the signed part, then its proposal. -/
def newView : Codec NewView :=
  (pair (signed newViewContent) prePrepare).map (fun p => ⟨p.1, p.2⟩)
    (fun m => (m.signed, m.prePrepare))

/-- A block proof. -/
def blockProof : Codec BlockProof :=
  (pair ballot (pair (list (signed commitContent)) bytes)).map
    (fun p => ⟨p.1.1, p.1.2.1, p.1.2.2, p.2.1, p.2.2⟩)
    (fun p => ((p.height, p.view, p.blockHash), p.commits, p.seedSignature))

end Codec

/-- The number of a message kind in the binary form. -/
def MessageKind.tag : MessageKind → Nat
  | .prePrepare => 0
  | .prepare => 1
  | .commit => 2
  | .viewChange => 3
  | .newView => 4

theorem MessageKind.tag_injective {a b : MessageKind} (h : a.tag = b.tag) : a = b := by
  cases a <;> cases b <;> simp_all [tag]

/-- A message: the number of its kind, then its parts. -/
def Codec.message : Codec Message where
  write m := word32.write m.kind.tag ++
    match m with
    | .prePrepare m => prePrepare.write m
    | .prepare m => (signed prepareContent).write m
    | .commit m => (signed commitContent).write m
    | .viewChange m => viewChange.write m
    | .newView m => newView.write m
  read input :=
    match word32.read input with
    | none => none
    | some (0, rest) => prePrepare.readAs Message.prePrepare rest
    | some (1, rest) => (signed prepareContent).readAs Message.prepare rest
    | some (2, rest) => (signed commitContent).readAs Message.commit rest
    | some (3, rest) => viewChange.readAs Message.viewChange rest
    | some (4, rest) => newView.readAs Message.newView rest
    | some _ => none
  Fits
    | .prePrepare m => prePrepare.Fits m
    | .prepare m => (signed prepareContent).Fits m
    | .commit m => (signed commitContent).Fits m
    | .viewChange m => viewChange.Fits m
    | .newView m => newView.Fits m

end CommitteeConsensus
