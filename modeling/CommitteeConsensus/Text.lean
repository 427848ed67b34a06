import CommitteeConsensus.Message.Basic

/-!
# Texts of ids, hashes and blocks

Two texts of a value are told apart.  The short one is for people: a height is its
number, a member is `member_` and its number, a hash is hexadecimal.  The long one
names the type as well and is for logs.
-/

namespace CommitteeConsensus.Text

/-- The short text of a height. -/
def height (h : Height) : String := toString h

/-- The short text of a member. -/
def member (m : MemberId) : String := "member_" ++ toString m

/-- The text of a hash or a signature, short and long. -/
def hexadecimal (bytes : Bytes) : String := "0x" ++ Bytes.toHex bytes

/-- The long text of a height. -/
def longHeight (h : Height) : String := "BlockHeight(" ++ toString h ++ ")"

/-- The long text of a member. -/
def longMember (m : MemberId) : String := "MemberId(" ++ toString m ++ ")"

/-- The numbers of the bytes of a body, separated by commas. -/
def byteNumbers (bytes : Bytes) : String :=
  ", ".intercalate (bytes.map fun b => toString b.toNat)

/-- The long text of a block. -/
def longBlock (b : Block) : String :=
  "Block \x7b height: " ++ longHeight b.height ++ ", body: [" ++ byteNumbers b.body ++ "] \x7d"

/-- The name of a kind of messages. -/
def kind : MessageKind → String
  | .prePrepare => "PrePrepare"
  | .prepare => "Prepare"
  | .commit => "Commit"
  | .viewChange => "ViewChange"
  | .newView => "NewView"

/-- The kind of messages with a name. -/
def kind? (name : String) : Option MessageKind :=
  [MessageKind.prePrepare, .prepare, .commit, .viewChange, .newView].find? (kind · == name)

/-- The hash of the block that a message is about, if it is about one. -/
def subject : Message → Option BlockHash
  | .prePrepare m => some m.blockHash
  | .prepare m => some m.content.blockHash
  | .commit m => some m.content.blockHash
  | .viewChange m => m.signed.content.preparedProof.bind (·.blockHash)
  | .newView m => some m.prePrepare.blockHash

/-- A message in one line: its kind, height and view, and the first four bytes of the
hash of its block. -/
def summary (m : Message) : String :=
  let hash :=
    match subject m with
    | some h => Bytes.toHex (h.bytes.take 4)
    | none => "-"
  kind m.kind ++ " h" ++ toString m.height ++ " v" ++ toString m.view ++ " " ++ hash

end CommitteeConsensus.Text
