import CommitteeConsensus.MessageLog
import Std.Data.HashMap
import Std.Data.TreeMap

/-!
# The message store

A message log keeps one list for each kind of message.  A message store keeps the same
messages in maps within maps, so that it goes straight to those that a question is about:
from the height to the messages of this height, there by kind to a view, for votes and
commits on to a block, and at last to the sender.

A map is made when the first message is filed in it, and stays until its height is cleared.
So the heights of a store are those for which a map was made, and whoever asks for them
is told no more than that.

Whoever files a message is told whether its place was free.
-/

namespace CommitteeConsensus

/-! ## Maps -/

/-- A map from numbers, which lists its entries by ascending number. -/
abbrev NumberMap (β : Type) := Std.TreeMap Nat β instOrdNat.compare

instance : Hashable Digest := ⟨fun d => hash d.bytes⟩

/-- The votes of one view, by block and by sender. -/
abbrev VotesByBlock (β : Type) := Std.HashMap BlockHash (NumberMap β)

section Maps

variable {β : Type}

/-- What is in a map, by ascending number. -/
def listed (entries : NumberMap β) : List β := entries.toList.map (·.2)

/-- Puts something in a place that is free. -/
def insertFirst (place : Nat) (b : β) (entries : NumberMap β) : NumberMap β × Bool :=
  if entries.contains place then (entries, false) else (entries.insert place b, true)

/-- Files a vote for a block under its sender, in a map for the block that is made if there is
none. -/
def insertVote (hash : BlockHash) (sender : MemberId) (vote : β) (votes : VotesByBlock β) :
    VotesByBlock β × Bool :=
  let senders := insertFirst sender vote (votes.getD hash ∅)
  (votes.insert hash senders.1, senders.2)

/-- Does something to the map of a view, which is made if there is none. -/
def inView [EmptyCollection β] (view : View) (f : β → β × Bool) (views : NumberMap β) :
    NumberMap β × Bool :=
  let changed := f (views.getD view ∅)
  (views.insert view changed.1, changed.2)

/-- The votes of a view for a block, by ascending sender. -/
def votesOf (views : NumberMap (VotesByBlock β)) (view : View) (hash : BlockHash) : List β :=
  ((views[view]?.bind (·[hash]?)).map listed).getD []

/-- Who voted in a view for a block, ascending. -/
def votersOf (views : NumberMap (VotesByBlock β)) (view : View) (hash : BlockHash) :
    List MemberId :=
  ((views[view]?.bind (·[hash]?)).map (·.keys)).getD []

/-- Whether a member voted in a view, for whatever block. -/
def votedIn (views : NumberMap (VotesByBlock β)) (view : View) (member : MemberId) : Bool :=
  views[view]?.any fun votes => votes.any fun _ senders => senders.contains member

end Maps

/-! ## The messages of a height -/

/-- The messages of one height. -/
structure HeightLog where
  prePrepares : NumberMap PrePrepare
  prepares : NumberMap (VotesByBlock (Signed PrepareContent))
  commits : NumberMap (VotesByBlock (Signed CommitContent))
  viewChanges : NumberMap (NumberMap ViewChange)

namespace HeightLog

/-- No messages. -/
def empty : HeightLog := ⟨∅, ∅, ∅, ∅⟩

/-- Files a proposal under its view. -/
def filePrePrepare (m : PrePrepare) (log : HeightLog) : HeightLog × Bool :=
  let prePrepares := insertFirst m.view m log.prePrepares
  ({ log with prePrepares := prePrepares.1 }, prePrepares.2)

/-- Files a vote under its view, block and sender. -/
def filePrepare (m : Signed PrepareContent) (log : HeightLog) : HeightLog × Bool :=
  let prepares := inView m.content.view (insertVote m.content.blockHash m.sender m) log.prepares
  ({ log with prepares := prepares.1 }, prepares.2)

/-- Files a commit under its view, block and sender. -/
def fileCommit (m : Signed CommitContent) (log : HeightLog) : HeightLog × Bool :=
  let commits := inView m.content.view (insertVote m.content.blockHash m.sender m) log.commits
  ({ log with commits := commits.1 }, commits.2)

/-- Files a request for a view under its view and sender. -/
def fileViewChange (m : ViewChange) (log : HeightLog) : HeightLog × Bool :=
  let viewChanges := inView m.view (insertFirst m.sender m) log.viewChanges
  ({ log with viewChanges := viewChanges.1 }, viewChanges.2)

/-- The proposal of the highest view that gathered `votes` votes, with the first of them. -/
def prepared? (log : HeightLog) (votes : Nat) : Option Prepared :=
  log.prePrepares.toList.reverse.findSome? fun (view, m) =>
    let prepares := votesOf log.prepares view m.blockHash
    if votes ≤ prepares.length then some ⟨m, prepares.take votes⟩ else none

end HeightLog

/-! ## The store -/

/-- The messages that a member holds, by height. -/
structure MessageStore where
  logs : Std.HashMap Height HeightLog

namespace MessageStore

/-- The store that holds nothing. -/
def empty : MessageStore := ⟨∅⟩

/-- Does something to the messages of a height, for which a map is made if there is none. -/
def atHeight (s : MessageStore) (height : Height) (f : HeightLog → HeightLog × Bool) :
    MessageStore × Bool :=
  let log := f (s.logs.getD height .empty)
  (⟨s.logs.insert height log.1⟩, log.2)

/-- Reads from the messages of a height, if there is a map for it. -/
def readHeight {β : Type} (s : MessageStore) (height : Height) (absent : β) (f : HeightLog → β) :
    β := (s.logs[height]?.map f).getD absent

/-- Files a message of any kind.  A NewView has no place in the store. -/
def store (s : MessageStore) : Message → MessageStore × Bool
  | .prePrepare m => s.atHeight m.height (·.filePrePrepare m)
  | .prepare m => s.atHeight m.content.height (·.filePrepare m)
  | .commit m => s.atHeight m.content.height (·.fileCommit m)
  | .viewChange m => s.atHeight m.height (·.fileViewChange m)
  | .newView _ => (s, false)

/-- The proposal of a view. -/
def prePrepare? (s : MessageStore) (height : Height) (view : View) : Option PrePrepare :=
  s.readHeight height none (·.prePrepares[view]?)

/-- The proposal of the highest view of a height. -/
def latestPrePrepare? (s : MessageStore) (height : Height) : Option PrePrepare :=
  s.readHeight height none fun log => (listed log.prePrepares).getLast?

/-- The votes of a view for one block, by ascending sender. -/
def preparesFor (s : MessageStore) (height : Height) (view : View) (hash : BlockHash) :
    List (Signed PrepareContent) :=
  s.readHeight height [] fun log => votesOf log.prepares view hash

/-- Who voted in a view for one block, ascending. -/
def prepareSenders (s : MessageStore) (height : Height) (view : View) (hash : BlockHash) :
    List MemberId :=
  s.readHeight height [] fun log => votersOf log.prepares view hash

/-- The commits of a view to one block, by ascending sender. -/
def commitsFor (s : MessageStore) (height : Height) (view : View) (hash : BlockHash) :
    List (Signed CommitContent) :=
  s.readHeight height [] fun log => votesOf log.commits view hash

/-- Who committed in a view to one block, ascending. -/
def commitSenders (s : MessageStore) (height : Height) (view : View) (hash : BlockHash) :
    List MemberId :=
  s.readHeight height [] fun log => votersOf log.commits view hash

/-- Whether a member has voted in a view, for whatever block. -/
def hasPrepareFrom (s : MessageStore) (height : Height) (view : View) (member : MemberId) : Bool :=
  s.readHeight height false fun log => votedIn log.prepares view member

/-- Whether a member has committed in a view, to whatever block. -/
def hasCommitFrom (s : MessageStore) (height : Height) (view : View) (member : MemberId) : Bool :=
  s.readHeight height false fun log => votedIn log.commits view member

/-- The requests for a view, by ascending sender. -/
def viewChangesFor (s : MessageStore) (height : Height) (view : View) : List ViewChange :=
  s.readHeight height [] fun log => (log.viewChanges[view]?.map listed).getD []

/-- The proposal of the highest view of a height that gathered a quorum, the leader
counted in, together with one vote less than a quorum. -/
def prepared? (s : MessageStore) (height : Height) (quorum : Nat) : Option Prepared :=
  s.readHeight height none (·.prepared? (quorum - 1))

/-- The heights for which there is a map, ascending. -/
def heights (s : MessageStore) : List Height := s.logs.keys.mergeSort

/-- Drops the messages of one height. -/
def clear (s : MessageStore) (height : Height) : MessageStore := ⟨s.logs.erase height⟩

/-- Drops the messages of every lower height. -/
def clearBelow (s : MessageStore) (height : Height) : MessageStore :=
  ⟨s.logs.filter fun held _ => height ≤ held⟩

/-! ## Calls -/

open MessageLog (Call)

/-- The answer of a store. -/
def answer (s : MessageStore) : (call : Call) → call.Answer
  | .store m => (s.store m).2
  | .clear _ | .clearBelow _ => ()
  | .prePrepare height view => s.prePrepare? height view
  | .latestPrePrepare height => s.latestPrePrepare? height
  | .prepares height view hash => s.preparesFor height view hash
  | .prepareSenders height view hash => s.prepareSenders height view hash
  | .commits height view hash => s.commitsFor height view hash
  | .commitSenders height view hash => s.commitSenders height view hash
  | .hasPrepareFrom height view member => s.hasPrepareFrom height view member
  | .hasCommitFrom height view member => s.hasCommitFrom height view member
  | .viewChanges height view => s.viewChangesFor height view
  | .prepared height quorum => s.prepared? height quorum
  | .heights => s.heights

/-- The store after a call. -/
def after (s : MessageStore) : Call → MessageStore
  | .store m => (s.store m).1
  | .clear height => s.clear height
  | .clearBelow height => s.clearBelow height
  | _ => s

end MessageStore

end CommitteeConsensus
