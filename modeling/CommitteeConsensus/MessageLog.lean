import CommitteeConsensus.Message.Basic

/-!
# The message log

The log keeps the messages that count: proposals, votes, commits and requests for a
change of view.  The first message with a key wins, and a later one with the same
key changes nothing.  The keys are

* height and view, for a PrePrepare;
* height, view, block hash and sender, for a Prepare and for a Commit;
* height, view and sender, for a ViewChange.

Each kind has a list of its own, kept in the order in which questions want it:
votes by ascending sender, proposals by descending view.  A question about one view
is then a filter, the answer is in order without sorting, and the proposal of the
highest view is the first one.  Messages that differ in height or hash may stand
next to each other in such a list; a filter takes them apart again.

A `store?` function gives the log with the message filed, or `none` when one with
its key is held.  A `Call` has one case for each thing that can be done with a log.
-/

namespace CommitteeConsensus

/-- Puts `a` in front of the first element that belongs behind it. -/
def placeBefore {α : Type} (before : α → α → Bool) (a : α) : List α → List α
  | [] => [a]
  | b :: rest => if before a b then a :: b :: rest else b :: placeBefore before a rest

/-- Files `a` in its place, unless an element with the same key is there. -/
def fileFirst? {α : Type} (sameKey before : α → α → Bool) (a : α) (held : List α) :
    Option (List α) :=
  if held.any (sameKey a) then none else some (placeBefore before a held)

/-- Inserts a number into an ascending list without repetitions. -/
def insertAscending (n : Nat) : List Nat → List Nat
  | [] => [n]
  | m :: rest =>
    if n < m then n :: m :: rest else if n = m then m :: rest else m :: insertAscending n rest

/-- The messages that a member holds, of every height it works on. -/
structure MessageLog where
  /-- Proposals, the highest view first. -/
  prePrepares : List PrePrepare
  /-- Votes by ascending sender. -/
  prepares : List (Signed PrepareContent)
  /-- Commits by ascending sender. -/
  commits : List (Signed CommitContent)
  /-- Requests for a view by ascending sender. -/
  viewChanges : List ViewChange
  deriving DecidableEq

namespace MessageLog

/-- The log that holds nothing. -/
def empty : MessageLog := ⟨[], [], [], []⟩

/-! ## Filing -/

/-- Files a proposal under its height and view. -/
def storePrePrepare? (log : MessageLog) (m : PrePrepare) : Option MessageLog :=
  (fileFirst? (fun a b => a.height == b.height && a.view == b.view)
    (fun a b => b.view < a.view) m log.prePrepares).map ({ log with prePrepares := · })

/-- Files a vote under its height, view, block hash and sender. -/
def storePrepare? (log : MessageLog) (m : Signed PrepareContent) : Option MessageLog :=
  (fileFirst?
    (fun a b => a.content.height == b.content.height && a.content.view == b.content.view &&
      a.content.blockHash == b.content.blockHash && a.sender == b.sender)
    (fun a b => a.sender < b.sender) m log.prepares).map ({ log with prepares := · })

/-- Files a commit under its height, view, block hash and sender. -/
def storeCommit? (log : MessageLog) (m : Signed CommitContent) : Option MessageLog :=
  (fileFirst?
    (fun a b => a.content.height == b.content.height && a.content.view == b.content.view &&
      a.content.blockHash == b.content.blockHash && a.sender == b.sender)
    (fun a b => a.sender < b.sender) m log.commits).map ({ log with commits := · })

/-- Files a request for a view under its height, view and sender. -/
def storeViewChange? (log : MessageLog) (m : ViewChange) : Option MessageLog :=
  (fileFirst? (fun a b => a.height == b.height && a.view == b.view && a.sender == b.sender)
    (fun a b => a.sender < b.sender) m log.viewChanges).map ({ log with viewChanges := · })

/-- Files a message of any kind.  A NewView has no place in the log. -/
def store? (log : MessageLog) : Message → Option MessageLog
  | .prePrepare m => log.storePrePrepare? m
  | .prepare m => log.storePrepare? m
  | .commit m => log.storeCommit? m
  | .viewChange m => log.storeViewChange? m
  | .newView _ => none

/-- Files a vote and forgets whether it was new. -/
def withPrepare (log : MessageLog) (m : Signed PrepareContent) : MessageLog :=
  (log.storePrepare? m).getD log

/-- Files a commit and forgets whether it was new. -/
def withCommit (log : MessageLog) (m : Signed CommitContent) : MessageLog :=
  (log.storeCommit? m).getD log

/-- Files a request for a view and forgets whether it was new. -/
def withViewChange (log : MessageLog) (m : ViewChange) : MessageLog :=
  (log.storeViewChange? m).getD log

/-! ## Questions -/

/-- The proposal of a view. -/
def prePrepare? (log : MessageLog) (height : Height) (view : View) : Option PrePrepare :=
  log.prePrepares.find? fun m => m.height == height && m.view == view

/-- The proposal of the highest view of a height. -/
def latestPrePrepare? (log : MessageLog) (height : Height) : Option PrePrepare :=
  log.prePrepares.find? fun m => m.height == height

/-- The votes of a view for one block, by ascending sender. -/
def preparesFor (log : MessageLog) (height : Height) (view : View) (hash : BlockHash) :
    List (Signed PrepareContent) :=
  log.prepares.filter fun m =>
    m.content.height == height && m.content.view == view && m.content.blockHash == hash

/-- The commits of a view to one block, by ascending sender. -/
def commitsFor (log : MessageLog) (height : Height) (view : View) (hash : BlockHash) :
    List (Signed CommitContent) :=
  log.commits.filter fun m =>
    m.content.height == height && m.content.view == view && m.content.blockHash == hash

/-- Who voted in a view for one block, ascending. -/
def prepareSenders (log : MessageLog) (height : Height) (view : View) (hash : BlockHash) :
    List MemberId :=
  (log.preparesFor height view hash).map (·.sender)

/-- Who committed in a view to one block, ascending. -/
def commitSenders (log : MessageLog) (height : Height) (view : View) (hash : BlockHash) :
    List MemberId :=
  (log.commitsFor height view hash).map (·.sender)

/-- Whether a member has voted in a view, for whatever block. -/
def hasPrepareFrom (log : MessageLog) (height : Height) (view : View) (member : MemberId) : Bool :=
  log.prepares.any fun m =>
    m.content.height == height && m.content.view == view && m.sender == member

/-- Whether a member has committed in a view, to whatever block. -/
def hasCommitFrom (log : MessageLog) (height : Height) (view : View) (member : MemberId) : Bool :=
  log.commits.any fun m =>
    m.content.height == height && m.content.view == view && m.sender == member

/-- The requests for a view, by ascending sender. -/
def viewChangesFor (log : MessageLog) (height : Height) (view : View) : List ViewChange :=
  log.viewChanges.filter fun m => m.height == height && m.view == view

/-- The proposal `m` with the first `votes` votes for it, if there are as many. -/
def preparedBy? (log : MessageLog) (votes : Nat) (m : PrePrepare) : Option Prepared :=
  let prepares := log.preparesFor m.height m.view m.blockHash
  if votes ≤ prepares.length then some ⟨m, prepares.take votes⟩ else none

/-- The proposal of the highest view of a height that gathered a quorum, the leader
counted in, together with one vote less than a quorum. -/
def prepared? (log : MessageLog) (height : Height) (quorum : Nat) : Option Prepared :=
  (log.prePrepares.filter (·.height == height)).findSome? (log.preparedBy? (quorum - 1))

/-- The heights of all messages held, ascending and each once. -/
def heights (log : MessageLog) : List Height :=
  (log.prePrepares.map (·.height) ++ log.prepares.map (·.content.height) ++
    log.commits.map (·.content.height) ++ log.viewChanges.map (·.height)).foldr
      insertAscending []

/-! ## Forgetting -/

/-- Keeps the messages of the heights that `keep` picks. -/
def restrict (log : MessageLog) (keep : Height → Bool) : MessageLog where
  prePrepares := log.prePrepares.filter fun m => keep m.height
  prepares := log.prepares.filter fun m => keep m.content.height
  commits := log.commits.filter fun m => keep m.content.height
  viewChanges := log.viewChanges.filter fun m => keep m.height

/-- Drops the messages of one height. -/
def clear (log : MessageLog) (height : Height) : MessageLog := log.restrict (· != height)

/-- Drops the messages of every lower height. -/
def clearBelow (log : MessageLog) (height : Height) : MessageLog :=
  log.restrict (height ≤ ·)

/-! ## Calls -/

/-- What can be done with a log. -/
inductive Call where
  | store (message : Message)
  | clear (height : Height)
  | clearBelow (height : Height)
  | prePrepare (height : Height) (view : View)
  | latestPrePrepare (height : Height)
  | prepares (height : Height) (view : View) (hash : BlockHash)
  | prepareSenders (height : Height) (view : View) (hash : BlockHash)
  | commits (height : Height) (view : View) (hash : BlockHash)
  | commitSenders (height : Height) (view : View) (hash : BlockHash)
  | hasPrepareFrom (height : Height) (view : View) (member : MemberId)
  | hasCommitFrom (height : Height) (view : View) (member : MemberId)
  | viewChanges (height : Height) (view : View)
  | prepared (height : Height) (quorum : Nat)
  | heights

/-- What a call is answered with. -/
def Call.Answer : Call → Type
  | .store _ | .hasPrepareFrom _ _ _ | .hasCommitFrom _ _ _ => Bool
  | .clear _ | .clearBelow _ => Unit
  | .prePrepare _ _ | .latestPrePrepare _ => Option PrePrepare
  | .prepares _ _ _ => List (Signed PrepareContent)
  | .commits _ _ _ => List (Signed CommitContent)
  | .prepareSenders _ _ _ | .commitSenders _ _ _ => List MemberId
  | .viewChanges _ _ => List ViewChange
  | .prepared _ _ => Option Prepared
  | .heights => List Height

/-- The answer of a log. -/
def answer (log : MessageLog) : (call : Call) → call.Answer
  | .store m => (log.store? m).isSome
  | .clear _ | .clearBelow _ => ()
  | .prePrepare height view => log.prePrepare? height view
  | .latestPrePrepare height => log.latestPrePrepare? height
  | .prepares height view hash => log.preparesFor height view hash
  | .prepareSenders height view hash => log.prepareSenders height view hash
  | .commits height view hash => log.commitsFor height view hash
  | .commitSenders height view hash => log.commitSenders height view hash
  | .hasPrepareFrom height view member => log.hasPrepareFrom height view member
  | .hasCommitFrom height view member => log.hasCommitFrom height view member
  | .viewChanges height view => log.viewChangesFor height view
  | .prepared height quorum => log.prepared? height quorum
  | .heights => log.heights

/-- The log after a call. -/
def after (log : MessageLog) : Call → MessageLog
  | .store m => (log.store? m).getD log
  | .clear height => log.clear height
  | .clearBelow height => log.clearBelow height
  | _ => log

end MessageLog

end CommitteeConsensus
