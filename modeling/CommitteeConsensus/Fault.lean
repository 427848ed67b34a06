import CommitteeConsensus.Word

/-!
# What can go wrong

Two kinds of failure are told apart, because they end different things.

A `HostError` is an answer: a capability that the host supplies did not do its
work.  Consensus carries on after a failed proposal, validation or send; only a
missing committee or a closed input ends it.

A `Fault` is a broken promise between two parts of consensus, or between
consensus and its caller.  Every fault that the library can report is a
constructor here, so that "no fault is reached" is a statement about this type.
The texts of both kinds are each written by one function.
-/

namespace CommitteeConsensus

/-- A failure that the host reports, or that consensus reports to the host. -/
inductive HostError where
  /-- No block could be built. -/
  | blockProposal (detail : String)
  /-- The content of a proposed block was refused. -/
  | blockValidation (detail : String)
  /-- Consensus and the network component of its own node fell out. -/
  | internalNetwork (detail : String)
  /-- The committee of a height is not to be had. -/
  | membership (detail : String)
  /-- Work of the host took too long. -/
  | timeout (work : String)
  deriving DecidableEq, Repr

/-- The text of a host error. -/
def HostError.message : HostError → String
  | .blockProposal detail => "Block proposal failed: " ++ detail
  | .blockValidation detail => "Block validation failed: " ++ detail
  | .internalNetwork detail => detail
  | .membership detail => "Failed to get the committee: " ++ detail
  | .timeout work => work ++ " timed out"

/-- A broken promise.  Each constructor names the promise that did not hold. -/
inductive Fault where
  /-- A quorum or a leader of no members was asked for. -/
  | emptyCommittee
  /-- The host answered a height with no members. -/
  | emptyCommitteeOf (height : Height)
  /-- There is no height after the largest one. -/
  | heightOverflow
  /-- A height was to be started that is not above the active one. -/
  | heightNotIncreasing (current asked : Height)
  /-- The message filter was to go back to a lower height. -/
  | heightDecreasing (current asked : Height)
  /-- A message of another height was given to a term. -/
  | foreignMessage
  /-- A new view waiting for its block was kept beyond its view. -/
  | staleNewView
  /-- There is no view after the largest one. -/
  | viewOverflow
  /-- A term was to move to a view that is not above its own. -/
  | viewNotIncreasing (current asked : View)
  /-- One term decided two times. -/
  | decidedTwice
  /-- A request was executed without an active term. -/
  | noActiveTerm
  /-- A sender without cached messages had one to evict. -/
  | nothingToEvict
  /-- A configuration parameter has no written form. -/
  | unwritableParameter (name cause : String)
  deriving DecidableEq, Repr

/-- The text of a fault. -/
def Fault.message : Fault → String
  | .emptyCommittee => "Committee must not be empty"
  | .emptyCommitteeOf height => "Committee of height " ++ toString height ++ " is empty"
  | .heightOverflow => "Block height overflow"
  | .heightNotIncreasing current asked =>
    "Height must increase: " ++ toString current ++ " -> " ++ toString asked
  | .heightDecreasing current asked =>
    "Height must not decrease: " ++ toString current ++ " -> " ++ toString asked
  | .foreignMessage => "Message of another height passed to the term"
  | .staleNewView => "Pending NewView of another view"
  | .viewOverflow => "attempt to add with overflow"
  | .viewNotIncreasing current asked =>
    "View must only increase: " ++ toString current ++ " -> " ++ toString asked
  | .decidedTwice => "Term decided twice"
  | .noActiveTerm => "Requests are only issued by an active term"
  | .nothingToEvict => "Sender has cached messages"
  | .unwritableParameter name cause =>
    "Failed to serialize config parameter " ++ name ++ ": " ++ cause

/-- The first line of a text.  A line ends before a line feed, or before a carriage
return that a line feed follows. -/
def firstLine : List Char → List Char
  | [] => []
  | '\n' :: _ => []
  | '\r' :: '\n' :: _ => []
  | c :: rest => c :: firstLine rest

/-- The first line of the text of a fault.  Only the name of a parameter can bring in
another one. -/
def Fault.headline (fault : Fault) : String := String.ofList (firstLine fault.message.toList)

/-- The height after `h`; the largest height has none. -/
def nextHeight (h : Height) : Except Fault Height :=
  match nextHeight? h with
  | some next => .ok next
  | none => .error .heightOverflow

/-- The view after `v`; the largest view has none. -/
def nextView (v : View) : Except Fault View :=
  if v < maxWord then .ok (v + 1) else .error .viewOverflow

theorem nextHeight_of_lt {h : Height} (lt : h < maxWord) : nextHeight h = .ok (h + 1) := by
  simp [nextHeight, nextHeight?, lt]

theorem nextView_of_lt {v : View} (lt : v < maxWord) : nextView v = .ok (v + 1) := if_pos lt

theorem nextView_of_le {v : View} (le : maxWord ≤ v) : nextView v = .error .viewOverflow :=
  if_neg (Nat.not_lt_of_le le)

end CommitteeConsensus
