import CommitteeConsensus.Word

/-!
# Configuration

Consensus is configured by three timeouts and by four limits on what it keeps for
later.  A span of time is a number of nanoseconds; how it is written in seconds is
the concern of `CommitteeConsensus.Config.Seconds`.

Reading a configuration and judging it are apart: a timeout of zero or a limit of
zero can be read and used, and `violations` says that it should not be.
-/

namespace CommitteeConsensus

/-- A span of time in nanoseconds. -/
abbrev Nanoseconds := Nat

/-- How many nanoseconds a second has. -/
def secondNanoseconds : Nanoseconds := 1000000000

/-- How long consensus waits. -/
structure Timeouts where
  /-- The election timeout of view 0; every further view waits twice as long. -/
  electionBase : Nanoseconds
  /-- How long building a block may take. -/
  proposal : Nanoseconds
  /-- How long validating a block may take. -/
  validation : Nanoseconds
  deriving DecidableEq

/-- How much consensus keeps for later. -/
structure Limits where
  /-- How many heights ahead messages are cached. -/
  heightsAhead : Nat
  /-- How many cached messages one sender may have. -/
  perSender : Nat
  /-- How many messages may be cached in all. -/
  total : Nat
  /-- How many views ahead votes are kept. -/
  viewsAhead : Nat
  deriving DecidableEq

/-- The configuration of consensus. -/
structure Config where
  timeouts : Timeouts
  limits : Limits
  deriving DecidableEq

/-- Two seconds for an election, one and a half for the work of the host. -/
def Timeouts.standard : Timeouts := ⟨2000000000, 1500000000, 1500000000⟩

/-- Ten heights and ten views ahead, a hundred messages a sender, a thousand in all. -/
def Limits.standard : Limits := ⟨10, 100, 1000, 10⟩

/-- The configuration that a host starts from. -/
def Config.standard : Config := ⟨Timeouts.standard, Limits.standard⟩

/-! ## Parameter names -/

namespace Config

/-- The name of the timeouts within a configuration. -/
def timeoutsName : String := "timeouts"

/-- The name of the limits within a configuration. -/
def limitsName : String := "future_msg_limit"

end Config

/-- The timeouts by name, in order, each with its description. -/
def Timeouts.parameters (t : Timeouts) : List (String × Nanoseconds × String) :=
  [("election_base_timeout", t.electionBase,
      "The election timeout (seconds) of view 0, doubled on every view change."),
    ("proposal_timeout", t.proposal,
      "The maximum time (seconds) a block proposal request may take."),
    ("validation_timeout", t.validation,
      "The maximum time (seconds) the validation of a proposed block may take.")]

/-- The limits by name, in order, each with its description. -/
def Limits.parameters (l : Limits) : List (String × Nat × String) :=
  [("future_height_limit", l.heightsAhead, "How many heights in the future should we cache."),
    ("per_sender_limit", l.perSender,
      "How many future messages a single sender may have cached at once."),
    ("total_cached_limit", l.total,
      "How many future messages may be cached at once, across all senders."),
    ("future_view_limit", l.viewsAhead,
      "How many views ahead of the current view the votes of a height are kept.")]

/-! ## Validation -/

/-- A parameter that has a value it should not have. -/
structure Violation where
  path : String
  code : String
  deriving DecidableEq

/-- The timeouts that are zero. -/
def Timeouts.violations (t : Timeouts) : List Violation :=
  (t.parameters.filter (·.2.1 == 0)).map fun p =>
    ⟨p.1, "Duration must be greater than zero"⟩

/-- The limits that are below one. -/
def Limits.violations (l : Limits) : List Violation :=
  (l.parameters.filter (·.2.1 == 0)).map fun p => ⟨p.1, "range"⟩

/-- The same violation, seen from an enclosing configuration. -/
def Violation.within (v : Violation) (name : String) : Violation :=
  { v with path := name ++ "." ++ v.path }

/-- Every parameter of a configuration that has a value it should not have. -/
def Config.violations (c : Config) : List Violation :=
  c.timeouts.violations.map (·.within timeoutsName) ++
    c.limits.violations.map (·.within limitsName)

end CommitteeConsensus
