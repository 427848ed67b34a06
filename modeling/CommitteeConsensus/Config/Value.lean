import CommitteeConsensus.Config.Seconds

/-!
# Configurations as values

A configuration is written as nested records of numbers.  `Value` is the form that it
is read from and written to.  It has everything that a JSON text has, since the
parameters of other components pass through it too.

A record is read by the names of its fields, of which all must be there; a field of
another name is of no interest.  A list with exactly the fields in order is read as
well.
-/

namespace CommitteeConsensus

/-- A value that a configuration is read from. -/
inductive Value where
  | null
  | truth (value : Bool)
  | number (value : Number)
  | text (value : String)
  | list (items : List Value)
  | record (fields : List (String × Value))

namespace Value

/-- A natural number as a value. -/
def nat (n : Nat) : Value := .number (.integer n)

/-- A span of time as a value. -/
def seconds (span : Nanoseconds) : Value := .number (.double (writeSeconds span))

/-- The fields with these names, in order. -/
def fields? (names : List String) : Value → Option (List Value)
  | .record fields => names.mapM fun name => fields.lookup name
  | .list items => if items.length = names.length then some items else none
  | _ => none

/-- Reads a number that fits a word.  A double is refused, be it an integer or not. -/
def word? : Value → Option Nat
  | .number (.integer n) => if 0 ≤ n ∧ n ≤ maxWord then some n.toNat else none
  | _ => none

/-- Reads a span of time in seconds. -/
def span? : Value → Option Nanoseconds
  | .number n => readSeconds? n
  | _ => none

end Value

/-- The names of the parameters of a configuration. -/
def parameterNames {α : Type} (parameters : List (String × α × String)) : List String :=
  parameters.map (·.1)

/-- A record of parameters. -/
def recordOf {α : Type} (write : α → Value) (parameters : List (String × α × String)) : Value :=
  .record (parameters.map fun p => (p.1, write p.2.1))

/-! ## Timeouts -/

/-- Reads timeouts. -/
def Timeouts.ofValue? (value : Value) : Option Timeouts := do
  let fields ← value.fields? (parameterNames Timeouts.standard.parameters)
  match ← fields.mapM Value.span? with
  | [electionBase, proposal, validation] => some ⟨electionBase, proposal, validation⟩
  | _ => none

/-- Writes timeouts. -/
def Timeouts.toValue (t : Timeouts) : Value := recordOf .seconds t.parameters

/-! ## Limits -/

/-- Reads limits. -/
def Limits.ofValue? (value : Value) : Option Limits := do
  let fields ← value.fields? (parameterNames Limits.standard.parameters)
  match ← fields.mapM Value.word? with
  | [heightsAhead, perSender, total, viewsAhead] =>
    some ⟨heightsAhead, perSender, total, viewsAhead⟩
  | _ => none

/-- Writes limits. -/
def Limits.toValue (l : Limits) : Value := recordOf .nat l.parameters

/-! ## Configurations -/

/-- Reads a configuration. -/
def Config.ofValue? (value : Value) : Option Config := do
  match ← value.fields? [timeoutsName, limitsName] with
  | [timeouts, limits] => return ⟨← Timeouts.ofValue? timeouts, ← Limits.ofValue? limits⟩
  | _ => none

/-- Writes a configuration. -/
def Config.toValue (c : Config) : Value :=
  .record [(timeoutsName, c.timeouts.toValue), (limitsName, c.limits.toValue)]

end CommitteeConsensus
