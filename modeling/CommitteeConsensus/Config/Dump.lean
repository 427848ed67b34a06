import CommitteeConsensus.Config.Value
import CommitteeConsensus.Fault

/-!
# Dumps of configurations

A dump lists every parameter of a configuration under its path, with its value and a
description.  Parts of a configuration are dumped on their own and then put under the
name of the part.  A path occurs once; the last parameter with a path stays.
-/

namespace CommitteeConsensus

/-- A parameter in a dump. -/
structure Parameter where
  description : String
  content : Value

/-- Parameters by path.  No path occurs two times. -/
abbrev Dump := List (String × Parameter)

namespace Dump

/-- Puts a parameter under a path, in place of another one. -/
def put (path : String) (parameter : Parameter) : Dump → Dump
  | [] => [(path, parameter)]
  | (p, q) :: rest =>
    if p = path then (path, parameter) :: rest else (p, q) :: put path parameter rest

/-- The dump seen from an enclosing configuration. -/
def within (name : String) (dump : Dump) : Dump :=
  dump.map fun entry => (name ++ "." ++ entry.1, entry.2)

end Dump

/-- What a parameter is made of before it is written. -/
inductive Content where
  | plain (value : Value)
  /-- A table whose keys are values of any kind. -/
  | table (entries : List (Value × Value))

/-- Writes a content.  A table is a record if all its keys are texts. -/
def Content.write : Content → Except String Value
  | .plain value => .ok value
  | .table entries => do
    let fields ← entries.mapM fun entry =>
      match entry.1 with
      | .text key => .ok (key, entry.2)
      | _ => .error "key must be a string"
    .ok (.record fields)

/-- Dumps one parameter. -/
def Dump.putContent (name : String) (content : Content) (description : String) (dump : Dump) :
    Except Fault Dump :=
  match content.write with
  | .ok value => .ok (dump.put name ⟨description, value⟩)
  | .error cause => .error (.unwritableParameter name cause)

/-- Dumps parameters. -/
def dumpOf {α : Type} (write : α → Value) (parameters : List (String × α × String)) : Dump :=
  parameters.foldl (fun dump p => dump.put p.1 ⟨p.2.2, write p.2.1⟩) []

/-- Dumps timeouts, in seconds. -/
def Timeouts.dump (t : Timeouts) : Dump := dumpOf .seconds t.parameters

/-- Dumps limits. -/
def Limits.dump (l : Limits) : Dump := dumpOf .nat l.parameters

/-- Dumps a configuration. -/
def Config.dump (c : Config) : Dump :=
  c.timeouts.dump.within timeoutsName ++ c.limits.dump.within limitsName

end CommitteeConsensus
