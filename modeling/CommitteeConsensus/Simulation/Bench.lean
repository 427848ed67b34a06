import CommitteeConsensus.Simulation.Digests
import CommitteeConsensus.Term.ViewChange

/-!
# A term on its own

A bench runs one term without a controller.  Whoever drives it gives it messages and
events one by one, and sees what it asks for.  The bench remembers the work that was
asked for last, so that it can be given the answer of a simulated host.
-/

namespace CommitteeConsensus.Simulation

/-- A term, with the work it asked for last and was not given the answer to. -/
structure Bench where
  term : Term
  progress : Progress
  /-- The proposal to be validated. -/
  validation : Option PrePrepare
  /-- The view to build a block for. -/
  proposal : Option View

/-- What is done to a term on a bench. -/
inductive Push where
  /-- The term starts. -/
  | start
  | message (message : Message)
  | event (event : Event)
  /-- The last proposal to be validated is found valid or not. -/
  | validate (valid : Bool)
  /-- The last block to be built is the member's sample block. -/
  | propose

namespace Bench

/-- A term that has seen nothing. -/
def fresh (term : Term) : Bench := ⟨term, .initial .empty, none, none⟩

/-- Remembers the work that a request asks for. -/
def note (b : Bench) : Request → Bench
  | .validateProposal m => { b with validation := some m }
  | .buildProposal view => { b with proposal := some view }
  | _ => b

/-- Takes over a step of the term. -/
def take (b : Bench) (step : Step) : Bench :=
  step.requests.foldl note { b with progress := step.progress }

/-- What a push comes to.  An answer that nothing asked for comes to nothing. -/
def push (b : Bench) : Push → Except Fault (Bench × Step)
  | .start => after b (.ok (b.term.start b.progress))
  | .message message => after b (b.term.handleMessage b.progress message)
  | .event event => after b (b.term.handleEvent b.progress event)
  | .validate valid =>
    match b.validation with
    | none => .ok (b, .quiet b.progress)
    | some m =>
      after { b with validation := none }
        (b.term.handleEvent b.progress (.validationFinished m valid))
  | .propose =>
    match b.proposal with
    | none => .ok (b, .quiet b.progress)
    | some view =>
      let block := sampleBlock b.term.height b.term.me
      after { b with proposal := none }
        (b.term.handleEvent b.progress (.proposalBuilt view (some (block, blockHash block))))
where
  after (b : Bench) (step : Except Fault Step) : Except Fault (Bench × Step) :=
    step.map fun step => (b.take step, step)

end Bench

end CommitteeConsensus.Simulation
