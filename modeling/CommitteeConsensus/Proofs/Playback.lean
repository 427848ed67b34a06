import CommitteeConsensus.Proofs.Orderly

/-!
# Runs that can be played

A statement about all runs is worth as much as there are runs that it applies to.  Here a
list of inputs is played to a fresh term (`Term.play`).  An input that the caller may not
give at its turn is left out, and so is one that the term does not survive.  Hence
whatever the list is, a run comes out of it, even one with a host that does its work
(`Term.served_play`), and how that run looks is a matter of evaluation.

`Assembly.proposalBy` and the definitions after it are the messages that the members of
`Assembly.sample` would send about the one block that they know of.
-/

namespace CommitteeConsensus

namespace Term

variable (t : Term) (past : Past)

/-! ## Promises that can be checked -/

instance : DecidablePred (t.Permits past)
  | .start => inferInstanceAs (Decidable True)
  | .message m => inferInstanceAs (Decidable (m.height = t.height ∧ m.sender ≠ t.me))
  | .event (.electionTimeout _) => inferInstanceAs (Decidable True)
  | .event (.proposalBuilt _ _) => inferInstanceAs (Decidable True)
  | .event (.validationFinished m _) =>
    inferInstanceAs (Decidable (.validateProposal m ∈ past.requests))

instance : DecidablePred (Serves past)
  | .start => inferInstanceAs (Decidable (past.progress.view = 0))
  | .message _ => inferInstanceAs (Decidable True)
  | .event (.electionTimeout _) => inferInstanceAs (Decidable True)
  | .event (.proposalBuilt view _) =>
    inferInstanceAs (Decidable (.buildProposal view ∈ past.requests))
  | .event (.validationFinished _ valid) => inferInstanceAs (Decidable (valid = true))

/-- Whether an input is survived, and what comes of it, can be seen. -/
instance (result : Except Fault Step) (P : Step → Prop) [DecidablePred P] :
    Decidable (∃ step, result = .ok step ∧ P step) :=
  match result with
  | .ok step => decidable_of_iff (P step)
    ⟨fun h => ⟨step, rfl, h⟩, fun ⟨_, heq, h⟩ => Except.ok.inj heq ▸ h⟩
  | .error _ => .isFalse fun ⟨_, heq, _⟩ => nomatch heq

/-! ## Playing inputs -/

/-- The past after one more input, if it may be given and is survived. -/
def offer (stimulus : Stimulus) : Past :=
  if t.Permits past stimulus ∧ Serves past stimulus then
    match t.react past.progress stimulus with
    | .ok step => past.after stimulus step
    | .error _ => past
  else past

/-- The past after the inputs of a list. -/
def play (script : List Stimulus) : Past := script.foldl t.offer .fresh

variable {t past}

theorem Served.offer (h : t.Served past) (stimulus : Stimulus) :
    t.Served (t.offer past stimulus) := by
  rw [Term.offer]
  split
  · next hallowed =>
    split
    · next step hreact => exact .step h hallowed.1 hallowed.2 hreact
    · exact h
  · exact h

/-- **What is played is a run**, with a host that does its work. -/
theorem served_play (script : List Stimulus) : t.Served (t.play script) := by
  rw [play]
  suffices hfrom : ∀ past, t.Served past → t.Served (script.foldl t.offer past) from
    hfrom .fresh .fresh
  induction script with
  | nil =>
    intro past hpast
    exact hpast
  | cons stimulus rest ih =>
    intro past hpast
    exact ih _ (hpast.offer stimulus)

theorem run_play (script : List Stimulus) : t.Run (t.play script) :=
  (served_play script).run

end Term

/-! ## What the members of the sample would say -/

namespace Assembly

/-- Member `i` proposes the block in a view. -/
def proposalBy (i : MemberId) (view : View) : PrePrepare :=
  (plainKeys i).prePrepare 1 view sampleBlock.1 sampleBlock.2

/-- Member `i` votes for the block in a view. -/
def voteBy (i : MemberId) (view : View) : Message :=
  .prepare ((plainKeys i).prepare 1 view sampleBlock.2)

/-- Member `i` asks for a view, and has nothing prepared. -/
def requestBy (i : MemberId) (view : View) : ViewChange := (plainKeys i).viewChange 1 view none

end Assembly

end CommitteeConsensus
