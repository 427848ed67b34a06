import CommitteeConsensus.Proofs.Discipline

/-!
# No vote without a warrant

A member votes for a proposal of another member, or commits to one, only if its host found
the proposal valid while the member was in the view of the proposal (`Term.Vetted`).  And
above the first view the proposal had a warrant: it came inside of the opening of its
view, signed by the leader, with the requests of a quorum that leave no other choice
(`Term.Warrants`).

No handler checks this.  What the host is asked to validate comes in a PrePrepare or in
a NewView, and a PrePrepare is looked at whatever its view is, as long as the member is in
that view and waits for a proposal.  That it waits for one in the first view only is a
fact about runs: a higher view is entered without a proposal, and the member is not said to
collect votes there before it has accepted one (`Standing.view_eq_zero`).  Nor does the
result of a validation say which proposal the member had in mind; it names one that the
host was asked about at some time, of the view that the member is in.  So the warrant is
tied to the request to validate, not to the result (`Trace.introduced`).

From there on the proof follows the proposal.  What is filed was proposed by the member
itself or has just been found valid (`Act.filed`), what was found valid once stays so as
the run goes on (`Vetted.onward`), and whoever votes or commits holds the proposal.
-/

namespace CommitteeConsensus

namespace Term

variable {t : Term} {p q : Progress} {rs : List Request} {stimulus : Stimulus} {past : Past}
  {step : Step} {m b : PrePrepare}

/-! ## The course of a run -/

/-- A run goes on from one past to another, if only by nothing at all. -/
inductive Onward (t : Term) (past : Past) : Past → Prop where
  | here : Onward t past past
  | step {later : Past} {stimulus : Stimulus} {step : Step} (onward : Onward t past later)
    (permits : t.Permits later stimulus)
    (react : t.react later.progress stimulus = .ok step) :
    Onward t past (later.after stimulus step)

/-! ## Warrants -/

/-- The opening of a view is a warrant for its proposal: it is signed by the leader of the
view, a quorum of distinct members asked for the view, and the highest prepared proof
among their requests, if there is one, is for the proposed block. -/
structure Warrants (t : Term) (n : NewView) (m : PrePrepare) : Prop where
  carries : n.prePrepare = m
  view : n.signed.content.view = m.view
  height : n.signed.content.height = t.height
  sender : n.signed.sender = t.committee.leader m.view
  verifies : n.signed.verifies t.keys = true
  quorum : t.committee.quorum ≤ n.signed.content.confirmations.length
  distinct : (n.signed.content.confirmations.map (·.sender)).Nodup
  accepted : ∀ vote ∈ n.signed.content.confirmations, vote.sender ∈ t.committee.members ∧
    t.committee.acceptsVote t.keys t.height m.view vote = true
  highest : ∀ proof, highestPreparedProof n.signed.content.confirmations = some proof →
    proof.blockHash = some m.blockHash

/-- What passes the checks of an opening is a warrant. -/
theorem warrants_of_admits {n : NewView} (admits : t.admitsNewView n = true) :
    t.Warrants n n.prePrepare := by
  obtain ⟨⟨⟨hheight, hsender, hsigned⟩, hadm⟩, hjustified, hobliges⟩ := admitsNewView_iff.1 admits
  obtain ⟨⟨hview, -⟩, -⟩ := admitsProposal_iff.1 hadm
  refine ⟨rfl, hview.symm, hheight, hview ▸ hsender, hsigned, hjustified.enough,
    hjustified.nodup, fun vote hvote => ?_, fun proof hproof => ?_⟩
  · have hasked := hjustified.asked vote hvote
    rw [← hview] at hasked
    exact ⟨hasked.mem, (Committee.acceptsVote_iff t.keys).2 hasked⟩
  · -- a highest proof claims a view, and with it a block
    obtain ⟨-, c, hc, -⟩ := exists_of_highestPreparedProof hproof
    have hhash : proof.blockHash = some c.content.blockHash := by
      rw [PreparedProof.blockHash, hc]
      rfl
    rw [hhash, hobliges c.content.blockHash]
    rw [hproof]
    exact hhash

/-- How a proposal reached the term: as a plain one of the first view, or with a warrant. -/
def Introduced (t : Term) (past : Past) (m : PrePrepare) : Prop :=
  (m.view = 0 ∧ .message (.prePrepare m) ∈ past.taken) ∨
    ∃ n, .message (.newView n) ∈ past.taken ∧ t.Warrants n m

theorem Introduced.before {later : Past} (h : t.Introduced past m) (hb : past.Before later) :
    t.Introduced later m := by
  rcases h with ⟨hview, htaken⟩ | ⟨n, htaken, hwarrants⟩
  · exact Or.inl ⟨hview, hb.taken htaken⟩
  · exact Or.inr ⟨n, hb.taken htaken, hwarrants⟩

/-- **What is validated was introduced.** -/
theorem Trace.introduced (h : t.Trace past) (hm : .validateProposal m ∈ past.requests) :
    t.Introduced past m := by
  induction h with
  | fresh => exact absurd hm List.not_mem_nil
  | @act past stimulus rs q trace permits rest act ih =>
    rcases List.mem_append.1 hm with hold | hnew
    · exact (ih hold).before act.before
    · have htaken : stimulus ∈ (past.acted stimulus rs q).taken :=
        List.mem_append_right _ List.mem_cons_self
      rcases act.validates hnew with ⟨rfl, -⟩ | ⟨n, rfl, rfl, hadm⟩
      · refine Or.inl ⟨?_, htaken⟩
        have hstanding := trace.standing
        have hplaced := trace.placed
        generalize past.progress = p at act hstanding hplaced
        cases act with
        | ignore => exact absurd hnew List.not_mem_nil
        | examine view phase idle vacant =>
          rw [view] at vacant ⊢
          exact hstanding.view_eq_zero hplaced phase vacant
      · exact Or.inr ⟨n, htaken, warrants_of_admits hadm⟩
  | consequence trace consequence ih =>
    rcases List.mem_append.1 hm with hold | hnew
    · exact (ih hold).before consequence.before
    · exact absurd hnew consequence.not_validates

/-! ## Proposals that were found valid -/

/-- A proposal of the leader of its view, for its block, that the host found valid while the
term was in that view. -/
structure Vetted (t : Term) (past : Past) (m : PrePrepare) : Prop where
  height : m.height = t.height
  sender : m.sender = t.committee.leader m.view
  verifies : m.signed.verifies t.keys = true
  fits : t.Fits m.block m.blockHash
  validated : ∃ earlier step, (t.Run earlier ∧ earlier.progress.view = m.view) ∧
    t.Introduced earlier m ∧
    t.react earlier.progress (.event (.validationFinished m true)) = .ok step ∧
      t.Onward (earlier.after (.event (.validationFinished m true)) step) past

/-- What was found valid stays so. -/
theorem Vetted.onward (h : t.Vetted past m) (permits : t.Permits past stimulus)
    (react : t.react past.progress stimulus = .ok step) :
    t.Vetted (past.after stimulus step) m := by
  obtain ⟨earlier, valid, hview, hintroduced, hvalid, honward⟩ := h.validated
  exact ⟨h.height, h.sender, h.verifies, h.fits, earlier, valid, hview, hintroduced, hvalid,
    honward.step permits react⟩

/-- The host finds a proposal valid that the term is waiting for. -/
theorem Run.vetted (run : t.Run past)
    (permits : t.Permits past (.event (.validationFinished m true)))
    (react : t.react past.progress (.event (.validationFinished m true)) = .ok step)
    (view : m.view = past.progress.view) :
    t.Vetted (past.after (.event (.validationFinished m true)) step) m := by
  obtain ⟨hadm, -⟩ := run.trace.examined permits
  obtain ⟨⟨-, hproposed⟩, hfits⟩ := admitsProposal_iff.1 hadm
  exact ⟨hproposed.height_eq, hproposed.sender_eq, hproposed.signed, hfits, past, step,
    ⟨run, view.symm⟩, run.trace.introduced permits, react, .here⟩

theorem Consequences.filed (h : t.Consequences p rs q) (hb : b ∈ q.log.prePrepares) :
    b ∈ p.log.prePrepares ∨ t.leads b.view = true := by
  induction h with
  | none p => exact Or.inl hb
  | more first _ ih =>
    rcases ih hb with hb | hleads
    · exact (first.filed hb).imp_right And.right
    · exact Or.inr hleads

/-- **The proposals of others were found valid.** -/
theorem Run.vetted_of_filed (h : t.Run past) (hb : b ∈ past.progress.log.prePrepares)
    (follows : t.leads b.view = false) : t.Vetted past b := by
  induction h with
  | fresh => exact absurd hb List.not_mem_nil
  | @step past stimulus s run permits react ih =>
    obtain ⟨⟨p, rs, rs', hact, hc, -⟩, -⟩ := react_cases (run.trace.validated permits) react
    have hown : t.leads b.view ≠ true := by
      rw [follows]
      simp
    rcases hc.filed hb with hb | hleads
    · rcases hact.filed hb with hold | ⟨-, hleads | ⟨rfl, hview⟩⟩
      · exact (ih hold).onward permits react
      · exact absurd hleads hown
      · exact run.vetted permits react hview
    · exact absurd hleads hown

/-! ## Votes -/

/-- A plain proposal of a view above the first is not looked at. -/
theorem Run.ignores_of_plain (run : t.Run past) (hzero : m.view ≠ 0)
    (permits : t.Permits past (.message (.prePrepare m)))
    (react : t.react past.progress (.message (.prePrepare m)) = .ok step) :
    step.progress = past.progress ∧ step.requests = [] := by
  obtain ⟨⟨p, rs, rs', hact, hc, hrs⟩, -⟩ := react_cases (run.trace.validated permits) react
  have hstanding := run.trace.standing
  have hplaced := run.trace.placed
  have hrest := run.atRest
  generalize past.progress = p₀ at hact hstanding hplaced hrest ⊢
  cases hact with
  | ignore =>
    -- a term at rest draws no consequences
    cases hc with
    | none => exact ⟨rfl, hrs⟩
    | more first => exact absurd first hrest.not_consequence
  | examine view phase idle vacant =>
    rw [view] at vacant hzero
    exact absurd (hstanding.view_eq_zero hplaced phase vacant) hzero

/-- **No vote without a warrant.**  Whenever a member sends a vote, or a commit in a view that
it does not lead, it holds a proposal of that view and hash that its host found valid,
then or before, while the member was in that view; and above the first view this proposal
came with a warrant.  A plain proposal of a view above the first comes to nothing. -/
theorem Run.votes_warranted (run : t.Run past) (permits : t.Permits past stimulus)
    (react : t.react past.progress stimulus = .ok step) :
    (∀ recipients s, .send recipients (.prepare s) ∈ step.requests →
      ∃ m, (m.view = s.content.view ∧ m.blockHash = s.content.blockHash) ∧
        t.Vetted (past.after stimulus step) m) ∧
    (∀ recipients s, .send recipients (.commit s) ∈ step.requests →
      t.leads s.content.view = false →
        ∃ m, (m.view = s.content.view ∧ m.blockHash = s.content.blockHash) ∧
          t.Vetted (past.after stimulus step) m) ∧
    ∀ m, stimulus = .message (.prePrepare m) → m.view ≠ 0 →
      step.progress = past.progress ∧ step.requests = [] := by
  have hrun := run.step permits react
  -- whoever speaks for a hash holds the proposal
  have hvetted : ∀ view hash, step.progress.log.Holds view hash → t.leads view = false →
      ∃ m, (m.view = view ∧ m.blockHash = hash) ∧ t.Vetted (past.after stimulus step) m := by
    rintro view hash ⟨m, hm, rfl, rfl⟩ hfollows
    exact ⟨m, ⟨rfl, rfl⟩, hrun.vetted_of_filed hm hfollows⟩
  refine ⟨fun recipients s hs => ?_, fun recipients s hs hfollows => ?_, ?_⟩
  · have hsent : .send recipients (.prepare s) ∈ (past.after stimulus step).requests :=
      List.mem_append_right _ hs
    have hmeant : t.Meant step.progress (.prepare s.content) :=
      hrun.trace.meant (Or.inl ⟨_, ⟨recipients, hsent⟩, List.mem_cons_self⟩)
    obtain ⟨-, hfollows⟩ := hrun.trace.record.role _ (Past.mem_messages.2 ⟨recipients, hsent⟩)
    exact hvetted _ _ hmeant hfollows
  · have hsent : .send recipients (.commit s) ∈ (past.after stimulus step).requests :=
      List.mem_append_right _ hs
    have hmeant : t.Meant step.progress (.commit s.content) :=
      hrun.trace.meant (Or.inl ⟨_, ⟨recipients, hsent⟩, List.mem_cons_self⟩)
    exact hvetted _ _ hmeant.holds hfollows
  · rintro m rfl hzero
    exact run.ignores_of_plain hzero permits react

/-- The second member has opened view `1`, and the fourth one has heard of it. -/
def openedPast : Past :=
  (Assembly.sample.term 3).play [.message (.newView ((Assembly.plainKeys 1).newView 1 1
    (Assembly.proposalBy 1 1) ([0, 1, 2].map fun i => (Assembly.requestBy i 1).signed)))]

/-- The host of the fourth member finds the proposal valid, and the member votes for it. -/
theorem votes_warranted_sample :
    ∃ step, (Assembly.sample.term 3).react openedPast.progress
        (.event (.validationFinished (Assembly.proposalBy 1 1) true)) = .ok step ∧
      .send [0, 1, 2] (Assembly.voteBy 3 1) ∈ step.requests ∧
        ∃ m : PrePrepare, (m.view = 1 ∧ m.blockHash = Assembly.sampleBlock.2) ∧
          (Assembly.sample.term 3).Vetted (openedPast.after
            (.event (.validationFinished (Assembly.proposalBy 1 1) true)) step) m := by
  have hrun : (Assembly.sample.term 3).Run openedPast := run_play _
  have hpermits : (Assembly.sample.term 3).Permits openedPast
      (.event (.validationFinished (Assembly.proposalBy 1 1) true)) := by
    decide +kernel
  obtain ⟨step, hreact, hvote⟩ : ∃ step, (Assembly.sample.term 3).react openedPast.progress
      (.event (.validationFinished (Assembly.proposalBy 1 1) true)) = .ok step ∧
        .send [0, 1, 2] (Assembly.voteBy 3 1) ∈ step.requests := by
    decide +kernel
  obtain ⟨hprepares, -, -⟩ := Run.votes_warranted hrun hpermits hreact
  exact ⟨step, hreact, hvote, hprepares _ _ hvote⟩

end Term

end CommitteeConsensus
