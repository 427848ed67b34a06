import CommitteeConsensus.Proofs.Playback
import CommitteeConsensus.Proofs.Announcements

/-!
# A commit is never forgotten

A member that has committed itself in a view may find itself in a higher one, because its
timer ran out, because the leader of that view opened it, or because a quorum asked the
member itself to open it.  In each of the views to come it may ask for the next one, and
whenever it does, it brings along what it knows: a prepared proof of the view of its
commit or of a higher one, and in the former case for the block that it committed to
(`Run.recalls_commit`).  The safety of view changes rests on this.

There are two counts behind it.  A member commits when it has seen the votes of a quorum
for the proposal of its current view, and it writes a proof when it finds, among the
proposals of all views, the highest one that has the votes of a quorum.  They agree
because the log only grows: what was counted once is counted ever after
(`Trace.meant`), so the search finds the proposal that was committed to, unless it finds
one of a higher view (`Backs.prepared`).

That the proof is accepted is another matter.  The log holds only votes that verified
when they came or that the member signed itself, so all that is asked for is that the
member's keys verify what they sign.
-/

namespace CommitteeConsensus

namespace Term

variable {t : Term} {p q : Progress} {rs : List Request} {stimulus : Stimulus} {past : Past}
  {step : Step}

/-! ## The search for what was prepared -/

/-- What a quorum voted for is found again, or something of a higher view is. -/
theorem Backs.prepared (placed : t.Placed p) {view : View} {hash : BlockHash}
    (backs : t.Backs p.log view hash) :
    ∃ proof, p.log.prepared? t.height t.committee.quorum = some proof ∧
      proof.prePrepare ∈ p.log.prePrepares ∧ view ≤ proof.prePrepare.view ∧
        (proof.prePrepare.view = view → proof.prePrepare.blockHash = hash) := by
  obtain ⟨m, hm, hview, hhash⟩ := backs.holds
  have hvotes := backs.votes
  rw [← hview, ← hhash] at hvotes
  rcases hprepared : p.log.prepared? t.height t.committee.quorum with _ | proof
  · have hfew := MessageLog.prepared?_eq_none hprepared hm (placed.height m hm)
    exact absurd hvotes (Nat.not_le_of_lt hfew)
  · obtain ⟨⟨hmem, -⟩, -, hhighest⟩ := MessageLog.prepared?_eq_some placed.wellFormed hprepared
    refine ⟨proof, rfl, hmem, hview ▸ hhighest m hm (placed.height m hm) hvotes, fun heq => ?_⟩
    -- two proposals of one view are the same one
    exact placed.holds_unique ⟨proof.prePrepare, hmem, heq, rfl⟩ backs.holds

/-! ## How requests for a view come into being -/

/-- A request for a view comes into being with a step.  It is sent, or it is only filed,
because it is the member itself that leads the view. -/
def Creates (t : Term) (past : Past) (step : Step) (m : ViewChange) : Prop :=
  (∃ recipients, .send recipients (.viewChange m) ∈ step.requests) ∨
    (m ∈ step.progress.log.viewChanges ∧ m ∉ past.progress.log.viewChanges) ∧ m.sender = t.me

theorem Consequences.viewChanges_eq (h : t.Consequences p rs q) :
    q.log.viewChanges = p.log.viewChanges := by
  induction h with
  | none p => rfl
  | more first _ ih => rw [ih, first.viewChanges_eq]

/-- No consequence asks for a view. -/
theorem Consequences.not_asks (h : t.Consequences p rs q) {recipients : List MemberId}
    {m : ViewChange} : .send recipients (.viewChange m) ∉ rs := by
  intro hm
  induction h with
  | none p => exact absurd hm List.not_mem_nil
  | more first _ ih =>
    rcases List.mem_append.1 hm with hm | hm
    · exact absurd rfl ((first.sends hm).2.1 m)
    · exact ih hm

/-- A member asks for the view after its current one, with what it has prepared. -/
theorem Run.created_eq (run : t.Run past) (permits : t.Permits past stimulus)
    (react : t.react past.progress stimulus = .ok step) {m : ViewChange}
    (created : t.Creates past step m) : m = t.nextRequest past.progress := by
  obtain ⟨⟨p, rs, rs', hact, hc, hrs⟩, -⟩ := react_cases (run.trace.validated permits) react
  rcases created with ⟨recipients, hm⟩ | ⟨⟨hm, hnew⟩, hme⟩
  · rw [hrs] at hm
    rcases List.mem_append.1 hm with hm | hm
    · exact ((hact.sends hm).2.2 m rfl).1
    · exact absurd hm hc.not_asks
  · rw [hc.viewChanges_eq] at hm
    rcases hact.viewChanges hm with hold | ⟨⟨heq, -⟩, -⟩ | rfl
    · exact absurd hold hnew
    · exact heq
    · exact absurd hme permits.2

/-! ## What the own keys accept -/

/-- The member would accept its own request for a view. -/
theorem Run.created_asked (run : t.Run past)
    (own : ∀ data, t.keys.verify data (t.keys.sign data) t.keys.me = true)
    (permits : t.Permits past stimulus) (react : t.react past.progress stimulus = .ok step)
    {m : ViewChange} (created : t.Creates past step m) :
    t.committee.Asked (Verified t.keys) t.height m.view m.signed := by
  have hrun := run.step permits react
  have htrusts : t.Trusts (signing (Verified t.keys)) (past.after stimulus step) :=
    trusts_signing (fun _ _ _ _ _ hverified => hverified) fun statement _ => own statement.bytes
  obtain ⟨hlog, hrequests⟩ := hrun.trace.sound htrusts
  rcases created with ⟨recipients, hm⟩ | ⟨⟨hm, -⟩, -⟩
  · have hvouched : t.Vouched (signing (Verified t.keys)) (.viewChange m) :=
      hrequests.sent recipients _ (List.mem_append_right _ hm)
    exact hvouched.1
  · exact (hlog.viewChanges m hm).1

/-! ## Main result -/

/-- **A commit is never forgotten.**  Once a member has committed itself in a view, every
request for a view that it makes from then on is for a higher view and carries a proof
that is accepted for that view.  The proof is of the view of the commit or of a higher
one, and in the former case for the same block; and the request brings along the block of
the proposal that is in the proof. -/
theorem Run.recalls_commit (run : t.Run past)
    (own : ∀ data, t.keys.verify data (t.keys.sign data) t.keys.me = true)
    {s : Signed CommitContent} (committed : past.Sent (.commit s))
    (permits : t.Permits past stimulus) (react : t.react past.progress stimulus = .ok step)
    {m : ViewChange} (created : t.Creates past step m) :
    (s.content.view < m.view ∧ m.height = t.height) ∧
      ∃ (proof : PreparedProof) (b : PrePrepare), m.signed.content.preparedProof = some proof ∧
        t.committee.acceptsProof t.keys t.height m.view (some proof) = true ∧
        (s.content.view ≤ b.view ∧ (b.view = s.content.view → b.blockHash = s.content.blockHash)) ∧
        (b ∈ past.progress.log.prePrepares ∧ proof.prePrepare = some b.signed) ∧
          m.block = some b.block := by
  have hplaced := run.trace.placed
  have hbacks : t.Backs past.progress.log s.content.view s.content.blockHash :=
    run.trace.meant (Or.inl ⟨_, committed, List.mem_cons_self⟩)
  have hasked := run.created_asked own permits react created
  obtain rfl := run.created_eq permits react created
  obtain ⟨proof, hproof, hmem, hle, hsame⟩ := hbacks.prepared hplaced
  have hcarried : (t.nextRequest past.progress).signed.content.preparedProof =
      some ⟨some proof.prePrepare.signed, proof.prepares⟩ := by
    show (past.progress.log.prepared? t.height t.committee.quorum).map _ = _
    rw [hproof]
    rfl
  have hblock : (t.nextRequest past.progress).block = some proof.prePrepare.block := by
    show (past.progress.log.prepared? t.height t.committee.quorum).map _ = _
    rw [hproof]
    rfl
  refine ⟨⟨?_, rfl⟩, _, proof.prePrepare, hcarried, ?_, ⟨hle, hsame⟩, ⟨hmem, rfl⟩, hblock⟩
  · exact Nat.lt_succ_of_le (Nat.le_trans hle (hplaced.le _ hmem))
  · rw [Committee.acceptsProof_iff, ← hcarried]
    exact hasked.proves

/-- The third member has voted for the block in the first view, and so has the second one. -/
def committedPast : Past :=
  (Assembly.sample.term 2).play [.message (.prePrepare (Assembly.proposalBy 0 0)),
    .event (.validationFinished (Assembly.proposalBy 0 0) true), .message (Assembly.voteBy 1 0)]

/-- The third member has committed itself, and its time is up. -/
theorem recalls_commit_sample :
    committedPast.Sent (.commit ((Assembly.plainKeys 2).commit 1 0 Assembly.sampleBlock.2 0)) ∧
      ∃ m step, (Assembly.sample.term 2).react committedPast.progress
          (.event (.electionTimeout 0)) = .ok step ∧
        .send [1] (.viewChange m) ∈ step.requests ∧ m.view = 1 ∧
          ∃ (proof : PreparedProof) (b : PrePrepare), m.signed.content.preparedProof = some proof ∧
            proof.prePrepare = some b.signed ∧ m.block = some b.block := by
  have hrun : (Assembly.sample.term 2).Run committedPast := run_play _
  have hpermits : (Assembly.sample.term 2).Permits committedPast (.event (.electionTimeout 0)) :=
    trivial
  have hsent : .send [0, 1, 3] (.commit
      ((Assembly.plainKeys 2).commit 1 0 Assembly.sampleBlock.2 0)) ∈ committedPast.requests := by
    decide +kernel
  obtain ⟨step, hreact, hm⟩ : ∃ step, (Assembly.sample.term 2).react committedPast.progress
      (.event (.electionTimeout 0)) = .ok step ∧ .send [1] (.viewChange
        ((Assembly.sample.term 2).nextRequest committedPast.progress)) ∈ step.requests := by
    decide +kernel
  obtain ⟨-, proof, b, hproof, -, -, ⟨-, hb⟩, hblock⟩ :=
    Run.recalls_commit hrun (Assembly.plainKeys_honest 2).sign ⟨_, hsent⟩ hpermits hreact
      (Or.inl ⟨_, hm⟩)
  exact ⟨⟨_, hsent⟩, _, step, hreact, hm, rfl, proof, b, hproof, hb, hblock⟩

end Term

end CommitteeConsensus
