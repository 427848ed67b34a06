import CommitteeConsensus.Proofs.Redelivery

/-!
# Rejected input leaves no trace

A term takes messages from anyone, and most of what it checks of a message it checks before
it does anything with it.  What comes of a message is one of two things.  Either it is
dropped: one reason is counted, once, and the term stays as it is to the last field.  Or it
is admitted, nothing is counted as dropped, and it has its effect: a vote, a commit or a
request is filed under a key that was free, and a proposal goes to the host and is the one
under validation (`Term.drops_or_admits`).  There is no third way, on which a message that
fails some check has already taken a place in the log or moved the view.

This is so wherever the term stands, not only where a run can lead it.  So it is read off the
handlers, one after the other.  Each handler drops a message at every exit but the last
one, and what follows there counts votes or takes on a view, which files more and reports
other things, but drops nothing (`Step.DropsNothing`).
-/

namespace CommitteeConsensus

namespace Step

variable {s : Step} {p : Progress}

/-- A message is dropped: it is counted under one reason, and nothing else happens. -/
def Drops (s : Step) (p : Progress) : Prop :=
  ∃ reason, s.progress = p ∧ s.requests = [] ∧ s.metrics = [.dropped reason]

/-- Nothing is counted as dropped. -/
def DropsNothing (s : Step) : Prop :=
  ∀ reason amount, .count (.dropped reason) amount ∉ s.metrics

theorem drops_drop (p : Progress) (reason : DropReason) : (Step.drop p reason).Drops p :=
  ⟨reason, rfl, rfl, rfl⟩

theorem dropsNothing_of_silent (h : s.metrics = []) : s.DropsNothing := by
  intro reason amount
  rw [h]
  exact List.not_mem_nil

theorem DropsNothing.andThen (h : s.DropsNothing) {next : Progress → Step}
    (hnext : (next s.progress).DropsNothing) : (s.andThen next).DropsNothing := by
  intro reason amount hmem
  rcases List.mem_append.1 hmem with hmem | hmem
  · exact h reason amount hmem
  · exact hnext reason amount hmem

/-- A message that is dropped is counted. -/
theorem Drops.counts (h : s.Drops p) : ¬s.DropsNothing := by
  obtain ⟨reason, -, -, hmetrics⟩ := h
  intro hnone
  refine hnone reason 1 ?_
  rw [hmetrics]
  exact List.mem_cons_self

end Step

namespace Term

variable {t : Term} {p : Progress}

/-! ## Counting votes drops nothing -/

section Silence

variable (t) (p)

theorem metrics_checkCommitted (hash : BlockHash) : (t.checkCommitted p hash).metrics = [] := by
  rw [checkCommitted]
  split
  · rfl
  · split
    · rfl
    · dsimp only
      split <;> rfl

theorem metrics_commitTo (hash : BlockHash) : (t.commitTo p hash).metrics = [] := by
  rw [commitTo]
  split <;> rfl

theorem metrics_checkPrepared : (t.checkPrepared p).metrics = [] := by
  rw [checkPrepared]
  split
  · split
    · rfl
    · split
      · rw [Step.andThen, metrics_commitTo, metrics_checkCommitted]
        rfl
      · rfl
  · rfl

theorem metrics_voteFor (m : PrePrepare) : (t.voteFor p m).metrics = [] := by
  rw [voteFor]
  split <;> rfl

theorem metrics_recount (m : PrePrepare) : (t.recount p m).metrics = [] := by
  rw [recount, Step.andThen, metrics_checkPrepared, metrics_checkCommitted]
  rfl

theorem metrics_accept (m : PrePrepare) : (t.accept p m).metrics = [] := by
  rcases hs : p.log.storePrePrepare? m with _ | log
  · rw [t.accept_of_not_store hs]
    rfl
  · rw [t.accept_of_store hs]
    simp only [Step.andThen, Step.ask, metrics_voteFor, metrics_recount, List.nil_append]

end Silence

/-- Moving on is counted, but as no drop. -/
theorem dropsNothing_entering (p q : Progress) (view : View) (rs : List Request) :
    Step.DropsNothing ⟨q, rs, entering p view⟩ := by
  intro reason amount hmem
  rw [entering] at hmem
  split at hmem <;> simp at hmem

theorem dropsNothing_takeOn (view : View) (votes : List ViewChange) :
    (t.takeOn view votes p).DropsNothing := by
  rw [takeOn]
  split
  · refine Step.DropsNothing.andThen (fun reason amount hmem => ?_)
      (Step.dropsNothing_of_silent (metrics_accept t _ _))
    simp at hmem
  · exact Step.dropsNothing_of_silent rfl

theorem dropsNothing_checkViewChanges {view : View} {s : Step} (live : p.phase ≠ .committed)
    (leads : t.leads view = true) (le : p.view ≤ view) (h : t.checkViewChanges p view = .ok s) :
    s.DropsNothing := by
  by_cases hcond : p.lastNewView.any (view ≤ ·) = true ∨
      (p.log.viewChangesFor t.height view).length < t.committee.quorum
  · rw [checkViewChanges, if_pos hcond] at h
    rw [← Except.ok.inj h]
    exact Step.dropsNothing_of_silent rfl
  · rw [not_or] at hcond
    have hclaims : t.Claims p view :=
      ⟨live, leads, le, by simpa using hcond.1, Nat.le_of_not_lt hcond.2⟩
    rw [t.checkViewChanges_of_claims hclaims] at h
    rw [← Except.ok.inj h]
    exact (dropsNothing_entering _ _ _ _).andThen (dropsNothing_takeOn _ _)

/-! ## What comes of a message -/

/-- A message has its effect: what is filed was not there, not even another message under its
key, and is there now; and the block of a proposal goes to the host. -/
def Admits (p : Progress) (s : Step) : Message → Prop
  | .prePrepare m => p.validating ≠ some m.view ∧ s.progress.validating = some m.view ∧
    .validateProposal m ∈ s.requests
  | .prepare v => MessageLog.prepareKey v ∉ p.log.prepares.map MessageLog.prepareKey ∧
    v ∈ s.progress.log.prepares
  | .commit v => MessageLog.commitKey v ∉ p.log.commits.map MessageLog.commitKey ∧
    v ∈ s.progress.log.commits
  | .viewChange m => MessageLog.viewChangeKey m ∉ p.log.viewChanges.map MessageLog.viewChangeKey ∧
    m ∈ s.progress.log.viewChanges
  | .newView m => p.validating ≠ some m.signed.content.view ∧
    s.progress.validating = some m.signed.content.view ∧
      .validateProposal m.prePrepare ∈ s.requests

/-- A message is dropped or admitted. -/
def Judges (p : Progress) (m : Message) (s : Step) : Prop :=
  s.Drops p ∨ s.DropsNothing ∧ Admits p s m

theorem judges_drop (p : Progress) (m : Message) (reason : DropReason) :
    Judges p m (.drop p reason) := Or.inl (Step.drops_drop p reason)

theorem onPrePrepare_judges (p : Progress) (m : PrePrepare) :
    Judges p (.prePrepare m) (t.onPrePrepare p m) := by
  rw [onPrePrepare]
  split
  · exact judges_drop _ _ _
  split
  · exact judges_drop _ _ _
  · next hnew =>
    rw [not_or, not_or] at hnew
    split
    · exact Or.inr ⟨Step.dropsNothing_of_silent rfl, hnew.2.1, rfl, List.mem_cons_self⟩
    · exact judges_drop _ _ _

theorem onPrepare_judges {v : Signed PrepareContent} (height : v.content.height = t.height) :
    Judges p (.prepare v) (t.onPrepare p v) := by
  rw [onPrepare]
  dsimp only
  split
  · exact judges_drop _ _ _
  split
  · exact judges_drop _ _ _
  split
  · exact judges_drop _ _ _
  split
  · exact judges_drop _ _ _
  · next hfirst =>
    rw [Bool.not_eq_true, ← height] at hfirst
    have hfree := MessageLog.prepareKey_free hfirst
    have hfiled := MessageLog.files_withPrepare hfree
    right
    split
    · exact ⟨Step.dropsNothing_of_silent (metrics_checkPrepared t _), hfree,
        hfiled.mono (t.consequences_checkPrepared { p with log := p.log.withPrepare v }).grows⟩
    · exact ⟨Step.dropsNothing_of_silent rfl, hfree, hfiled⟩

theorem onCommit_judges {v : Signed CommitContent} (height : v.content.height = t.height) :
    Judges p (.commit v) (t.onCommit p v) := by
  rw [onCommit]
  dsimp only
  split
  · exact judges_drop _ _ _
  split
  · exact judges_drop _ _ _
  split
  · exact judges_drop _ _ _
  split
  · exact judges_drop _ _ _
  · next hfirst =>
    rw [Bool.not_eq_true, ← height] at hfirst
    have hfree := MessageLog.commitKey_free hfirst
    have hfiled := MessageLog.files_withCommit hfree
    right
    split
    · exact ⟨Step.dropsNothing_of_silent (metrics_checkCommitted t _ _), hfree,
        hfiled.mono (t.consequences_checkCommitted { p with log := p.log.withCommit v } _).grows⟩
    · exact ⟨Step.dropsNothing_of_silent rfl, hfree, hfiled⟩

theorem onViewChange_judges {m : ViewChange} {s : Step} (live : p.phase ≠ .committed)
    (h : t.onViewChange p m = .ok s) : Judges p (.viewChange m) s := by
  rw [onViewChange] at h
  split at h
  · rw [← Except.ok.inj h]
    exact judges_drop _ _ _
  · next hcurrent =>
    split at h
    · rw [← Except.ok.inj h]
      exact judges_drop _ _ _
    split at h
    · rw [← Except.ok.inj h]
      exact judges_drop _ _ _
    · next hok =>
      split at h
      · rw [← Except.ok.inj h]
        exact judges_drop _ _ _
      · next log hlog =>
        simp only [not_or, Bool.not_eq_true, Bool.not_eq_false'] at hok
        have hle : p.view ≤ m.view := Nat.le_of_not_lt hcurrent
        have hgrows :=
          (t.consequences_checkViewChanges (p := { p with log }) live hok.1 hle h).grows
        exact Or.inr ⟨dropsNothing_checkViewChanges (p := { p with log }) live hok.1 hle h,
          MessageLog.viewChangeKey_free hlog,
          (MessageLog.files_of_storeViewChange? hlog).mono hgrows⟩

theorem onNewView_judges {m : NewView} {s : Step} (h : t.onNewView p m = .ok s) :
    Judges p (.newView m) s := by
  rw [onNewView] at h
  dsimp only at h
  split at h
  · rw [← Except.ok.inj h]
    exact judges_drop _ _ _
  split at h
  · rw [← Except.ok.inj h]
    exact judges_drop _ _ _
  · next hidle =>
    split at h
    · rw [← Except.ok.inj h]
      exact judges_drop _ _ _
    · right
      split at h
      · next hlt =>
        rw [enterView_of_lt hlt] at h
        rw [← Except.ok.inj h]
        exact ⟨(dropsNothing_entering _ _ _ _).andThen (Step.dropsNothing_of_silent rfl), hidle,
          rfl, by simp [Step.andThen, Step.ask]⟩
      · rw [← Except.ok.inj h]
        exact ⟨Step.dropsNothing_of_silent rfl, hidle, rfl, by simp [Step.andThen, Step.ask]⟩

/-- **A message is dropped or admitted.** -/
theorem handleMessage_judges {m : Message} {s : Step} (live : p.phase ≠ .committed)
    (height : m.height = t.height) (h : t.handleMessage p m = .ok s) : Judges p m s := by
  unfold handleMessage at h
  rw [if_neg (not_not_intro height), if_neg live] at h
  split at h
  · rw [← Except.ok.inj h]
    exact judges_drop _ _ _
  · cases m with
    | prePrepare m =>
      rw [← Except.ok.inj h]
      exact onPrePrepare_judges p m
    | prepare v =>
      rw [← Except.ok.inj h]
      exact onPrepare_judges height
    | commit v =>
      rw [← Except.ok.inj h]
      exact onCommit_judges height
    | viewChange m => exact onViewChange_judges live h
    | newView m => exact onNewView_judges h

/-- **Rejected input leaves no trace.**  As long as a term has not decided, it survives every
message of its height, and does exactly one of two things with it: it counts the message as
dropped, once, and stays as it is and asks for nothing, or it counts nothing as dropped
and admits the message.  A term that has decided does nothing at all, whatever it is given. -/
theorem drops_or_admits (t : Term) (p : Progress) :
    (p.phase ≠ .committed → ∀ m : Message, m.height = t.height →
      ∃ s, t.handleMessage p m = .ok s ∧ Xor (s.Drops p) (s.DropsNothing ∧ Admits p s m)) ∧
    (p.phase = .committed →
      (∀ m : Message, m.height = t.height → t.handleMessage p m = .ok (.quiet p)) ∧
        ∀ event, t.handleEvent p event = .ok (.quiet p)) := by
  refine ⟨fun live m height => ?_, fun done => ⟨fun m height => ?_, fun event => ?_⟩⟩
  · obtain ⟨s, hs⟩ := handleMessage_ok height p
    refine ⟨s, hs, ?_⟩
    rcases handleMessage_judges live height hs with hdrops | hadmits
    · exact Or.inl ⟨hdrops, fun hadmits => hdrops.counts hadmits.1⟩
    · exact Or.inr ⟨hadmits, fun hdrops => hdrops.counts hadmits.1⟩
  · unfold handleMessage
    rw [if_neg (not_not_intro height), if_pos done]
  · unfold handleEvent
    rw [if_pos done]

/-- The fourth member has decided the block of the first view. -/
def decidedPast : Past :=
  (Assembly.sample.term 3).play [.message (.prePrepare (Assembly.proposalBy 0 0)),
    .event (.validationFinished (Assembly.proposalBy 0 0) true), .message (Assembly.voteBy 1 0),
    .message (.commit ((Assembly.plainKeys 0).commit 1 0 Assembly.sampleBlock.2 0)),
    .message (.commit ((Assembly.plainKeys 1).commit 1 0 Assembly.sampleBlock.2 0))]

/-- A vote of the third member is admitted, the one of the leader is dropped, and once the block is
decided, the end of the time of its view is of no interest. -/
theorem drops_or_admits_sample :
    (∃ s, (Assembly.sample.term 3).handleMessage examiningPast.progress (Assembly.voteBy 2 0) =
      .ok s ∧ s.DropsNothing ∧ Admits examiningPast.progress s (Assembly.voteBy 2 0)) ∧
    (∃ s, (Assembly.sample.term 3).handleMessage examiningPast.progress (Assembly.voteBy 0 0) =
      .ok s ∧ s.Drops examiningPast.progress) ∧
    (Assembly.sample.term 3).handleEvent decidedPast.progress (.electionTimeout 0) =
      .ok (.quiet decidedPast.progress) := by
  have hlive : examiningPast.progress.phase ≠ .committed := by decide +kernel
  have hdone : decidedPast.progress.phase = .committed := by decide +kernel
  obtain ⟨hnew, hold⟩ : (∃ s, (Assembly.sample.term 3).handleMessage examiningPast.progress
        (Assembly.voteBy 2 0) = .ok s ∧ s.metrics = []) ∧
      ∃ s, (Assembly.sample.term 3).handleMessage examiningPast.progress
        (Assembly.voteBy 0 0) = .ok s ∧ s.metrics = [.dropped .invalid] := by
    decide +kernel
  obtain ⟨hjudges, -⟩ := drops_or_admits (Assembly.sample.term 3) examiningPast.progress
  obtain ⟨-, hstill⟩ := drops_or_admits (Assembly.sample.term 3) decidedPast.progress
  refine ⟨?_, ?_, (hstill hdone).2 _⟩
  · obtain ⟨s, hs, hmetrics⟩ := hnew
    obtain ⟨s', hs', hjudged⟩ := hjudges hlive (Assembly.voteBy 2 0) (by decide)
    obtain rfl := Except.ok.inj (hs.symm.trans hs')
    rcases hjudged with ⟨hdrops, -⟩ | ⟨hadmits, -⟩
    · exact absurd (Step.dropsNothing_of_silent hmetrics) hdrops.counts
    · exact ⟨s, hs, hadmits⟩
  · obtain ⟨s, hs, hmetrics⟩ := hold
    obtain ⟨s', hs', hjudged⟩ := hjudges hlive (Assembly.voteBy 0 0) (by decide)
    obtain rfl := Except.ok.inj (hs.symm.trans hs')
    rcases hjudged with ⟨hdrops, -⟩ | ⟨⟨hnone, -⟩, -⟩
    · exact ⟨s, hs, hdrops⟩
    · refine absurd ?_ (hnone .invalid 1)
      rw [hmetrics]
      exact List.mem_cons_self

end Term

end CommitteeConsensus
