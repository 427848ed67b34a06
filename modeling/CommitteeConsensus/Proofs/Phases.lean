import CommitteeConsensus.Proofs.Rejection

/-!
# The phases of a term

A term keeps its view, its phase, the view that its host looks at and the view that it is
about to open in fields of their own, next to the log, and eight handlers change them.
Some of the values that these fields may have together make no sense, such as a decided
height without a proposal, or a wait for a block in a view that was left.  None of these
is ever reached: whatever a term takes in, its fields fit together (`Term.Coherent`).

`Standing` and `Placed` have most of it.  What they lack is what a member is busy with,
and that is an invariant of its own (`Term.Engaged`): a host looks at proposals of other
members only, in the current view and as long as that has none, and whoever waits for a
block has the requests of a quorum at hand.  It is kept by each act and by each
consequence, and is the only induction here that looks at them.

That a decision is final needs no more than that a decided term dismisses all of its
inputs.  So the phase says whether a decision was announced (`Run.decides_once`), and a
run that has come to a decision goes on without any change (`Onward.settled`).
-/

namespace CommitteeConsensus

namespace Term

variable {t : Term} {p q : Progress} {rs : List Request} {stimulus : Stimulus} {past later : Past}

/-! ## What a member is busy with -/

/-- What a member is busy with belongs to its view. -/
structure Engaged (t : Term) (p : Progress) : Prop where
  /-- A member that is through with the votes has as many as that takes. -/
  voted : p.phase = .prepared → ∃ m, p.log.prePrepare? t.height p.view = some m ∧
    t.committee.quorum - 1 ≤ (p.log.preparesFor t.height p.view m.blockHash).length
  /-- The host looks at a proposal of another member, for the current view, which has none
  and can still have one. -/
  examining : ∀ view, p.validating = some view → (view = p.view ∧ t.leads view = false) ∧
    p.log.prePrepare? t.height p.view = none ∧
      (p.phase = .viewChanging ∨ p.phase = .collectingPrePrepare ∧ p.view = 0)
  /-- The view that waits for a block is the one that was taken on last, by the requests of a
  quorum. -/
  awaiting : ∀ view votes, p.pendingNewView = some (view, votes) →
    p.lastNewView = some view ∧ t.committee.quorum ≤ votes.length

/-- Whoever is busy with nothing, and not through with the votes, has nothing to show. -/
theorem engaged_of_idle (phase : p.phase ≠ .prepared) (idle : p.validating = none)
    (free : p.pendingNewView = none) : t.Engaged p where
  voted hprepared := absurd hprepared phase
  examining _ hbusy := absurd (idle.symm.trans hbusy) (by simp)
  awaiting _ _ hpending := absurd (free.symm.trans hpending) (by simp)

namespace Engaged

/-- Commits and requests for a view do not matter, and more votes do no harm. -/
theorem congr (h : t.Engaged p) (hview : q.view = p.view) (hphase : q.phase = p.phase)
    (hvalidating : q.validating = p.validating) (hpending : q.pendingNewView = p.pendingNewView)
    (hlast : q.lastNewView = p.lastNewView) (hprePrepares : q.log.prePrepares = p.log.prePrepares)
    (hprepares : p.log.prepares.Sublist q.log.prepares) : t.Engaged q := by
  refine ⟨?_, ?_, ?_⟩
  · rw [hphase, hview, MessageLog.prePrepare?_congr hprePrepares]
    intro hprepared
    obtain ⟨m, hm, hvotes⟩ := h.voted hprepared
    exact ⟨m, hm, Nat.le_trans hvotes (hprepares.filter _).length_le⟩
  · rw [hphase, hview, hvalidating, MessageLog.prePrepare?_congr hprePrepares]
    exact h.examining
  · rw [hpending, hlast]
    exact h.awaiting

theorem reach (h : t.Engaged p) (view : View) : t.Engaged (p.reach view) := by
  by_cases hlt : p.view < view
  · rw [Progress.reach_of_lt p hlt]
    exact engaged_of_idle (by simp) rfl rfl
  · rwa [Progress.reach_of_not_lt p hlt]

/-- A member is free to stop what it is busy with. -/
theorem unpend (h : t.Engaged p) : t.Engaged { p with pendingNewView := none } :=
  ⟨h.voted, h.examining, fun _ _ hp => absurd hp (by simp)⟩

theorem release (h : t.Engaged p) : t.Engaged { p with validating := none } :=
  ⟨h.voted, fun _ hbusy => absurd hbusy (by simp), h.awaiting⟩

/-- The host looks at nothing where there is a proposal. -/
theorem validating_of_proposal (h : t.Engaged p) {m : PrePrepare}
    (proposal : p.log.prePrepare? t.height p.view = some m) : p.validating = none := by
  rcases hbusy : p.validating with _ | view
  · rfl
  · obtain ⟨-, hvacant, -⟩ := h.examining view hbusy
    exact absurd (hvacant.symm.trans proposal) (by simp)

/-- The host of a leader has nothing to look at. -/
theorem validating_of_leads (h : t.Engaged p) (leads : t.leads p.view = true) :
    p.validating = none := by
  rcases hbusy : p.validating with _ | view
  · rfl
  · obtain ⟨⟨rfl, hfollows⟩, -⟩ := h.examining view hbusy
    exact absurd (leads.symm.trans hfollows) (by simp)

/-- A proposal that is filed starts the collection of votes. -/
theorem store (h : t.Engaged p) (idle : p.validating = none) (log : MessageLog) :
    t.Engaged { p with log, phase := .collectingPrePrepare } :=
  ⟨fun hphase => absurd hphase (by simp), fun _ hbusy => absurd (idle.symm.trans hbusy) (by simp),
    h.awaiting⟩

theorem install (h : t.Engaged p) (leads : t.leads p.view = true) (m : PrePrepare) :
    t.Engaged (p.install m).progress := by
  rw [Progress.install]
  split
  · exact h
  · next log hlog => exact h.store (h.validating_of_leads leads) log

theorem voteFor (h : t.Engaged p) (m : PrePrepare) : t.Engaged (t.voteFor p m).progress := by
  have hprePrepares := t.prePrepares_voteFor p m
  have hprepares := (grows_voteFor (t := t) p m).prepares
  obtain ⟨log, hshape⟩ := t.voteFor_shape p m
  rw [hshape] at hprePrepares hprepares ⊢
  exact h.congr rfl rfl rfl rfl rfl hprePrepares hprepares

theorem claim (h : t.Engaged p) (standing : t.Standing p) {view : View}
    (claims : t.Claims p view) : t.Engaged (p.claim view) := by
  rw [Progress.claim]
  by_cases hlt : p.view < view
  · rw [Progress.reach_of_lt { p with lastNewView := some view } hlt]
    exact engaged_of_idle (by simp) rfl rfl
  · rw [Progress.reach_of_not_lt { p with lastNewView := some view } hlt]
    have hview : view = p.view := Nat.le_antisymm (Nat.le_of_not_lt hlt) claims.le
    refine ⟨h.voted, h.examining, ?_⟩
    intro pending votes hp
    obtain ⟨⟨hcurrent, -⟩, -⟩ := standing.pending pending votes hp
    exact ⟨congrArg some (hview.trans hcurrent.symm), (h.awaiting pending votes hp).2⟩

end Engaged

/-- Whoever follows the opening of a view is about to take its proposal in, and has none. -/
theorem Placed.follows (placed : t.Placed p) {view : View}
    (ahead : p.view < view ∨ p.view = view ∧ p.phase = .viewChanging) :
    (p.reach view).view = view ∧ (p.reach view).phase = .viewChanging ∧
      (p.reach view).log.prePrepare? t.height (p.reach view).view = none := by
  have hmoved : (p.reach view).view = view ∧ (p.reach view).phase = .viewChanging := by
    rcases ahead with hlt | ⟨rfl, hphase⟩
    · rw [Progress.reach_of_lt p hlt]
      exact ⟨rfl, rfl⟩
    · rw [Progress.reach_of_not_lt p (Nat.lt_irrefl _)]
      exact ⟨rfl, hphase⟩
  refine ⟨hmoved.1, hmoved.2, MessageLog.prePrepare?_eq_none_iff.2 ?_⟩
  intro m hm hkey
  exact Nat.ne_of_lt ((placed.reach view).lt hmoved.2 m hm) hkey.2

/-- The leader of a view is another member where its message came from outside. -/
theorem not_leads_of_sender {m : Message} (permits : t.Permits past (.message m)) {view : View}
    (sender : m.sender = t.committee.leader view) : t.leads view = false := by
  rcases hleads : t.leads view with _ | _
  · rfl
  · exact absurd (sender.trans (t.leads_iff.1 hleads).2) permits.2

theorem Act.engaged (trace : t.Trace past) (permits : t.Permits past stimulus)
    (h : t.Engaged past.progress) (act : t.Act stimulus past.progress rs q) : t.Engaged q := by
  have hplaced := trace.placed
  have hstanding := trace.standing
  generalize past.progress = p at act h hplaced hstanding
  cases act with
  | ignore | start => exact h
  | @examine _ m view phase idle vacant admits =>
    obtain ⟨⟨-, hproposed⟩, -⟩ := admitsProposal_iff.1 admits
    have hfollows := not_leads_of_sender permits hproposed.sender_eq
    rw [view] at vacant
    refine ⟨fun hphase => absurd (phase.symm.trans hphase) (by simp), ?_, h.awaiting⟩
    intro w hw
    obtain rfl := Option.some.inj hw
    exact ⟨⟨view, hfollows⟩, vacant, Or.inr ⟨phase, hstanding.view_eq_zero hplaced phase vacant⟩⟩
  | @follow _ m live view idle admits =>
    obtain ⟨⟨⟨-, hsender, -⟩, -⟩, -⟩ := admitsNewView_iff.1 admits
    have hfollows := not_leads_of_sender permits hsender
    obtain ⟨hview, hphase, hvacant⟩ := hplaced.follows view
    have hreach := h.reach m.signed.content.view
    refine ⟨fun hprepared => absurd (hphase.symm.trans hprepared) (by simp), ?_, hreach.awaiting⟩
    intro w hw
    obtain rfl := Option.some.inj hw
    exact ⟨⟨hview.symm, hfollows⟩, hvacant, Or.inl hphase⟩
  | release => exact h.release
  | @approve _ m log => exact (h.release.store rfl log).voteFor m
  | propose live leads => exact h.install leads _
  | openPending live leads => exact h.unpend.install leads _
  | watch => exact h.reach _
  | elapse live member =>
    refine (h.reach _).congr rfl rfl rfl rfl rfl ?_ ?_ <;> rw [elapsed, Progress.log_reach]
    · rw [MessageLog.prePrepares_withViewChange]
    · exact (MessageLog.grows_withViewChange _ _).prepares
  | keepPrepare =>
    exact h.congr rfl rfl rfl rfl rfl (MessageLog.prePrepares_withPrepare _ _)
      (MessageLog.grows_withPrepare _ _).prepares
  | keepCommit =>
    exact h.congr rfl rfl rfl rfl rfl (MessageLog.prePrepares_withCommit _ _)
      (MessageLog.grows_withCommit _ _).prepares
  | keepViewChange live current near leads admits stored =>
    rw [MessageLog.storeViewChange?_eq_some stored]
    exact h.congr rfl rfl rfl rfl rfl (MessageLog.prePrepares_withViewChange _ _)
      (MessageLog.grows_withViewChange _ _).prepares

theorem Consequence.engaged (h : t.Engaged p) (standing : t.Standing p)
    (consequence : t.Consequence p rs q) : t.Engaged q := by
  cases consequence with
  | repropose claims =>
    have hleads := claims.leads
    rw [← p.view_claim claims.le] at hleads
    exact (h.claim standing claims).install hleads _
  | @await view claims =>
    have hclaim := h.claim standing claims
    refine ⟨hclaim.voted, hclaim.examining, ?_⟩
    intro w votes hp
    obtain ⟨rfl, rfl⟩ := Prod.mk.inj (Option.some.inj hp)
    refine ⟨p.lastNewView_claim, ?_⟩
    rw [List.length_map]
    exact claims.quorum
  | @commit m phase proposal quorum =>
    have hprepares := (grows_commitTo (t := t) { p with phase := .prepared } m.blockHash).prepares
    have hprePrepares := t.prePrepares_commitTo { p with phase := .prepared } m.blockHash
    obtain ⟨log, hshape⟩ := t.commitTo_shape { p with phase := .prepared } m.blockHash
    rw [hshape] at hprepares hprePrepares ⊢
    have hprepared : t.Engaged { p with phase := .prepared } := by
      refine ⟨fun _ => ⟨m, proposal, ?_⟩, fun _ hbusy => ?_, h.awaiting⟩
      · rwa [← MessageLog.length_prepareSenders]
      · exact absurd ((h.validating_of_proposal proposal).symm.trans hbusy) (by simp)
    exact hprepared.congr rfl rfl rfl rfl rfl hprePrepares hprepares
  | decide phase proposal =>
    refine ⟨fun hphase => absurd hphase (by simp), fun _ hbusy => ?_, h.awaiting⟩
    exact absurd ((h.validating_of_proposal proposal).symm.trans hbusy) (by simp)

theorem Trace.engaged (h : t.Trace past) : t.Engaged past.progress := by
  induction h with
  | fresh => exact engaged_of_idle (by simp [Past.fresh, Progress.initial]) rfl rfl
  | act trace permits rest act ih => exact act.engaged trace permits ih
  | consequence trace consequence ih => exact consequence.engaged ih trace.standing

/-! ## View, phase and log fit together -/

/-- The view and the phase of a term, what it is busy with and the proposals and votes that it
holds fit together. -/
structure Coherent (t : Term) (p : Progress) : Prop where
  /-- No proposal is held for a view that was not reached. -/
  reached : ∀ m ∈ p.log.prePrepares, m.height = t.height → m.view ≤ p.view
  /-- The first view is not moved to, and a view that is only moved to has no proposal. -/
  moving : p.phase = .viewChanging →
    0 < p.view ∧ p.log.prePrepare? t.height p.view = none
  /-- There is a proposal in every other phase, unless the first view still waits for it. -/
  proposed : p.phase = .prepared ∨ p.phase = .committed ∨
      p.phase = .collectingPrePrepare ∧ 0 < p.view →
    ∃ m, p.log.prePrepare? t.height p.view = some m
  /-- A member that is through with the votes holds as many for the proposal as that takes. -/
  voted : p.phase = .prepared → ∃ m, p.log.prePrepare? t.height p.view = some m ∧
    t.committee.quorum - 1 ≤ (p.log.preparesFor t.height p.view m.blockHash).length
  /-- A proposal is validated for the current view, and as long as that waits for one. -/
  examining : ∀ view, p.validating = some view → view = p.view ∧
    p.log.prePrepare? t.height view = none ∧
      (p.phase = .viewChanging ∨ p.phase = .collectingPrePrepare ∧ view = 0)
  /-- A block is waited for in the current view, which was taken on last, and by a quorum. -/
  awaiting : ∀ view votes, p.pendingNewView = some (view, votes) → view = p.view ∧
    p.lastNewView = some view ∧ t.committee.quorum ≤ votes.length

theorem Trace.coherent (h : t.Trace past) : t.Coherent past.progress := by
  have hplaced := h.placed
  have hstanding := h.standing
  have hengaged := h.engaged
  generalize past.progress = p at hplaced hstanding hengaged
  refine ⟨?_, ?_, ?_, hengaged.voted, ?_, ?_⟩
  · intro m hm _
    exact hplaced.le m hm
  · intro hphase
    refine ⟨hstanding.moving hphase, MessageLog.prePrepare?_eq_none_iff.2 ?_⟩
    intro m hm hkey
    exact Nat.ne_of_lt (hplaced.lt hphase m hm) hkey.2
  · rintro (hprepared | hdone | ⟨hphase, hpos⟩)
    · obtain ⟨m, hm, -⟩ := hengaged.voted hprepared
      exact ⟨m, hm⟩
    · obtain ⟨m, hm, -⟩ := hstanding.decided hdone
      exact ⟨m, hm⟩
    · rcases hstanding.opened hphase with hzero | ⟨m, hm, hview⟩
      · exact absurd hzero (Nat.ne_of_gt hpos)
      · exact ⟨m, (MessageLog.prePrepare?_eq_some_iff hplaced.wellFormed).2
          ⟨hm, hplaced.height m hm, hview⟩⟩
  · intro view hbusy
    obtain ⟨⟨rfl, -⟩, hvacant, hphase⟩ := hengaged.examining view hbusy
    exact ⟨rfl, hvacant, hphase⟩
  · intro view votes hp
    obtain ⟨⟨hview, -⟩, -⟩ := hstanding.pending view votes hp
    exact ⟨hview, hengaged.awaiting view votes hp⟩

/-! ## One decision, and the last word -/

/-- **The phase says whether the term has announced a decision**, and it never announced two. -/
theorem Run.decides_once (run : t.Run past) : DecidesOnce past.requests past.progress := by
  induction run with
  | fresh => exact Or.inl ⟨rfl, by simp [Past.fresh, Progress.initial]⟩
  | @step past stimulus step run permits react ih =>
    rcases ih with ⟨hnone, hlive⟩ | ⟨d, hd, hdone⟩
    · rw [DecidesOnce, Past.after, decisionsIn_append, hnone, List.nil_append]
      exact react_decides_once react hlive
    · obtain ⟨hsame, hquiet⟩ := react_of_committed react hdone
      refine Or.inr ⟨d, ?_, ?_⟩
      · rw [Past.after, decisionsIn_append, hquiet, List.append_nil]
        exact hd
      · show step.progress.phase = .committed
        rwa [hsame]

theorem DecidesOnce.length_le (h : DecidesOnce rs q) : (decisionsIn rs).length ≤ 1 := by
  rcases h with ⟨hnone, -⟩ | ⟨d, hd, -⟩
  · rw [hnone]
    exact Nat.zero_le 1
  · rw [hd]
    exact Nat.le_refl 1

theorem DecidesOnce.committed_iff (h : DecidesOnce rs q) :
    q.phase = .committed ↔ ∃ d, Request.decide d ∈ rs := by
  rcases h with ⟨hnone, hlive⟩ | ⟨d, hd, hdone⟩
  · refine iff_of_false hlive fun ⟨d, hd⟩ => ?_
    rw [← mem_decisionsIn, hnone] at hd
    exact absurd hd List.not_mem_nil
  · refine iff_of_true hdone ⟨d, mem_decisionsIn.1 ?_⟩
    rw [hd]
    exact List.mem_singleton_self d

/-- A decided term does nothing with what it is given. -/
theorem react_quiet (done : p.phase = .committed) (input : stimulus ≠ .start)
    (permits : t.Permits past stimulus) : t.react p stimulus = .ok (.quiet p) := by
  rcases stimulus with _ | m | event
  · exact absurd rfl input
  · show t.handleMessage p m = _
    unfold handleMessage
    rw [if_neg (not_not_intro permits.1), if_pos done]
  · show t.handleEvent p event = _
    unfold handleEvent
    rw [if_pos done]

/-- No input leads to a lower view. -/
theorem react_view_le {step : Step} (react : t.react p stimulus = .ok step) :
    p.view ≤ step.progress.view := by
  obtain ⟨p₁, rs₁, rs₂, hact, hc, -⟩ := react_drawn react
  exact Nat.le_trans hact.view_le hc.view_le

theorem Onward.view_le (h : t.Onward past later) : past.progress.view ≤ later.progress.view := by
  induction h with
  | here => exact Nat.le_refl _
  | step _ _ react ih => exact Nat.le_trans ih (react_view_le react)

/-- **A decision is final**: whatever comes after it, the term stays as it is. -/
theorem Onward.settled (h : t.Onward past later) (done : past.progress.phase = .committed) :
    later.progress = past.progress ∧ decisionsIn later.requests = decisionsIn past.requests := by
  induction h with
  | here => exact ⟨rfl, rfl⟩
  | @step later stimulus step _ _ react ih =>
    obtain ⟨hsame, hdecisions⟩ := ih
    obtain ⟨hstays, hquiet⟩ := react_of_committed react (hsame.symm ▸ done)
    refine ⟨hstays.trans hsame, ?_⟩
    rw [Past.after, decisionsIn_append, hquiet, List.append_nil]
    exact hdecisions

/-- **The phases of a term are coherent, and a decision is final.**  At any time the view, the
phase, the log and the work under way fit together, and the height is decided exactly if a
decision was announced, of which there is at most one.  As the run goes on, the view never
falls, and once the height is decided, nothing changes and nothing is announced any more: a
message or an event is met with silence. -/
theorem Run.phases_coherent (run : t.Run past) :
    t.Coherent past.progress ∧
    (past.progress.phase = .committed ↔ ∃ d, Request.decide d ∈ past.requests) ∧
    (decisionsIn past.requests).length ≤ 1 ∧
    ∀ later, t.Onward past later → past.progress.view ≤ later.progress.view ∧
      (past.progress.phase = .committed →
        later.progress = past.progress ∧
        decisionsIn later.requests = decisionsIn past.requests ∧
        ∀ stimulus, stimulus ≠ .start → t.Permits later stimulus →
          t.react later.progress stimulus = .ok (.quiet later.progress)) := by
  refine ⟨run.trace.coherent, run.decides_once.committed_iff, run.decides_once.length_le, ?_⟩
  intro later onward
  refine ⟨onward.view_le, ?_⟩
  intro done
  obtain ⟨hsame, hdecisions⟩ := onward.settled done
  refine ⟨hsame, hdecisions, ?_⟩
  intro stimulus input permits
  exact react_quiet (hsame.symm ▸ done) input permits

/-- The second member was asked by the three others to open the next view. -/
def takenOnPast : Past :=
  (Assembly.sample.term 1).play [.message (.viewChange (Assembly.requestBy 0 1)),
    .message (.viewChange (Assembly.requestBy 2 1)),
    .message (.viewChange (Assembly.requestBy 3 1))]

/-- The second member waits for a block to open its view with, and it has the requests of a quorum
to show.  The fourth has decided once, and the end of the time of its view does not concern it
any more. -/
theorem phases_coherent_sample :
    (∃ votes, takenOnPast.progress.pendingNewView = some (1, votes) ∧
      takenOnPast.progress.lastNewView = some 1 ∧ takenOnPast.progress.view = 1 ∧
      3 ≤ votes.length) ∧
    (∃ d, Request.decide d ∈ decidedPast.requests) ∧
    (decisionsIn decidedPast.requests).length ≤ 1 ∧
    (Assembly.sample.term 3).react decidedPast.progress (.event (.electionTimeout 0)) =
      .ok (.quiet decidedPast.progress) := by
  have htaken : (Assembly.sample.term 1).Run takenOnPast := run_play _
  have hclosing : (Assembly.sample.term 3).Run decidedPast := run_play _
  obtain ⟨hcoherent, -⟩ := Run.phases_coherent htaken
  obtain ⟨-, hclosed, hsole, hlater⟩ := Run.phases_coherent hclosing
  have hpending : takenOnPast.progress.pendingNewView.map Prod.fst = some 1 := by decide +kernel
  have hdone : decidedPast.progress.phase = .committed := by decide +kernel
  refine ⟨?_, hclosed.1 hdone, hsole, ?_⟩
  · obtain ⟨⟨view, votes⟩, hp, rfl⟩ := Option.map_eq_some_iff.1 hpending
    obtain ⟨hview, hlast, hquorum⟩ := hcoherent.awaiting _ _ hp
    exact ⟨votes, hp, hlast, hview.symm, hquorum⟩
  · obtain ⟨-, hfinal⟩ := hlater decidedPast .here
    obtain ⟨-, -, hquiet⟩ := hfinal hdone
    exact hquiet _ (by simp) trivial

end Term

end CommitteeConsensus
