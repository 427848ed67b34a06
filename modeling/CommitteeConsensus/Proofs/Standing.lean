import CommitteeConsensus.Proofs.TermRuns

/-!
# Where a member stands

The view, the phase and the log of a term fit together in ways that no handler checks,
because no handler ever breaks them.  `Standing` lists what the arguments about the
protocol need of it: when a view has a proposal, which views a leader has taken on,
what it waits for, and for which views it has asked itself.  Nothing in it speaks of
signatures.

A committee of one member is a case of its own.  Its quorum is one, so a prepared proof
would be a proposal without any votes, which no one accepts.  Such a proof is never
written: with a quorum of one a proposal that is filed is decided at once
(`committed_of_solo`).
-/

namespace CommitteeConsensus

namespace Term

variable {t : Term}

/-- How view, phase and log fit together. -/
structure Standing (t : Term) (p : Progress) : Prop where
  /-- A view above the first that waits for votes has a proposal. -/
  opened : p.phase = .collectingPrePrepare → p.view = 0 ∨ ∃ m ∈ p.log.prePrepares, m.view = p.view
  /-- The own proposals above the first view are of views that were taken on. -/
  led : ∀ m ∈ p.log.prePrepares, t.leads m.view = true →
    m.view = 0 ∨ p.lastNewView.any (m.view ≤ ·) = true
  /-- The view that waits for a block is the current one, was taken on, and has no
  proposal, unless it is the first view and a quorum asked for that. -/
  pending : ∀ view votes, p.pendingNewView = some (view, votes) →
    (view = p.view ∧ t.leads view = true ∧ p.lastNewView.any (view ≤ ·) = true) ∧
      (view = 0 ∧ t.committee.quorum ≤ (p.log.viewChangesFor t.height 0).length ∨
        ∀ m ∈ p.log.prePrepares, m.view ≠ view)
  /-- Members only ask for views, and the member itself for views that it reached. -/
  asked : ∀ m ∈ p.log.viewChanges, m.sender ∈ t.committee.members ∧
    (m.sender = t.me → 0 < m.view ∧ m.view ≤ p.view)
  /-- A member that is through with the votes has committed itself. -/
  backed : p.phase = .prepared → t.observer = false →
    ∃ m, p.log.prePrepare? t.height p.view = some m ∧
      ∃ s ∈ p.log.commitsFor t.height p.view m.blockHash, s.sender = t.me
  /-- A decided view has its proposal, and a quorum of commits to it. -/
  decided : p.phase = .committed → ∃ m, p.log.prePrepare? t.height p.view = some m ∧
    t.committee.quorum ≤ (p.log.commitsFor t.height p.view m.blockHash).length
  /-- The first view is never moved to. -/
  moving : p.phase = .viewChanging → 0 < p.view

/-- A member that waits for votes and has no proposal is in the first view. -/
theorem Standing.view_eq_zero {p : Progress} (h : t.Standing p) (placed : t.Placed p)
    (phase : p.phase = .collectingPrePrepare) (vacant : p.log.prePrepare? t.height p.view = none) :
    p.view = 0 := by
  rcases h.opened phase with hzero | ⟨b, hb, hview⟩
  · exact hzero
  · exact absurd ⟨placed.height b hb, hview⟩
      (MessageLog.prePrepare?_eq_none_iff.1 vacant b hb)

/-! ## Steps -/

section Steps

variable {p q : Progress}

/-- Votes, commits and the host's work do not matter. -/
theorem Standing.congr (h : t.Standing p) (hview : q.view = p.view) (hphase : q.phase = p.phase)
    (hlast : q.lastNewView = p.lastNewView) (hpending : q.pendingNewView = p.pendingNewView)
    (hprePrepares : q.log.prePrepares = p.log.prePrepares)
    (hviewChanges : q.log.viewChanges = p.log.viewChanges)
    (hcommits : p.log.commits.Sublist q.log.commits) : t.Standing q := by
  refine ⟨?_, ?_, ?_, ?_, ?_, ?_, ?_⟩
  · rw [hview, hphase, hprePrepares]
    exact h.opened
  · rw [hprePrepares, hlast]
    exact h.led
  · simp only [hpending, hview, hlast, hprePrepares, MessageLog.viewChangesFor, hviewChanges]
    exact h.pending
  · rw [hviewChanges, hview]
    exact h.asked
  · rw [hphase, hview, MessageLog.prePrepare?_congr hprePrepares]
    intro hprepared hmember
    obtain ⟨m, hm, s, hs, hsender⟩ := h.backed hprepared hmember
    exact ⟨m, hm, s, (hcommits.filter _).subset hs, hsender⟩
  · rw [hphase, hview, MessageLog.prePrepare?_congr hprePrepares]
    intro hdone
    obtain ⟨m, hm, hquorum⟩ := h.decided hdone
    exact ⟨m, hm, Nat.le_trans hquorum (hcommits.filter _).length_le⟩
  · rw [hphase, hview]
    exact h.moving

theorem Standing.reach (h : t.Standing p) (view : View) : t.Standing (p.reach view) := by
  by_cases hlt : p.view < view
  · rw [Progress.reach_of_lt p hlt]
    refine ⟨fun hphase => absurd hphase (by simp), h.led, fun _ _ hp => absurd hp (by simp),
      fun m hm => ⟨(h.asked m hm).1, fun hme => ?_⟩, fun hphase => absurd hphase (by simp),
      fun hphase => absurd hphase (by simp), fun _ => Nat.lt_of_le_of_lt (Nat.zero_le _) hlt⟩
    exact ⟨((h.asked m hm).2 hme).1,
      Nat.le_trans ((h.asked m hm).2 hme).2 (Nat.le_of_lt hlt)⟩
  · rwa [Progress.reach_of_not_lt p hlt]

/-- The member is free to forget what it waits for. -/
theorem Standing.unpend (h : t.Standing p) (validating : Option View) :
    t.Standing { p with validating, pendingNewView := none } :=
  ⟨h.opened, h.led, fun _ _ hp => absurd hp (by simp), h.asked, h.backed, h.decided, h.moving⟩

/-- Filing the proposal of the current view, unless it is the one that is waited for. -/
theorem Standing.store (h : t.Standing p) {m : PrePrepare} {log : MessageLog}
    (hlog : p.log.storePrePrepare? m = some log) (view : m.view = p.view)
    (led : t.leads m.view = true → m.view = 0 ∨ p.lastNewView.any (m.view ≤ ·) = true)
    (free : ∀ votes, p.pendingNewView ≠ some (m.view, votes)) (validating : Option View) :
    t.Standing { p with validating, log, phase := .collectingPrePrepare } := by
  obtain ⟨-, rfl⟩ := MessageLog.storePrePrepare?_eq_some.1 hlog
  refine ⟨fun _ => Or.inr ⟨m, (MessageLog.mem_storePrePrepare? hlog).2 (Or.inl rfl), view⟩,
    fun b hb hleads => ?_, fun w votes hp => ?_, h.asked, fun hphase => absurd hphase (by simp),
    fun hphase => absurd hphase (by simp), fun hphase => absurd hphase (by simp)⟩
  · rcases (MessageLog.mem_storePrePrepare? hlog).1 hb with rfl | hb
    · exact led hleads
    · exact h.led b hb hleads
  · obtain ⟨⟨hw, hleads, hlast⟩, hvacant⟩ := h.pending w votes hp
    exact absurd (view ▸ hw ▸ hp) (free votes)

theorem Standing.install (h : t.Standing p) {m : PrePrepare} (view : m.view = p.view)
    (led : t.leads m.view = true → m.view = 0 ∨ p.lastNewView.any (m.view ≤ ·) = true)
    (free : ∀ votes, p.pendingNewView ≠ some (m.view, votes)) :
    t.Standing (p.install m).progress := by
  rw [Progress.install]
  split
  · exact h
  · next log hlog => exact h.store hlog view led free p.validating

theorem Standing.voteFor (h : t.Standing p) (m : PrePrepare) :
    t.Standing (t.voteFor p m).progress := by
  refine h.congr (t.view_voteFor p m) (t.phase_voteFor p m) (t.lastNewView_voteFor p m) ?_
    (t.prePrepares_voteFor p m) (t.viewChanges_voteFor p m) (grows_voteFor p m).commits
  rw [Term.voteFor]
  split <;> rfl

/-- Filing a request for a view, which is by a member, and if it is the own one, for a view
that was reached. -/
theorem Standing.withViewChange (h : t.Standing p) (live : p.phase ≠ .committed) {m : ViewChange}
    (asked : m.sender ∈ t.committee.members ∧
      (m.sender = t.me → 0 < m.view ∧ m.view ≤ p.view)) :
    t.Standing { p with log := p.log.withViewChange m } := by
  have hgrows := MessageLog.grows_withViewChange p.log m
  refine ⟨?_, ?_, ?_, fun b hb => ?_, ?_, fun hphase => absurd hphase live, h.moving⟩
  · rw [MessageLog.prePrepares_withViewChange]
    exact h.opened
  · rw [MessageLog.prePrepares_withViewChange]
    exact h.led
  · intro view votes hp
    obtain ⟨hcurrent, hvacant⟩ := h.pending view votes hp
    rw [MessageLog.prePrepares_withViewChange]
    exact ⟨hcurrent, hvacant.imp_left (And.imp_right fun hquorum =>
      Nat.le_trans hquorum hgrows.viewChangesFor.length_le)⟩
  · rcases MessageLog.mem_withViewChange hb with rfl | hb
    · exact asked
    · exact h.asked b hb
  · intro hprepared hmember
    obtain ⟨b, hb, s, hs, hsender⟩ := h.backed hprepared hmember
    refine ⟨b, ?_, s, hgrows.commitsFor.subset hs, hsender⟩
    rwa [MessageLog.prePrepare?_congr (MessageLog.prePrepares_withViewChange p.log m)]

theorem Act.standing {past : Past} {stimulus : Stimulus} {rs : List Request}
    (trace : t.Trace past) (permits : t.Permits past stimulus) (h : t.Standing past.progress)
    (act : t.Act stimulus past.progress rs q) : t.Standing q := by
  have hplaced := trace.placed
  generalize past.progress = p at act h hplaced
  cases act with
  | ignore | start => exact h
  | examine | release =>
    exact h.congr rfl rfl rfl rfl rfl rfl (List.Sublist.refl _)
  | follow =>
    exact (h.reach _).congr rfl rfl rfl rfl rfl rfl (List.Sublist.refl _)
  | @approve _ m log live view validating stored =>
    obtain ⟨hadm, hother⟩ := trace.examined permits
    obtain ⟨⟨-, hproposed⟩, -⟩ := admitsProposal_iff.1 hadm
    have hfollows : t.leads m.view ≠ true := fun hleads =>
      hother (hproposed.sender_eq.trans (t.leads_iff.1 hleads).2)
    refine (h.store stored view (fun hleads => absurd hleads hfollows) ?_ none).voteFor m
    exact fun votes hp => hfollows (h.pending _ votes hp).1.2.1
  | propose live leads pending view =>
    exact h.install rfl (fun _ => Or.inl view) fun votes hp =>
      absurd (pending.symm.trans hp) (by simp)
  | @openPending _ block hash votes live leads pending =>
    obtain ⟨⟨-, -, hlast⟩, -⟩ := h.pending _ votes pending
    exact (h.unpend p.validating).install rfl (fun _ => Or.inr hlast)
      fun votes hp => absurd hp (by simp)
  | watch => exact h.reach _
  | elapse live member =>
    have hview : (p.reach (p.view + 1)).view = p.view + 1 := p.view_reach (Nat.le_succ _)
    have hmem : t.me ∈ t.committee.members := by simpa [observer] using member
    rw [elapsed, ← p.log_reach (p.view + 1)]
    exact (h.reach (p.view + 1)).withViewChange (p.reach_live live)
      ⟨hmem, fun _ => ⟨Nat.succ_pos _, Nat.le_of_eq hview.symm⟩⟩
  | keepPrepare =>
    exact h.congr rfl rfl rfl rfl (MessageLog.prePrepares_withPrepare _ _)
      (MessageLog.viewChanges_withPrepare _ _) (MessageLog.grows_withPrepare _ _).commits
  | keepCommit =>
    exact h.congr rfl rfl rfl rfl (MessageLog.prePrepares_withCommit _ _)
      (MessageLog.viewChanges_withCommit _ _) (MessageLog.grows_withCommit _ _).commits
  | @keepViewChange _ m log live current near leads admits stored =>
    rw [MessageLog.storeViewChange?_eq_some stored]
    obtain ⟨hasked, -⟩ := admitsViewChange_iff.1 admits
    exact h.withViewChange live ⟨hasked.mem, fun hme => absurd hme permits.2⟩

theorem Standing.claim (h : t.Standing p) (placed : t.Placed p) {view : View}
    (claims : t.Claims p view) :
    t.Standing (p.claim view) ∧ ∀ votes, (p.claim view).pendingNewView ≠ some (view, votes) := by
  have hlast : t.Standing { p with lastNewView := some view } := by
    refine ⟨h.opened, fun m hm hleads => Or.inr ?_, fun w votes hp => ?_, h.asked, h.backed,
      h.decided, h.moving⟩
    · exact decide_eq_true (Nat.le_trans (placed.le m hm) claims.le)
    · obtain ⟨⟨rfl, hleads, -⟩, hvacant⟩ := h.pending w votes hp
      exact ⟨⟨rfl, hleads, decide_eq_true claims.le⟩, hvacant⟩
  refine ⟨hlast.reach view, fun votes hp => ?_⟩
  rw [Progress.claim] at hp
  by_cases hlt : p.view < view
  · rw [Progress.reach_of_lt { p with lastNewView := some view } hlt] at hp
    exact absurd hp (by simp)
  · rw [Progress.reach_of_not_lt { p with lastNewView := some view } hlt] at hp
    -- waiting for a block of this view, it has taken the view on already
    have htaken := (h.pending view votes hp).1.2.2
    rw [claims.unclaimed] at htaken
    exact absurd htaken (by simp)

/-- A view above the first that waits to be taken on has no proposal. -/
theorem Standing.vacant (h : t.Standing p) {view : View} (claims : t.Claims p view) :
    view = 0 ∧ t.committee.quorum ≤ (p.log.viewChangesFor t.height 0).length ∨
      ∀ m ∈ p.log.prePrepares, m.view ≠ view := by
  by_cases hzero : view = 0
  · have hquorum := claims.quorum
    rw [hzero] at hquorum
    exact Or.inl ⟨hzero, hquorum⟩
  · refine Or.inr fun m hm hview => ?_
    subst hview
    rcases h.led m hm claims.leads with hfirst | htaken
    · exact hzero hfirst
    · rw [claims.unclaimed] at htaken
      exact absurd htaken (by simp)

/-- Committing to the current proposal backs it. -/
theorem Standing.commitTo (h : t.Standing p) {m : PrePrepare}
    (proposal : p.log.prePrepare? t.height p.view = some m) :
    t.Standing (t.commitTo { p with phase := .prepared } m.blockHash).progress := by
  rw [Term.commitTo]
  split
  · next hobserver =>
    exact ⟨fun hphase => absurd hphase (by simp [Step.quiet]), h.led, h.pending, h.asked,
      fun _ hmember => absurd (hmember.symm.trans hobserver) (by simp),
      fun hphase => absurd hphase (by simp [Step.quiet]),
      fun hphase => absurd hphase (by simp [Step.quiet])⟩
  · dsimp only [Step.ask]
    refine ⟨fun hphase => absurd hphase (by simp), ?_, ?_, ?_, fun _ _ => ⟨m, ?_, ?_⟩,
      fun hphase => absurd hphase (by simp), fun hphase => absurd hphase (by simp)⟩
    · rw [MessageLog.prePrepares_withCommit]
      exact h.led
    · simp only [MessageLog.prePrepares_withCommit, MessageLog.viewChangesFor,
        MessageLog.viewChanges_withCommit]
      exact h.pending
    · rw [MessageLog.viewChanges_withCommit]
      exact h.asked
    · rwa [MessageLog.prePrepare?_congr (MessageLog.prePrepares_withCommit _ _)]
    · exact MessageLog.exists_commitsFor_withCommit p.log
        (t.keys.commit t.height p.view m.blockHash t.seed)

theorem Consequence.standing {rs : List Request} (h : t.Standing p) (placed : t.Placed p)
    (consequence : t.Consequence p rs q) : t.Standing q := by
  cases consequence with
  | @repropose view block hash claims obliged =>
    obtain ⟨hclaim, hfree⟩ := h.claim placed claims
    refine hclaim.install (p.view_claim claims.le).symm (fun _ => Or.inr ?_) hfree
    rw [Progress.lastNewView_claim]
    exact decide_eq_true (Nat.le_refl view)
  | @await view claims free =>
    obtain ⟨hclaim, -⟩ := h.claim placed claims
    refine ⟨hclaim.opened, hclaim.led, fun w votes hp => ?_, hclaim.asked, hclaim.backed,
      hclaim.decided, hclaim.moving⟩
    obtain ⟨rfl, -⟩ := Prod.mk.inj (Option.some.inj hp)
    refine ⟨⟨(p.view_claim claims.le).symm, claims.leads, ?_⟩, ?_⟩
    · show (p.claim view).lastNewView.any (view ≤ ·) = true
      rw [Progress.lastNewView_claim]
      exact decide_eq_true (Nat.le_refl view)
    · show _ ∧ _ ≤ ((p.claim view).log.viewChangesFor t.height 0).length ∨
        ∀ m ∈ (p.claim view).log.prePrepares, _
      rw [Progress.log_claim]
      exact h.vacant claims
  | @commit m phase proposal quorum => exact h.commitTo proposal
  | @decide m phase proposal quorum =>
    exact ⟨fun hphase => absurd hphase (by simp), h.led, h.pending, h.asked,
      fun hphase => absurd hphase (by simp), fun _ => ⟨m, proposal, quorum⟩,
      fun hphase => absurd hphase (by simp)⟩

/-- **Where a member stands.** -/
theorem Trace.standing {past : Past} (h : t.Trace past) : t.Standing past.progress := by
  induction h with
  | fresh =>
    exact ⟨fun _ => Or.inl rfl, fun m hm => absurd hm List.not_mem_nil,
      fun _ _ hp => absurd hp (by simp [Past.fresh, Progress.initial]),
      fun m hm => absurd hm List.not_mem_nil,
      fun hphase => absurd hphase (by simp [Past.fresh, Progress.initial]),
      fun hphase => absurd hphase (by simp [Past.fresh, Progress.initial]),
      fun hphase => absurd hphase (by simp [Past.fresh, Progress.initial])⟩
  | act trace permits rest act ih => exact act.standing trace permits ih
  | consequence trace consequence ih => exact consequence.standing ih trace.placed

end Steps

/-! ## A committee of one -/

section Solo

variable (solo : t.committee.quorum = 1) (member : t.observer = false)

include solo member

/-- The member is the whole committee. -/
theorem eq_me_of_mem {m : MemberId} (hm : m ∈ t.committee.members) : m = t.me := by
  have hme : t.me ∈ t.committee.members := by simpa [observer] using member
  have hsize : t.committee.members.length = 1 := by
    have hpos := t.committee.size_pos
    rw [Committee.quorum, quorumSize, maxFaulty, Committee.size] at solo
    rw [Committee.size] at hpos
    omega
  obtain ⟨x, hx⟩ := List.length_eq_one_iff.1 hsize
  rw [hx, List.mem_singleton] at hm hme
  rw [hm, hme]

theorem Standing.unclaimed_of_solo {p : Progress} (h : t.Standing p) {m : PrePrepare}
    (hm : m ∈ p.log.prePrepares) (hview : m.view = p.view) : t.Unclaimed p := by
  intro view claims
  have hq := claims.quorum
  rw [solo] at hq
  obtain ⟨c, hc⟩ := List.exists_mem_of_length_pos hq
  obtain ⟨hcmem, -, hcview⟩ := MessageLog.mem_viewChangesFor.1 hc
  obtain ⟨hmember, hown⟩ := h.asked c hcmem
  obtain ⟨hpos, hle⟩ := hown (eq_me_of_mem solo member hmember)
  have heq : view = p.view := Nat.le_antisymm (hcview ▸ hle) claims.le
  rcases h.vacant claims with ⟨hzero, -⟩ | hvacant
  · exact Nat.ne_of_gt hpos (hcview.trans hzero)
  · exact hvacant m hm (hview.trans heq.symm)

theorem committed_of_current {p : Progress} (standing : t.Standing p) (placed : t.Placed p)
    (rest : t.AtRest p) {m : PrePrepare} (hm : m ∈ p.log.prePrepares) (hview : m.view = p.view)
    (hphase : p.phase ≠ .viewChanging) : p.phase = .committed := by
  have hproposal : p.log.prePrepare? t.height p.view = some m :=
    (MessageLog.prePrepare?_eq_some_iff placed.wellFormed).2 ⟨hm, placed.height m hm, hview⟩
  rcases hp : p.phase
  · have hfew := rest.uncommitted hp m hproposal
    rw [solo] at hfew
    exact absurd hfew (Nat.not_lt_zero _)
  · obtain ⟨m', hm', s, hs, -⟩ := standing.backed hp member
    obtain rfl := Option.some.inj (hproposal.symm.trans hm')
    have hfew := rest.undecided (by rw [hp]; simp) m hproposal
    rw [solo] at hfew
    exact absurd hfew (Nat.not_lt_of_le (List.length_pos_of_mem hs))
  · rfl
  · exact absurd hp hphase

/-- A proposal that is filed is of the current view, and the member is busy with it. -/
theorem Trace.current_of_solo {past : Past} (h : t.Trace past) {m : PrePrepare}
    (hm : m ∈ past.progress.log.prePrepares) :
    m.view = past.progress.view ∧ past.progress.phase ≠ .viewChanging := by
  induction h generalizing m with
  | fresh => exact absurd hm List.not_mem_nil
  | @act past stimulus rs q trace permits rest act ih =>
    rcases act.filed hm with hold | ⟨⟨hview, hphase⟩, -⟩
    · -- with a proposal the term is decided, and stays as it is
      obtain ⟨hview, hphase⟩ := ih hold
      have hdone := committed_of_current solo member trace.standing trace.placed rest hold hview
        hphase
      obtain rfl := act.of_committed hdone
      exact ⟨hview, hphase⟩
    · exact ⟨hview, by show q.phase ≠ _; rw [hphase]; simp⟩
  | @consequence past rs q trace consequence ih =>
    rcases consequence.filed hm with hold | ⟨⟨hview, hphase⟩, -⟩
    · obtain ⟨hview, hphase⟩ := ih hold
      have hunclaimed := trace.standing.unclaimed_of_solo solo member hold hview
      show m.view = q.view ∧ q.phase ≠ _
      cases consequence with
      | repropose claims => exact absurd claims (hunclaimed _)
      | await claims => exact absurd claims (hunclaimed _)
      | commit =>
        rw [view_commitTo, phase_commitTo]
        exact ⟨hview, by simp⟩
      | decide => exact ⟨hview, by simp⟩
    · exact ⟨hview, by show q.phase ≠ _; rw [hphase]; simp⟩

/-- **A single member decides what it proposes at once.** -/
theorem committed_of_solo {past : Past} (h : t.Trace past) (rest : t.AtRest past.progress)
    {m : PrePrepare} (hm : m ∈ past.progress.log.prePrepares) :
    past.progress.phase = .committed := by
  obtain ⟨hview, hphase⟩ := h.current_of_solo solo member hm
  exact committed_of_current solo member h.standing h.placed rest hm hview hphase

end Solo

end Term

end CommitteeConsensus
