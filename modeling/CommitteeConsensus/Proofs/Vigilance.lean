import CommitteeConsensus.Proofs.Orderly

/-!
# No quorum goes unnoticed

A term counts when something was filed or the view changed, and never later.  So a quorum
that completes by a route on which nobody counts would be a silent stall.  There is no such
route: whatever was given to a term, in whatever order, nothing that it holds is enough for
a step that it has not taken (`Run.no_quorum_unnoticed`).

For votes and commits this is `Run.atRest`.  Requests for a view need more, because a decided
term is at rest whatever it holds, and still it is to have taken on every view that a quorum
asked it for.  `Noticed` says so without regard to the phase.  It fails in one place only,
between filing the request that completes a quorum and looking at the requests; and there
neither votes nor commits suffice for anything, so that the term cannot decide before it has
looked (`Noticing`).
-/

namespace CommitteeConsensus

namespace Term

variable {t : Term} {p q : Progress} {rs : List Request} {stimulus : Stimulus} {past : Past}

/-! ## Requests for views -/

/-- Every view from the current one on that a quorum asked the member to open was taken on,
or a higher one was. -/
def Noticed (t : Term) (p : Progress) : Prop :=
  ∀ view, t.leads view = true → p.view ≤ view →
    t.committee.quorum ≤ (p.log.viewChangesFor t.height view).length →
      p.lastNewView.any (view ≤ ·) = true

/-- The term is about to look at the requests for one view, and has nothing else to do. -/
structure Noticing (t : Term) (p : Progress) : Prop where
  live : p.phase ≠ .committed
  uncommitted : t.Uncommitted p
  undecided : t.Undecided p
  others : ∃ view, ∀ w, w ≠ view → ¬t.Claims p w

theorem Noticed.not_claims (h : t.Noticed p) {view : View} : ¬t.Claims p view := by
  intro claims
  have htaken := h view claims.leads claims.le claims.quorum
  rw [claims.unclaimed] at htaken
  exact absurd htaken (by simp)

/-- In an open term, no view waits exactly if all were noticed. -/
theorem Unclaimed.noticed (h : t.Unclaimed p) (live : p.phase ≠ .committed) : t.Noticed p := by
  intro view leads le quorum
  by_contra hfree
  have hunclaimed : p.lastNewView.any (view ≤ ·) = false := by simpa using hfree
  exact h view ⟨live, leads, le, hunclaimed, quorum⟩

/-- Moving up makes nothing go unnoticed, as long as no request is filed. -/
theorem Noticed.mono (h : t.Noticed p) (view : p.view ≤ q.view)
    (last : q.lastNewView = p.lastNewView) (requests : q.log.viewChanges = p.log.viewChanges) :
    t.Noticed q := by
  intro w leads le quorum
  rw [MessageLog.viewChangesFor, requests] at quorum
  rw [last]
  exact h w leads (Nat.le_trans view le) quorum

theorem Noticed.reach (h : t.Noticed p) (view : View) : t.Noticed (p.reach view) :=
  h.mono (p.le_view_reach view) (p.lastNewView_reach) (by rw [p.log_reach])

theorem lastNewView_install (m : PrePrepare) :
    (p.install m).progress.lastNewView = p.lastNewView := by
  rw [Progress.install]
  split <;> rfl

theorem Noticed.install (h : t.Noticed p) (m : PrePrepare) : t.Noticed (p.install m).progress :=
  h.mono (Nat.le_of_eq (view_install m).symm) (lastNewView_install m) (viewChanges_install m)

/-- Whoever is not the leader of a view need not notice a request for it. -/
theorem Noticed.withViewChange (h : t.Noticed p) {m : ViewChange}
    (follows : t.leads m.view = false) :
    t.Noticed { p with log := p.log.withViewChange m } := by
  intro w leads le quorum
  have hne : m.view ≠ w := by
    rintro rfl
    exact absurd (leads.symm.trans follows) (by simp)
  rw [MessageLog.viewChangesFor_withViewChange_of_ne hne] at quorum
  exact h w leads le quorum

/-! ## Steps -/

/-- After an act everything was noticed, or the term is about to notice it and has said
nothing yet. -/
theorem Act.noticed (h : t.Act stimulus p rs q) (placed : t.Placed p) (rest : t.AtRest p)
    (noticed : t.Noticed p) :
    t.Noticed q ∨ t.Noticing q ∧ ∀ recipients m, .send recipients m ∉ rs := by
  cases h with
  | ignore | start | examine | release => exact Or.inl noticed
  | follow => exact Or.inl (noticed.reach _)
  | watch => exact Or.inl (noticed.reach _)
  | @approve _ m log live view validating stored =>
    left
    refine noticed.mono ?_ ?_ ?_
    · simp only [view_voteFor, Nat.le_refl]
    · simp only [lastNewView_voteFor]
    · obtain ⟨-, rfl⟩ := MessageLog.storePrePrepare?_eq_some.1 stored
      simp only [viewChanges_voteFor]
  | propose => exact Or.inl (noticed.install _)
  | openPending => exact Or.inl (Noticed.install (p := { p with pendingNewView := none }) noticed _)
  | elapse live member =>
    by_cases hleader : t.committee.leader (p.view + 1) = t.me
    · obtain ⟨huncommitted, hundecided, hothers⟩ := rest.elapsed live placed
      refine Or.inr ⟨⟨p.reach_live live, huncommitted, hundecided, p.view + 1, hothers⟩, ?_⟩
      intro recipients m hm
      rw [if_pos hleader] at hm
      exact absurd (List.mem_singleton.1 hm) (by simp)
    · -- the leader of the next view is the one to notice the request
      have hfollows : t.leads (p.view + 1) = false := by
        by_contra hleads
        exact hleader (t.leads_iff.1 (by simpa using hleads)).2
      left
      rw [elapsed, ← p.log_reach (p.view + 1)]
      exact (noticed.reach (p.view + 1)).withViewChange hfollows
  | keepPrepare =>
    exact Or.inl (noticed.mono (Nat.le_refl _) rfl (MessageLog.viewChanges_withPrepare _ _))
  | keepCommit =>
    exact Or.inl (noticed.mono (Nat.le_refl _) rfl (MessageLog.viewChanges_withCommit _ _))
  | @keepViewChange _ m log live current near leads admits stored =>
    rw [MessageLog.storeViewChange?_eq_some stored]
    have hothers : ∀ w, w ≠ m.view → ¬t.Claims { p with log := p.log.withViewChange m } w :=
      fun w hw hc => rest.unclaimed w (hc.of_withViewChange (Ne.symm hw))
    exact Or.inr ⟨⟨live, (rest.withViewChange m).1, (rest.withViewChange m).2, m.view, hothers⟩,
      fun _ _ => List.not_mem_nil⟩

/-- Whoever takes a view on that was asked for has noticed all of them. -/
theorem Noticing.claim (h : t.Noticing p) (placed : t.Placed p) {view : View}
    (claims : t.Claims p view) : t.Noticed (p.claim view) := by
  obtain ⟨asked, hothers⟩ := h.others
  -- the view that is taken on is the one that was about to be looked at
  have hasked : view = asked := by
    by_contra hne
    exact hothers view hne claims
  have hrest : t.AtRest (p.claim view) :=
    claims.atRest_claim placed h.uncommitted h.undecided fun w hw => hothers w (hasked ▸ hw)
  exact hrest.unclaimed.noticed (p.claim_live h.live)

theorem Consequence.noticed (h : t.Consequence p rs q) (placed : t.Placed p)
    (noticed : t.Noticed p ∨ t.Noticing p) : t.Noticed q := by
  cases h with
  | repropose claims =>
    rcases noticed with hnoticed | hnoticing
    · exact absurd claims hnoticed.not_claims
    · exact (hnoticing.claim placed claims).install _
  | await claims =>
    rcases noticed with hnoticed | hnoticing
    · exact absurd claims hnoticed.not_claims
    · exact (hnoticing.claim placed claims).mono (Nat.le_refl _) rfl rfl
  | @commit m phase proposal quorum =>
    rcases noticed with hnoticed | hnoticing
    · refine hnoticed.mono ?_ ?_ ?_
      · simp only [view_commitTo, Nat.le_refl]
      · simp only [lastNewView_commitTo]
      · simp only [viewChanges_commitTo]
    · exact absurd quorum (Nat.not_le_of_lt (hnoticing.uncommitted phase m proposal))
  | @decide m phase proposal quorum =>
    rcases noticed with hnoticed | hnoticing
    · exact hnoticed.mono (Nat.le_refl _) rfl rfl
    · exact absurd quorum (Nat.not_le_of_lt (hnoticing.undecided phase m proposal))

/-! ## Runs -/

theorem Trace.noticed (h : t.Trace past) : t.Noticed past.progress ∨ t.Noticing past.progress := by
  induction h with
  | fresh =>
    left
    intro view leads le quorum
    exact absurd quorum (Nat.not_le_of_lt t.committee.quorum_pos)
  | @act past stimulus rs q trace permits rest act ih =>
    by_cases hdone : past.progress.phase = .committed
    · obtain rfl := act.of_committed hdone
      exact ih
    · exact (act.noticed trace.placed rest (rest.unclaimed.noticed hdone)).imp_right And.left
  | consequence trace consequence ih => exact Or.inl (consequence.noticed trace.placed ih)

/-- Between inputs, every view that a quorum asked for was taken on. -/
theorem Run.noticed (h : t.Run past) : t.Noticed past.progress := by
  rcases h.trace.noticed with hnoticed | hnoticing
  · exact hnoticed
  · exact h.atRest.unclaimed.noticed hnoticing.live

/-- **No quorum goes unnoticed.**  As long as a member waits for votes for the current
proposal, or for commits to it, there are not enough of them; and every view from the
current one on that enough members asked it to open was taken on, or a higher one was. -/
theorem Run.no_quorum_unnoticed (h : t.Run past) :
    (∀ m, past.progress.log.prePrepare? t.height past.progress.view = some m →
      (past.progress.phase = .collectingPrePrepare →
        (past.progress.log.preparesFor t.height past.progress.view m.blockHash).length <
          t.committee.quorum - 1) ∧
      (past.progress.phase = .collectingPrePrepare ∨ past.progress.phase = .prepared →
        (past.progress.log.commitsFor t.height past.progress.view m.blockHash).length <
          t.committee.quorum)) ∧
    ∀ view, past.progress.view ≤ view → t.leads view = true →
      t.committee.quorum ≤ (past.progress.log.viewChangesFor t.height view).length →
        ∃ last, past.progress.lastNewView = some last ∧ view ≤ last := by
  refine ⟨fun m hm => ⟨fun hphase => ?_, fun hphase => ?_⟩, fun view le leads quorum => ?_⟩
  · have hfew := h.atRest.uncommitted hphase m hm
    rwa [MessageLog.length_prepareSenders] at hfew
  · refine h.atRest.undecided (fun hdone => ?_) m hm
    rw [hdone] at hphase
    simp at hphase
  · have htaken := h.noticed view leads le quorum
    rcases hlast : past.progress.lastNewView with _ | last
    · rw [hlast] at htaken
      exact absurd htaken (by simp)
    · rw [hlast] at htaken
      exact ⟨last, rfl, of_decide_eq_true htaken⟩

/-- The members after each had eight turns: on their way to a decision. -/
def unfinishedPasts : MemberId → Past :=
  Assembly.listed ((List.replicate 8 [1, 2, 3]).flatten.foldl
    (Assembly.sample.turn 1 fun _ => Assembly.sampleBlock) (List.replicate 4 .fresh))

/-- The leader of view `1` has committed itself, and waits for two more commits.  It was asked
for the view by a quorum, and has taken it on. -/
theorem no_quorum_unnoticed_sample :
    ((unfinishedPasts 1).progress.phase = .prepared ∧ (unfinishedPasts 1).progress.view = 1) ∧
      (∃ m, (unfinishedPasts 1).progress.log.prePrepare? 1 1 = some m ∧
        ((unfinishedPasts 1).progress.log.commitsFor 1 1 m.blockHash).length < 3) ∧
      ∃ last, (unfinishedPasts 1).progress.lastNewView = some last ∧ 1 ≤ last := by
  have horderly : Assembly.sample.Orderly 1 unfinishedPasts := by
    refine Assembly.orderly_turns (fun _ => Assembly.sample_fits) ?_ (by decide)
    rw [Assembly.listed_replicate]
    exact .fresh
  have hstand : (unfinishedPasts 1).progress.phase = .prepared ∧
      (unfinishedPasts 1).progress.view = 1 ∧
      ((unfinishedPasts 1).progress.log.prePrepare? 1 1).isSome = true ∧
      3 ≤ ((unfinishedPasts 1).progress.log.viewChangesFor 1 1).length := by
    decide +kernel
  obtain ⟨hphase, hview, hproposal, hasked⟩ := hstand
  obtain ⟨hvotes, hviews⟩ := Run.no_quorum_unnoticed (t := Assembly.sample.term 1)
    (horderly.served 1 (by decide)).run
  rw [hview] at hvotes hviews
  obtain ⟨m, hm⟩ := Option.isSome_iff_exists.1 hproposal
  exact ⟨⟨hphase, hview⟩, ⟨m, hm, (hvotes m hm).2 (Or.inr hphase)⟩,
    hviews 1 (Nat.le_refl 1) (by decide) hasked⟩

end Term

end CommitteeConsensus
