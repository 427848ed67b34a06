import CommitteeConsensus.Proofs.Course
import CommitteeConsensus.Proofs.Diligence
import CommitteeConsensus.Proofs.Situation
import CommitteeConsensus.Proofs.Upkeep
import CommitteeConsensus.Proofs.Warrants

/-!
# Redelivery

A network may deliver a message twice, a timer may fire as an election is called for, and
the result of some work may come when nobody waits for it any more.  None of this does
harm.  Whatever a term takes in, taking it in once more changes nothing and asks for
nothing.

Every input has a guard of its own: the key of a vote, the view that is being validated,
the view that a timer is for, the block that a leader waits for.  The acts name all of
them once, since an input that is not worth an act is dismissed (`Term.Dismisses`).  So it
is enough that whatever a term has acted on it would dismiss (`Act.spent`).  The
consequences of the act come in between, and they may decide the height or lead to a new
view.  Votes stay filed through all of that, and a view that was left stays left.  What
rests on the view of the term, on the proposal under validation or on a block that is
waited for needs more: after such an act no view waits to be taken on, so that its
consequences leave all of them alone (`Consequences.steady`).

That there is a second time to speak of is a point of its own.  A term survives whatever its
caller may give it, with one exception: there is no view after the last one, so that a member
whose time is up there has nowhere to go (`Exhausted`, `Run.react_ok`).
-/

namespace CommitteeConsensus

/-- The view that an event is about. -/
def Event.view : Event → View
  | .electionTimeout view => view
  | .proposalBuilt view _ => view
  | .validationFinished m _ => m.view

namespace MessageLog

variable {log log' : MessageLog}

theorem Files.mono {m : Message} (h : log.Files m) (grows : log.Grows log') : log'.Files m := by
  cases m with
  | prePrepare m => exact grows.prePrepares.subset h
  | prepare s => exact grows.prepares.subset h
  | commit s => exact grows.commits.subset h
  | viewChange m => exact grows.viewChanges.subset h
  | newView m => exact h.elim

/-- A member that has not voted in a view has left the key of its vote free. -/
theorem prepareKey_free {s : Signed PrepareContent}
    (first : log.hasPrepareFrom s.content.height s.content.view s.sender = false) :
    prepareKey s ∉ log.prepares.map prepareKey := by
  intro hmem
  obtain ⟨b, hb, hkey⟩ := List.mem_map.1 hmem
  simp only [prepareKey, Prod.mk.injEq] at hkey
  have hother := List.any_eq_false.1 first b hb
  simp [hkey] at hother

/-- A member that has not committed in a view has left the key of its commit free. -/
theorem commitKey_free {s : Signed CommitContent}
    (first : log.hasCommitFrom s.content.height s.content.view s.sender = false) :
    commitKey s ∉ log.commits.map commitKey := by
  intro hmem
  obtain ⟨b, hb, hkey⟩ := List.mem_map.1 hmem
  simp only [commitKey, Prod.mk.injEq] at hkey
  have hother := List.any_eq_false.1 first b hb
  simp [hkey] at hother

/-- A vote whose key is free is filed. -/
theorem files_withPrepare {s : Signed PrepareContent}
    (free : prepareKey s ∉ log.prepares.map prepareKey) :
    (log.withPrepare s).Files (.prepare s) := by
  obtain ⟨b, hb, hkey⟩ := exists_mem_withPrepare log s
  rcases mem_withPrepare hb with rfl | hold
  · exact hb
  · exact absurd (List.mem_map.2 ⟨b, hold, hkey.symm⟩) free

/-- A commit whose key is free is filed. -/
theorem files_withCommit {s : Signed CommitContent}
    (free : commitKey s ∉ log.commits.map commitKey) :
    (log.withCommit s).Files (.commit s) := by
  obtain ⟨b, hb, hkey⟩ := exists_mem_withCommit log s
  rcases mem_withCommit hb with rfl | hold
  · exact hb
  · exact absurd (List.mem_map.2 ⟨b, hold, hkey.symm⟩) free

theorem files_of_storeViewChange? {m : ViewChange} (h : log.storeViewChange? m = some log') :
    log'.Files (.viewChange m) := by
  obtain ⟨held, hheld, rfl⟩ := Option.map_eq_some_iff.1 h
  obtain ⟨-, rfl⟩ := fileFirst?_eq_some.1 hheld
  exact (perm_placeBefore m log.viewChanges).mem_iff.2 List.mem_cons_self

/-- A request that is filed is not filed again. -/
theorem storeViewChange?_of_mem {m : ViewChange} (h : m ∈ log.viewChanges) :
    log.storeViewChange? m = none :=
  Option.map_eq_none_iff.2 (fileFirst?_eq_none.2 ⟨m, h, (sameViewChange_iff m m).2 rfl⟩)

end MessageLog

/-! ## Late events -/

theorem Term.handleEvent_of_view_ne (t : Term) (p : Progress) {event : Event}
    (other : event.view ≠ p.view) : t.handleEvent p event = .ok (.quiet p) := by
  unfold handleEvent
  split
  · rfl
  · cases event with
    | electionTimeout view => exact if_pos other
    | proposalBuilt view proposal => exact if_pos (Or.inl other)
    | validationFinished m valid => exact congrArg Except.ok (if_pos (Or.inl other))

/-- **A late event does nothing**, beyond being counted, if it is of another height or of another
view than the current one. -/
theorem Controller.handleLate_still (moment : Moment) (c : Controller) {late : LateEvent}
    (other : c.height? ≠ some late.height ∨ c.view? ≠ some late.event.view) :
    ∃ metrics : List Metric,
      (handleLate late).run moment c = ⟨c, metrics.map .report, .ok ()⟩ := by
  rw [handleLate, run_look_bind]
  by_cases hcurrent : c.height? = some late.height
  · replace other := other.resolve_left (not_not_intro hcurrent)
    refine ⟨eventMetrics late.event, ?_⟩
    rw [if_pos hcurrent, run_report_bind, Controller.handleEvent, run_look_bind]
    rcases hstage : c.stage with log | ⟨t, p⟩
    · rw [height?, hstage] at hcurrent
      exact absurd hcurrent (by simp)
    · have hview : late.event.view ≠ p.view := fun heq => other (by
        rw [view?, progress?, hstage, heq]
        rfl)
      have hsame : c.adopting t p = c := by rw [adopting, ← hstage]
      have hrun := follow_run moment c t (s := .quiet p) (Nat.zero_le 1)
      dsimp only
      rw [t.handleEvent_of_view_ne p hview, run_bind_eq hrun rfl]
      show Outcome.mk (c.adopting t p) (_ ++ []) (Except.ok ()) = _
      rw [hsame, List.append_nil]
  · exact ⟨[], by rw [if_neg hcurrent]; rfl⟩

namespace Term

variable {t : Term} {p q : Progress} {rs : List Request} {stimulus : Stimulus} {past later : Past}
  {m : Message}

/-! ## What is filed is of no use any more -/

/-- What is filed is a duplicate, whatever the term has come to. -/
theorem dismisses_of_files (filed : p.log.Files m) (height : m.height = t.height) :
    t.Dismisses p (.message m) := by
  refine Spares.dismisses ?_
  cases m with
  | prePrepare m =>
    refine Or.inr (Or.inr (Or.inr fun hnone => ?_))
    exact MessageLog.prePrepare?_eq_none_iff.1 hnone m filed ⟨height, rfl⟩
  | prepare s =>
    have hheight : s.content.height = t.height := height
    exact Or.inr (Or.inr (Or.inr (List.any_eq_true.2 ⟨s, filed, by simp [hheight]⟩)))
  | commit s =>
    have hheight : s.content.height = t.height := height
    exact Or.inr (Or.inr (Or.inr (List.any_eq_true.2 ⟨s, filed, by simp [hheight]⟩)))
  | viewChange m => exact Or.inr (Or.inr (Or.inr (MessageLog.storeViewChange?_of_mem filed)))
  | newView m => exact filed.elim

/-! ## What is dismissed leaves no trace -/

/-- An input that a term acts on comes before the decision. -/
theorem Act.live_of_acts (h : t.Act stimulus p rs q) (input : stimulus ≠ .start)
    (acts : ¬(q = p ∧ rs = [])) : p.phase ≠ .committed := by
  cases h with
  | ignore => exact absurd ⟨rfl, rfl⟩ acts
  | start => exact absurd rfl input
  | examine view phase => simp [phase]
  | follow live | release live | approve live | propose live | openPending live | watch live
  | elapse live | keepPrepare live | keepCommit live | keepViewChange live => exact live

/-- A message that a term acts on passes its checks. -/
theorem Act.findsValid (h : t.Act (.message m) p rs q) (acts : ¬(q = p ∧ rs = [])) :
    t.FindsValid m := by
  have hleader := fun view =>
    Committee.contains_eq_true.2 (Committee.leader_mem t.committee view)
  cases h with
  | ignore => exact absurd ⟨rfl, rfl⟩ acts
  | @examine _ m view phase idle vacant admits =>
    obtain ⟨⟨-, hproposed⟩, -⟩ := admitsProposal_iff.1 admits
    refine ⟨hproposed.height_eq, ?_, admits⟩
    show t.committee.contains m.signed.sender = true
    rw [hproposed.sender_eq]
    exact hleader _
  | @follow _ m live view idle admits =>
    obtain ⟨⟨⟨hheight, hsender, -⟩, -⟩, -⟩ := admitsNewView_iff.1 admits
    refine ⟨hheight, ?_, admits⟩
    show t.committee.contains m.signed.sender = true
    rw [hsender]
    exact hleader _
  | keepPrepare live mem height current near sender fits verifies first =>
    exact ⟨height, Committee.contains_eq_true.2 mem, sender, verifies⟩
  | keepCommit live mem height current near fits verifies share first =>
    exact ⟨height, Committee.contains_eq_true.2 mem, verifies, share⟩
  | keepViewChange live current near leads admits stored =>
    obtain ⟨hasked, -⟩ := admitsViewChange_iff.1 admits
    exact ⟨hasked.height_eq, Committee.contains_eq_true.2 hasked.mem, admits⟩

/-- Nothing is done with a message that is of no use. -/
theorem Act.of_spares (h : t.Act (.message m) p rs q) (spares : t.Spares p m) :
    q = p ∧ rs = [] := by
  cases h with
  | ignore => exact ⟨rfl, rfl⟩
  | examine view phase idle vacant =>
    rcases spares with hother | hphase | hbusy | hheld
    · exact absurd view hother
    · exact absurd phase hphase
    · exact absurd hbusy idle
    · exact absurd vacant hheld
  | follow live view idle =>
    rcases spares with hlate | ⟨hcurrent, hphase⟩ | hbusy
    · rcases view with hlt | ⟨heq, -⟩
      · exact absurd hlate (Nat.not_lt_of_lt hlt)
      · exact absurd hlate (Nat.not_lt_of_le (Nat.le_of_eq heq))
    · rcases view with hlt | ⟨-, hmoving⟩
      · exact absurd hcurrent.symm (Nat.ne_of_lt hlt)
      · exact absurd hmoving hphase
    · exact absurd hbusy idle
  | keepPrepare live mem height current near sender fits verifies first =>
    rcases spares with hlate | hfar | hmisfit | hknown
    · exact absurd hlate (Nat.not_lt_of_le current)
    · exact absurd (hfar.symm.trans near) (by simp)
    · exact absurd (fits.symm.trans hmisfit) (by simp)
    · exact absurd (hknown.symm.trans first) (by simp)
  | keepCommit live mem height current near fits verifies share first =>
    rcases spares with hlate | hfar | hmisfit | hknown
    · exact absurd hlate (Nat.not_lt_of_le current)
    · exact absurd (hfar.symm.trans near) (by simp)
    · exact absurd (fits.symm.trans hmisfit) (by simp)
    · exact absurd (hknown.symm.trans first) (by simp)
  | keepViewChange live current near leads admits stored =>
    rcases spares with hlate | hfar | hfollows | hknown
    · exact absurd hlate (Nat.not_lt_of_le current)
    · exact absurd (hfar.symm.trans near) (by simp)
    · exact absurd (leads.symm.trans hfollows) (by simp)
    · exact absurd (stored.symm.trans hknown) (by simp)

/-- Nothing is done with an event that is of no use. -/
theorem Act.of_outlasts {event : Event} (h : t.Act (.event event) p rs q)
    (outlasts : t.Outlasts p event) : q = p ∧ rs = [] := by
  cases h with
  | ignore => exact ⟨rfl, rfl⟩
  | release live view validating | approve live view validating =>
    rcases outlasts with hother | hidle
    · exact absurd view hother
    · exact absurd validating hidle
  | propose live leads pending view vacant =>
    rcases outlasts with hother | hfollows | hfailed | ⟨-, hlate | hheld⟩
    · exact absurd rfl hother
    · exact absurd (leads.symm.trans hfollows) (by simp)
    · exact absurd hfailed (by simp)
    · exact absurd view hlate
    · exact absurd vacant hheld
  | openPending live leads pending =>
    rcases outlasts with hother | hfollows | hfailed | ⟨hfree, -⟩
    · exact absurd rfl hother
    · exact absurd (leads.symm.trans hfollows) (by simp)
    · exact absurd hfailed (by simp)
    · exact absurd (pending.symm.trans hfree) (by simp)
  | watch | elapse => exact absurd rfl outlasts

/-- **Nothing is done with what is dismissed.** -/
theorem Act.of_dismisses (h : t.Act stimulus p rs q) (dismisses : t.Dismisses p stimulus) :
    q = p ∧ rs = [] := by
  by_contra hacts
  rcases stimulus with _ | m | event
  · exact dismisses
  · rcases dismisses with hdone | hinvalid | hspared
    · exact h.live_of_acts (by simp) hacts hdone
    · exact hinvalid (h.findsValid hacts)
    · exact hacts (h.of_spares hspared)
  · rcases dismisses with hdone | houtlasts
    · exact h.live_of_acts (by simp) hacts hdone
    · exact hacts (h.of_outlasts houtlasts)

theorem AtRest.of_consequences (rest : t.AtRest p) (hc : t.Consequences p rs q) :
    q = p ∧ rs = [] := by
  cases hc with
  | none => exact ⟨rfl, rfl⟩
  | more first => exact absurd first rest.not_consequence

/-- A term at rest that dismisses an input does nothing. -/
theorem AtRest.still (rest : t.AtRest p) (dismisses : t.Dismisses p stimulus)
    (validated : ∀ m valid, stimulus = .event (.validationFinished m valid) →
      m.height = t.height) {step : Step} (react : t.react p stimulus = .ok step) :
    step.progress = p ∧ step.requests = [] := by
  obtain ⟨⟨q, rs, rs', hact, hc, hrs⟩, -⟩ := react_cases validated react
  obtain ⟨rfl, rfl⟩ := hact.of_dismisses dismisses
  obtain ⟨rfl, rfl⟩ := rest.of_consequences hc
  exact ⟨rfl, hrs⟩

/-! ## What was acted on is of no use any more -/

/-- Where no view waits to be taken on, votes and commits are all that there is to draw
consequences from. -/
theorem Consequence.steady (h : t.Consequence p rs q) (unclaimed : t.Unclaimed p) :
    t.Unclaimed q ∧ q.view = p.view ∧ q.validating = p.validating ∧
      q.pendingNewView = p.pendingNewView := by
  cases h with
  | repropose claims | await claims => exact absurd claims (unclaimed _)
  | @commit m phase =>
    have hunclaimed : t.Unclaimed (t.commitTo { p with phase := .prepared } m.blockHash).progress :=
      unclaimed.mono (fun hdone => absurd (phase.symm.trans hdone) (by simp)) (by simp) (by simp)
        (by simp)
    obtain ⟨log, hshape⟩ := t.commitTo_shape { p with phase := .prepared } m.blockHash
    rw [hshape] at hunclaimed ⊢
    exact ⟨hunclaimed, rfl, rfl, rfl⟩
  | decide => exact ⟨unclaimed.mono (fun _ => rfl) (Nat.le_refl _) rfl rfl, rfl, rfl, rfl⟩

theorem Consequences.steady (h : t.Consequences p rs q) (unclaimed : t.Unclaimed p) :
    q.view = p.view ∧ q.validating = p.validating ∧ q.pendingNewView = p.pendingNewView := by
  induction h with
  | none p => exact ⟨rfl, rfl, rfl⟩
  | more first _ ih =>
    obtain ⟨hunclaimed, hview, hvalidating, hpending⟩ := first.steady unclaimed
    obtain ⟨hview', hvalidating', hpending'⟩ := ih hunclaimed
    exact ⟨hview'.trans hview, hvalidating'.trans hvalidating, hpending'.trans hpending⟩

theorem Consequences.view_le (h : t.Consequences p rs q) : p.view ≤ q.view := by
  induction h with
  | none p => exact Nat.le_refl _
  | more first _ ih => exact Nat.le_trans first.view_le ih

/-- An installed proposal is held, be it this one or the one that was there before. -/
theorem held_install (p : Progress) (m : PrePrepare) :
    (p.install m).progress.log.prePrepare? m.height m.view ≠ none := by
  rw [Progress.install]
  rcases hs : p.log.storePrePrepare? m with _ | log
  · exact MessageLog.storePrePrepare?_eq_none_iff.1 hs
  · intro hnone
    exact MessageLog.prePrepare?_eq_none_iff.1 hnone m
      ((MessageLog.mem_storePrePrepare? hs).2 (Or.inl rfl)) ⟨rfl, rfl⟩

/-- The leader that proposed a block waits for none. -/
theorem outlasts_of_installed {m : PrePrepare} (rest : t.AtRest p)
    (live : p.phase ≠ .committed) (pending : p.pendingNewView = none) (height : m.height = t.height)
    (hc : t.Consequences (p.install m).progress rs q) (proposal : Option (Block × BlockHash)) :
    t.Outlasts q (.proposalBuilt m.view proposal) := by
  have hunclaimed : t.Unclaimed (p.install m).progress := by
    refine rest.unclaimed.mono (fun hdone => absurd hdone live)
      (Nat.le_of_eq (view_install m).symm) ?_ (viewChanges_install m)
    obtain ⟨log, phase, hshape⟩ := install_shape p m
    rw [hshape]
  have hpending : q.pendingNewView = none := by
    obtain ⟨-, -, hkept⟩ := hc.steady hunclaimed
    obtain ⟨log, phase, hshape⟩ := install_shape p m
    rw [hkept, hshape]
    exact pending
  refine Or.inr (Or.inr (Or.inr ⟨hpending, Or.inr fun hnone => ?_⟩))
  refine held_install p m (MessageLog.prePrepare?_eq_none_iff.2 fun b hb hkey => ?_)
  rw [height] at hkey
  exact MessageLog.prePrepare?_eq_none_iff.1 hnone b (hc.grows.prePrepares.subset hb) hkey

/-- Filing a proposal and voting for it makes no view wait. -/
theorem Unclaimed.approve (h : t.Unclaimed p) (live : p.phase ≠ .committed) {m : PrePrepare}
    {log : MessageLog} (stored : p.log.storePrePrepare? m = some log) :
    t.Unclaimed (t.voteFor
      { p with validating := none, log, phase := .collectingPrePrepare } m).progress := by
  refine h.mono (fun hdone => absurd hdone live) (by simp) (by simp) ?_
  obtain ⟨-, rfl⟩ := MessageLog.storePrePrepare?_eq_some.1 stored
  rw [viewChanges_voteFor]

/-- **What was acted on is of no use any more**, whatever came of it. -/
theorem Act.spent {p₁ : Progress} {rs₁ : List Request} (h : t.Act stimulus p rs₁ p₁)
    (input : stimulus ≠ .start) (placed : t.Placed p) (rest : t.AtRest p)
    (hc : t.Consequences p₁ rs q) : t.Dismisses q stimulus := by
  cases h with
  | ignore dismisses =>
    obtain ⟨rfl, -⟩ := rest.of_consequences hc
    exact dismisses
  | start => exact absurd rfl input
  | @examine _ m =>
    obtain ⟨rfl, -⟩ := (rest.idle (some m.view) p.pendingNewView).of_consequences hc
    exact Spares.dismisses (m := .prePrepare m) (Or.inr (Or.inr (Or.inl rfl)))
  | @follow _ m live =>
    have hrest := (rest.reach live placed m.signed.content.view).idle (some m.signed.content.view)
      (p.reach m.signed.content.view).pendingNewView
    obtain ⟨rfl, -⟩ := hrest.of_consequences hc
    exact Spares.dismisses (m := .newView m) (Or.inr (Or.inr rfl))
  | release =>
    obtain ⟨rfl, -⟩ := (rest.idle none p.pendingNewView).of_consequences hc
    exact Or.inr (Or.inr (by simp))
  | @approve _ m log live view validating stored =>
    obtain ⟨-, hidle, -⟩ := hc.steady (rest.unclaimed.approve live stored)
    obtain ⟨log', hshape⟩ :=
      t.voteFor_shape { p with validating := none, log, phase := .collectingPrePrepare } m
    rw [hshape] at hidle
    exact Or.inr (Or.inr (by simp [hidle]))
  | propose live leads pending => exact Or.inr (outlasts_of_installed rest live pending rfl hc _)
  | openPending live =>
    exact Or.inr (outlasts_of_installed (p := { p with pendingNewView := none })
      (rest.idle p.validating none) live rfl rfl hc _)
  | watch | elapse =>
    -- the view that the timer was for is left
    have hle : p.view + 1 ≤ q.view := by
      refine Nat.le_trans (Nat.le_of_eq ?_) hc.view_le
      exact (p.view_reach (Nat.le_succ _)).symm
    exact Or.inr (Nat.ne_of_lt hle)
  | keepPrepare live mem height current near sender fits verifies first =>
    rw [← height] at first
    have hfiled := MessageLog.files_withPrepare (MessageLog.prepareKey_free first)
    exact dismisses_of_files (hfiled.mono hc.grows) height
  | keepCommit live mem height current near fits verifies share first =>
    rw [← height] at first
    have hfiled := MessageLog.files_withCommit (MessageLog.commitKey_free first)
    exact dismisses_of_files (hfiled.mono hc.grows) height
  | keepViewChange live current near leads admits stored =>
    obtain ⟨hasked, -⟩ := admitsViewChange_iff.1 admits
    exact dismisses_of_files ((MessageLog.files_of_storeViewChange? stored).mono hc.grows)
      hasked.height_eq

/-! ## A term survives what it may be given -/

/-- The time of the last view is up, and no view comes after it. -/
structure Exhausted (p : Progress) (stimulus : Stimulus) : Prop where
  live : p.phase ≠ .committed
  timer : stimulus = .event (.electionTimeout p.view)
  last : maxWord ≤ p.view

theorem react_exhausted (h : Exhausted p stimulus) :
    t.react p stimulus = .error .viewOverflow := by
  obtain ⟨live, rfl, last⟩ := h
  exact (if_neg live).trans (onElectionTimeout_last last)

/-- What is dismissed does not exhaust a term. -/
theorem Dismisses.not_exhausted (h : t.Dismisses p stimulus) : ¬Exhausted p stimulus := by
  rintro ⟨live, rfl, -⟩
  exact h.resolve_left live rfl

theorem onElectionTimeout_ok (t : Term) (p : Progress) (view : View)
    (room : view = p.view → p.view < maxWord) : ∃ s, t.onElectionTimeout p view = .ok s := by
  rw [onElectionTimeout]
  split
  · exact ⟨_, rfl⟩
  · next hview =>
    obtain rfl : view = p.view := not_not.1 hview
    rw [nextView_of_lt (room rfl)]
    change ∃ s, (p.enterView (p.view + 1) >>= _) = .ok s
    rw [enterView_of_lt (Nat.lt_succ_self p.view)]
    simp only [Bind.bind, Except.bind]
    split
    · exact ⟨_, rfl⟩
    · split
      · split
        · next hfault =>
          obtain ⟨s, hs⟩ := checkViewChanges_ok t _ _
          exact absurd (hs.symm.trans hfault) (by simp)
        · exact ⟨_, rfl⟩
      · exact ⟨_, rfl⟩

theorem onProposalBuilt_ok (standing : t.Standing p) (view : View)
    (proposal : Option (Block × BlockHash)) : ∃ s, t.onProposalBuilt p view proposal = .ok s := by
  unfold onProposalBuilt
  split
  · exact ⟨_, rfl⟩
  · next hlead =>
    simp only [not_or, ne_eq, not_not] at hlead
    obtain ⟨rfl, -⟩ := hlead
    split
    · exact ⟨_, rfl⟩
    · split
      · next pending votes hpending =>
        obtain ⟨⟨hview, -⟩, -⟩ := standing.pending pending votes hpending
        rw [if_pos hview]
        exact ⟨_, rfl⟩
      · split <;> exact ⟨_, rfl⟩

/-- **A term survives whatever its caller may give it**, as long as there are views left. -/
theorem Run.react_ok (run : t.Run past) (permits : t.Permits past stimulus)
    (room : ¬Exhausted past.progress stimulus) :
    ∃ step, t.react past.progress stimulus = .ok step := by
  rcases stimulus with _ | m | event
  · exact ⟨_, rfl⟩
  · exact handleMessage_ok permits.1 _
  · show ∃ step, t.handleEvent past.progress event = .ok step
    unfold handleEvent
    split
    · exact ⟨_, rfl⟩
    · next live =>
      cases event with
      | electionTimeout view =>
        refine onElectionTimeout_ok t _ view fun hview => Nat.lt_of_not_le fun hlast => ?_
        exact room ⟨live, hview ▸ rfl, hlast⟩
      | proposalBuilt view proposal => exact onProposalBuilt_ok run.trace.standing view proposal
      | validationFinished m valid => exact ⟨_, rfl⟩

/-- A run that goes on is a run, and what was filed stays so. -/
theorem Onward.run_files (h : t.Onward past later) (run : t.Run past)
    (filed : past.progress.log.Files m) : t.Run later ∧ later.progress.log.Files m := by
  induction h with
  | here => exact ⟨run, filed⟩
  | step _ permits react ih =>
    obtain ⟨hrun, hfiled⟩ := ih
    exact ⟨hrun.step permits react, hfiled.mono (hrun.before permits react).log⟩

/-! ## Redelivery is harmless -/

/-- **Redelivery and late results are harmless.**  If a term is given once more what its caller may
give it, it stays as it is and asks for nothing.  The one thing that it does not survive is that
the time of the last view is up.  A message of another member that is filed changes nothing and
asks for nothing when it comes again, then or later.  And a controller is left as it is by every
event that is not of the height of its term, or not of the view that the term is in. -/
theorem Run.redelivery_harmless (run : t.Run past) :
    (∀ stimulus, stimulus ≠ .start → t.Permits past stimulus →
      Exhausted past.progress stimulus ∧
          t.react past.progress stimulus = .error .viewOverflow ∨
        ¬Exhausted past.progress stimulus ∧
          ∃ step, t.react past.progress stimulus = .ok step ∧
            ∃ again, t.react step.progress stimulus = .ok again ∧
              again.progress = step.progress ∧ again.requests = []) ∧
    (∀ m later, past.progress.log.Files m → m.sender ≠ t.me → t.Onward past later →
      ∃ step, t.react later.progress (.message m) = .ok step ∧
        step.progress = later.progress ∧ step.requests = []) ∧
    ∀ (moment : Moment) (c : Controller) (late : LateEvent),
      c.height? ≠ some late.height ∨ c.view? ≠ some late.event.view →
        ∃ metrics : List Metric,
          (Controller.handleLate late).run moment c = ⟨c, metrics.map .report, .ok ()⟩ := by
  refine ⟨fun stimulus input permits => ?_, fun m later filed other onward => ?_,
    fun moment c late => Controller.handleLate_still moment c⟩
  · by_cases hroom : Exhausted past.progress stimulus
    · exact Or.inl ⟨hroom, react_exhausted hroom⟩
    · obtain ⟨step, hreact⟩ := run.react_ok permits hroom
      obtain ⟨⟨p, rs, rs', hact, hc, -⟩, -⟩ := react_cases (run.trace.validated permits) hreact
      have hspent := hact.spent input run.trace.placed run.atRest hc
      have hrun := run.step permits hreact
      have hpermits : t.Permits (past.after stimulus step) stimulus :=
        permits.mono (List.subset_append_left _ _)
      obtain ⟨again, hagain⟩ := hrun.react_ok hpermits hspent.not_exhausted
      exact Or.inr ⟨hroom, step, hreact, again, hagain,
        hrun.atRest.still hspent (hrun.trace.validated hpermits) hagain⟩
  · obtain ⟨hrun, hfiled⟩ := onward.run_files run filed
    have hheight := hrun.trace.height_of_files hfiled
    have hspent := dismisses_of_files hfiled hheight
    have hpermits : t.Permits later (.message m) := ⟨hheight, other⟩
    obtain ⟨step, hreact⟩ := hrun.react_ok hpermits hspent.not_exhausted
    exact ⟨step, hreact, hrun.atRest.still hspent (fun _ _ h => absurd h (by simp)) hreact⟩

/-- The fourth member is asked to validate a proposal, and has heard of a vote for it. -/
def examiningPast : Past :=
  (Assembly.sample.term 3).play [.message (.prePrepare (Assembly.proposalBy 0 0)),
    .message (Assembly.voteBy 1 0)]

/-- The fourth member has opened the last view there is, and the first one has heard of it. -/
def lastViewPast : Past :=
  (Assembly.sample.term 0).play [.message (.newView ((Assembly.plainKeys 3).newView 1 maxWord
    (Assembly.proposalBy 3 maxWord)
    ([0, 1, 2].map fun i => (Assembly.requestBy i maxWord).signed)))]

/-- The proposal is found valid, and the member votes and commits.  To hear so again, or of the
vote, makes no difference to it, and neither does an election of the next height.  A member in the
last view is past caring about the time of another one, and does not survive that its own is up. -/
theorem redelivery_harmless_sample :
    (∃ step, (Assembly.sample.term 3).react examiningPast.progress
        (.event (.validationFinished (Assembly.proposalBy 0 0) true)) = .ok step ∧
      step.progress.phase = .prepared ∧
      (∃ again, (Assembly.sample.term 3).react step.progress
          (.event (.validationFinished (Assembly.proposalBy 0 0) true)) = .ok again ∧
        again.progress = step.progress ∧ again.requests = []) ∧
      (∃ again, (Assembly.sample.term 3).react step.progress
          (.message (Assembly.voteBy 1 0)) = .ok again ∧
        again.progress = step.progress ∧ again.requests = []) ∧
      ∃ metrics : List Metric, (Controller.handleLate ⟨2, .electionTimeout 0⟩).run
          ⟨0, fun _ _ => .ok [0]⟩ ((Controller.initial .standard
            (Assembly.sample.capabilities 3)).adopting (Assembly.sample.term 3) step.progress) =
        ⟨(Controller.initial .standard (Assembly.sample.capabilities 3)).adopting
          (Assembly.sample.term 3) step.progress, metrics.map .report, .ok ()⟩) ∧
    lastViewPast.progress.view = maxWord ∧
    (∃ step, (Assembly.sample.term 0).react lastViewPast.progress
        (.event (.electionTimeout 0)) = .ok step) ∧
    (Assembly.sample.term 0).react lastViewPast.progress (.event (.electionTimeout maxWord)) =
      .error .viewOverflow := by
  have hrun : (Assembly.sample.term 3).Run examiningPast := run_play _
  have hpermits : (Assembly.sample.term 3).Permits examiningPast
      (.event (.validationFinished (Assembly.proposalBy 0 0) true)) := by
    decide +kernel
  obtain ⟨hprepared, hfiled⟩ : (∃ step, (Assembly.sample.term 3).react examiningPast.progress
      (.event (.validationFinished (Assembly.proposalBy 0 0) true)) = .ok step ∧
        step.progress.phase = .prepared) ∧
      (Assembly.plainKeys 1).prepare 1 0 Assembly.sampleBlock.2 ∈
        examiningPast.progress.log.prepares := by
    decide +kernel
  obtain ⟨step, hreact, hphase⟩ := hprepared
  obtain ⟨htwice, hold, hlate⟩ := Run.redelivery_harmless hrun
  have hlasting : (Assembly.sample.term 0).Run lastViewPast := run_play _
  obtain ⟨hlast, hlive⟩ : lastViewPast.progress.view = maxWord ∧
      lastViewPast.progress.phase ≠ .committed := by
    decide +kernel
  obtain ⟨htimes, -, -⟩ := Run.redelivery_harmless hlasting
  refine ⟨⟨step, hreact, hphase, ?_, ?_, ?_⟩, hlast, ?_, ?_⟩
  · obtain ⟨-, hfault⟩ | ⟨-, step', hreact', hagain⟩ := htwice _ (by simp) hpermits
    · exact absurd (hreact.symm.trans hfault) (by simp)
    · obtain rfl := Except.ok.inj (hreact.symm.trans hreact')
      exact hagain
  · exact hold (Assembly.voteBy 1 0) _ hfiled (by decide) (.step .here hpermits hreact)
  · have hheight : (Assembly.sample.term 3).height ≠ 2 := by decide
    exact hlate _ _ _ (Or.inl fun h => hheight (Option.some.inj h))
  · obtain ⟨hexhausted, -⟩ | ⟨-, step, hstep, -⟩ :=
      htimes (.event (.electionTimeout 0)) (by simp) trivial
    · have hview := hexhausted.timer
      rw [hlast] at hview
      exact absurd hview (by decide)
    · exact ⟨step, hstep⟩
  · obtain ⟨-, hfault⟩ | ⟨hroom, -⟩ :=
      htimes (.event (.electionTimeout maxWord)) (by simp) trivial
    · exact hfault
    · exact absurd ⟨hlive, by rw [hlast], Nat.le_of_eq hlast.symm⟩ hroom

end Term

end CommitteeConsensus
