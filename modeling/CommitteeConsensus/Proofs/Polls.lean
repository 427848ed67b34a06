import CommitteeConsensus.Proofs.Ballots

/-!
# The order of votes

Within a view it makes no difference in which order the votes, the commits and the word that the
proposal is valid come in.  The runs do differ: other votes are dropped, a member may never commit
itself, and once the height is decided nothing is looked at any more.

Two terms that took in the same inputs have the same tally.  The one that is still open counts
everything that the other one does (`Tally.ballot`, `Tally.commits`), so if the other one were
decided, it would be decided itself (`Tally.committed`).  If none is, both have the same proposal
and the same votes for it, and the votes alone tell whether the view is prepared
(`Trace.ripe`, `Run.prepared_of_ripe`).  And what is decided is the proposal of the view
(`Trace.decision_current`), of which there is one.
-/

namespace CommitteeConsensus

/-- Whose ballot an input is, and of which kind. -/
def Stimulus.caster? : Stimulus → Option (BallotKind × MemberId)
  | .message m => m.ballot?.map fun b => (b.kind, b.member)
  | _ => none

/-- The inputs of a poll: a ballot of the view, or the word that a proposal is valid. -/
inductive Stimulus.Polls (view : View) : Stimulus → Prop where
  | message {m : Message} (ballot : m.ballot? ≠ none) (current : m.view = view) :
    Polls view (.message m)
  | approval (m : PrePrepare) : Polls view (.event (.validationFinished m true))

/-- The proposal that the host has found valid. -/
def Stimulus.approved? : Stimulus → Option PrePrepare
  | .event (.validationFinished m true) => some m
  | _ => none

/-- What a decision comes to: its view, the block and the hash of it. -/
def Decision.outcome (d : Decision) : View × Block × BlockHash :=
  (d.view, d.block, d.proof.blockHash)

namespace Term

variable {t : Term} {p q : Progress} {rs : List Request} {stimulus : Stimulus} {past : Past}
  {m : Message} {b : Ballot} {inputs inputs' : List Stimulus}

/-! ## Polls -/

/-- Votes and commits of the current view, at most one of each kind from a member, and at most
once the word that a proposal is valid. -/
structure Poll (t : Term) (past : Past) (inputs : List Stimulus) : Prop where
  polls : ∀ stimulus ∈ inputs, stimulus.Polls past.progress.view
  permits : ∀ stimulus ∈ inputs, t.Permits past stimulus
  once : (inputs.filterMap Stimulus.caster?).Nodup
  sole : (inputs.filterMap Stimulus.approved?).length ≤ 1

/-- What a term does with inputs that it is given one after the other. -/
def reactAll (t : Term) : Progress → List Stimulus → Except Fault Step
  | p, [] => .ok (.quiet p)
  | p, stimulus :: rest => do
    let first ← t.react p stimulus
    let last ← t.reactAll first.progress rest
    return ⟨last.progress, first.requests ++ last.requests, first.metrics ++ last.metrics⟩

theorem Poll.perm {inputs inputs' : List Stimulus} (h : t.Poll past inputs)
    (perm : inputs.Perm inputs') : t.Poll past inputs' where
  polls stimulus hs := h.polls stimulus (perm.mem_iff.2 hs)
  permits stimulus hs := h.permits stimulus (perm.mem_iff.2 hs)
  once := (perm.filterMap _).nodup_iff.1 h.once
  sole := (perm.filterMap _).length_eq ▸ h.sole

/-- In a poll, no one has cast a ballot of the kind before. -/
theorem Poll.first_ballot {done rest : List Stimulus}
    (h : t.Poll past (done ++ .message m :: rest)) (ballot : m.ballot? = some b) :
    ∀ m' b', .message m' ∈ done → m'.ballot? = some b' →
      (b'.kind, b'.member) ≠ (b.kind, b.member) := by
  intro m' b' hm' hballot heq
  have honce := h.once
  rw [List.filterMap_append, List.nodup_append] at honce
  refine honce.2.2 (b'.kind, b'.member) ?_ (b.kind, b.member) ?_ heq
  · exact List.mem_filterMap.2 ⟨_, hm', by simp [Stimulus.caster?, hballot]⟩
  · exact List.mem_filterMap.2 ⟨_, List.mem_cons_self, by simp [Stimulus.caster?, ballot]⟩

/-- In a poll, there is no second word from the host. -/
theorem Poll.first_approval {done rest : List Stimulus} {m : PrePrepare}
    (h : t.Poll past (done ++ .event (.validationFinished m true) :: rest)) :
    ∀ m', .event (.validationFinished m' true) ∉ done := by
  intro m' hm'
  have hsole := h.sole
  have happroved : m' ∈ done.filterMap Stimulus.approved? := List.mem_filterMap.2 ⟨_, hm', rfl⟩
  rw [List.filterMap_append, List.length_append,
    List.filterMap_cons_some (f := Stimulus.approved?) (b := m) rfl, List.length_cons] at hsole
  have hpos := List.length_pos_of_mem happroved
  omega

/-- What the host finds valid in a poll is one proposal. -/
theorem Poll.approval_unique (h : t.Poll past inputs) {m m' : PrePrepare}
    (hm : .event (.validationFinished m true) ∈ inputs)
    (hm' : .event (.validationFinished m' true) ∈ inputs) : m = m' := by
  have hmem : m ∈ inputs.filterMap Stimulus.approved? := List.mem_filterMap.2 ⟨_, hm, rfl⟩
  have hmem' : m' ∈ inputs.filterMap Stimulus.approved? := List.mem_filterMap.2 ⟨_, hm', rfl⟩
  have hsole := h.sole
  rcases hlist : inputs.filterMap Stimulus.approved? with _ | ⟨x, _ | ⟨y, l⟩⟩
  · rw [hlist] at hmem
    exact absurd hmem List.not_mem_nil
  · rw [hlist, List.mem_singleton] at hmem hmem'
    rw [hmem, hmem']
  · rw [hlist] at hsole
    simp at hsole

/-- No view waits to be taken on because of a poll. -/
theorem Act.unclaimed (h : t.Act stimulus p rs q) {view : View} (polls : stimulus.Polls view)
    (unclaimed : t.Unclaimed p) : t.Unclaimed q := by
  cases polls with
  | @message m ballot =>
    obtain ⟨b, hb⟩ := Option.ne_none_iff_exists'.1 ballot
    rcases h.of_ballot hb with ⟨-, rfl⟩ | keeps
    · exact unclaimed
    · rw [keeps.shape]
      exact unclaimed.mono (fun hdone => hdone) (Nat.le_refl _) rfl keeps.viewChanges
  | approval =>
    cases h with
    | ignore => exact unclaimed
    | release => exact unclaimed.mono (fun hdone => hdone) (Nat.le_refl _) rfl rfl
    | approve live view validating stored => exact unclaimed.approve live stored

/-- Taking one more input in. -/
theorem Tally.react {start : Past} {done rest : List Stimulus} {step : Step}
    (tally : t.Tally start.progress done past.progress) (run : t.Run past)
    (kept : start.requests ⊆ past.requests) (poll : t.Poll start (done ++ stimulus :: rest))
    (react : t.react past.progress stimulus = .ok step) :
    t.Tally start.progress (done ++ [stimulus]) step.progress := by
  have hmem : stimulus ∈ done ++ stimulus :: rest := List.mem_append_right _ List.mem_cons_self
  have hpolls := poll.polls stimulus hmem
  have hpermits := (poll.permits stimulus hmem).mono kept
  obtain ⟨⟨p, rs, rs', hact, hc, -⟩, -⟩ := react_cases (run.trace.validated hpermits) react
  suffices htally : t.Tally start.progress (done ++ [stimulus]) p from
    htally.consequences hc (hact.unclaimed hpolls run.atRest.unclaimed)
  cases hpolls with
  | @message m ballot view =>
    obtain ⟨b, hb⟩ := Option.ne_none_iff_exists'.1 ballot
    exact tally.message hact hb view hpermits.2 (poll.first_ballot hb)
  | approval m =>
    exact tally.event hact run.trace.placed (run.trace.validated hpermits m true rfl)
      poll.first_approval

/-- A poll does not exhaust a term: no time is up in it. -/
theorem Poll.not_exhausted {inputs : List Stimulus} (h : t.Poll past inputs)
    (mem : stimulus ∈ inputs) (p : Progress) : ¬Exhausted p stimulus := by
  rintro ⟨-, rfl, -⟩
  cases h.polls _ mem

/-- Taking a poll in, from anywhere within it. -/
theorem Tally.reactAll {start : Past} {done rest : List Stimulus}
    (tally : t.Tally start.progress done past.progress) (run : t.Run past)
    (kept : start.requests ⊆ past.requests) (poll : t.Poll start (done ++ rest)) :
    ∃ s, t.reactAll past.progress rest = .ok s ∧
      t.Run ⟨s.progress, past.taken ++ rest, past.requests ++ s.requests⟩ ∧
        t.Tally start.progress (done ++ rest) s.progress := by
  induction rest generalizing past done with
  | nil =>
    refine ⟨.quiet past.progress, rfl, ?_, ?_⟩
    · rw [Step.quiet, List.append_nil, List.append_nil]
      exact run
    · rw [List.append_nil]
      exact tally
  | cons stimulus rest ih =>
    have hmem : stimulus ∈ done ++ stimulus :: rest := List.mem_append_right _ List.mem_cons_self
    have hpermits := (poll.permits stimulus hmem).mono kept
    obtain ⟨step, hreact⟩ := run.react_ok hpermits (poll.not_exhausted hmem _)
    have htally := tally.react run kept poll hreact
    rw [← List.singleton_append, ← List.append_assoc] at poll
    obtain ⟨s, hs, hrun, hend⟩ := ih htally (run.step hpermits hreact)
      (fun r hr => List.mem_append_left _ (kept hr)) poll
    refine ⟨⟨s.progress, step.requests ++ s.requests, step.metrics ++ s.metrics⟩, ?_, ?_, ?_⟩
    · simp only [Term.reactAll, hreact, bind, Except.bind]
      rw [show t.reactAll step.progress rest = .ok s from hs]
      rfl
    · simpa only [Past.after, List.append_assoc, List.singleton_append] using hrun
    · simpa only [List.append_assoc, List.singleton_append] using hend

theorem reactAll_cons {rest : List Stimulus} {s : Step}
    (h : t.reactAll p (stimulus :: rest) = .ok s) :
    ∃ first last, t.react p stimulus = .ok first ∧ t.reactAll first.progress rest = .ok last ∧
      s.progress = last.progress ∧ s.requests = first.requests ++ last.requests := by
  rw [Term.reactAll] at h
  rcases hfirst : t.react p stimulus with fault | first
  · rw [hfirst] at h
    exact absurd h (by simp [bind, Except.bind])
  · rw [hfirst] at h
    rcases hlast : t.reactAll first.progress rest with fault | last
    · simp [bind, Except.bind, hlast] at h
    · simp only [bind, Except.bind, hlast] at h
      rw [← Except.ok.inj h]
      exact ⟨first, last, rfl, hlast, rfl, rfl⟩

/-- A decided term takes everything in without a word. -/
theorem reactAll_of_committed {s : Step} (h : t.reactAll p inputs = .ok s)
    (done : p.phase = .committed) : s.progress = p ∧ decisionsIn s.requests = [] := by
  induction inputs generalizing p s with
  | nil =>
    rw [← Except.ok.inj h]
    exact ⟨rfl, rfl⟩
  | cons stimulus rest ih =>
    obtain ⟨first, last, hfirst, hlast, hprogress, hrequests⟩ := reactAll_cons h
    obtain ⟨hsame, hnone⟩ := react_of_committed hfirst done
    rw [hsame] at hlast
    obtain ⟨hend, hquiet⟩ := ih hlast done
    rw [hprogress, hrequests, decisionsIn_append, hnone, hquiet]
    exact ⟨hend, rfl⟩

/-- However much a term takes in, it decides once, and is closed exactly if it does. -/
theorem reactAll_decides_once {s : Step} (h : t.reactAll p inputs = .ok s)
    (live : p.phase ≠ .committed) : DecidesOnce s.requests s.progress := by
  induction inputs generalizing p s with
  | nil =>
    rw [← Except.ok.inj h]
    exact Or.inl ⟨rfl, live⟩
  | cons stimulus rest ih =>
    obtain ⟨first, last, hfirst, hlast, hprogress, hrequests⟩ := reactAll_cons h
    rw [DecidesOnce, hprogress, hrequests, decisionsIn_append]
    rcases react_decides_once hfirst live with ⟨hnone, hopen⟩ | ⟨d, hd, hclosed⟩
    · rw [hnone, List.nil_append]
      exact ih hlast hopen
    · obtain ⟨hsame, hquiet⟩ := reactAll_of_committed hlast hclosed
      rw [hd, hquiet, hsame]
      exact Or.inr ⟨d, rfl, hclosed⟩

/-! ## What the phase and a decision tell -/

theorem Consequence.of_committed (h : t.Consequence p rs q) (done : q.phase = .committed) :
    q = { p with phase := .committed } := by
  cases h with
  | repropose claims => exact absurd done (install_live (p.claim_live claims.live))
  | await claims => exact absurd done (p.claim_live claims.live)
  | commit =>
    rw [phase_commitTo] at done
    exact absurd done (by simp)
  | decide => rfl

/-- What a term decides is the proposal of the view that it is in, and that is where it stays. -/
theorem Trace.decision_current (h : t.Trace past) {d : Decision} (hd : .decide d ∈ past.requests) :
    past.progress.phase = .committed ∧ d.view = past.progress.view ∧
      ∃ m, past.progress.log.prePrepare? t.height past.progress.view = some m ∧
        d.block = m.block ∧ d.proof.blockHash = m.blockHash := by
  induction h with
  | fresh => exact absurd hd List.not_mem_nil
  | act _ _ _ act ih =>
    rcases List.mem_append.1 hd with hold | hnew
    · have hdone := (ih hold).1
      rw [Past.acted, act.of_committed hdone]
      exact ih hold
    · exact absurd hnew act.not_decides
  | @consequence past rs q _ consequence ih =>
    rcases List.mem_append.1 hd with hold | hnew
    · exact absurd (ih hold).1 consequence.live
    · have hdone : q.phase = .committed := by
        rcases consequence.decides_once with ⟨hnone, -⟩ | ⟨-, -, hdone⟩
        · exact absurd (mem_decisionsIn.2 hnew) (by simp [hnone])
        · exact hdone
      obtain ⟨m, hm, -, rfl⟩ := consequence.decides hnew
      obtain rfl := consequence.of_committed hdone
      exact ⟨rfl, rfl, m, hm, rfl, rfl⟩

theorem reach_of_prepared {view : View} (h : (p.reach view).phase = .prepared) :
    p.reach view = p := by
  by_cases hlt : p.view < view
  · rw [p.reach_of_lt hlt] at h
    exact absurd h (by simp)
  · exact p.reach_of_not_lt hlt

theorem install_of_prepared {m : PrePrepare} (h : (p.install m).progress.phase = .prepared) :
    (p.install m).progress = p := by
  rw [Progress.install] at h ⊢
  split
  · rfl
  · next log hlog =>
    rw [hlog] at h
    exact absurd h (by simp [Step.ask])

/-- The current proposal has the votes of a quorum. -/
def Ripe (t : Term) (p : Progress) : Prop :=
  ∃ m, p.log.prePrepare? t.height p.view = some m ∧
    t.committee.quorum - 1 ≤ (p.log.casters .vote t.height p.view m.blockHash).length

theorem Ripe.mono (h : t.Ripe p) (view : q.view = p.view)
    (prePrepares : q.log.prePrepares = p.log.prePrepares) (grows : p.log.Grows q.log) :
    t.Ripe q := by
  obtain ⟨m, hm, hquorum⟩ := h
  rw [Ripe, view, MessageLog.prePrepare?_congr prePrepares]
  exact ⟨m, hm, Nat.le_trans hquorum (grows.preparesFor.map _).length_le⟩

/-- No act makes a view prepared. -/
theorem Act.of_prepared (h : t.Act stimulus p rs q) (prepared : q.phase = .prepared) :
    p.phase = .prepared ∧ q.view = p.view ∧ q.log.prePrepares = p.log.prePrepares := by
  cases h with
  | ignore | start | examine | release => exact ⟨prepared, rfl, rfl⟩
  | follow | watch =>
    have hsame := reach_of_prepared prepared
    exact ⟨(congrArg (·.phase) hsame).symm.trans prepared, congrArg (·.view) hsame,
      congrArg (·.log.prePrepares) hsame⟩
  | elapse =>
    have hview := p.view_reach (Nat.le_succ p.view)
    rw [reach_of_prepared prepared] at hview
    exact absurd hview (Nat.ne_of_lt (Nat.lt_succ_self _))
  | approve =>
    rw [phase_voteFor] at prepared
    exact absurd prepared (by simp)
  | propose | openPending =>
    have hsame := install_of_prepared prepared
    rw [hsame] at prepared ⊢
    exact ⟨prepared, rfl, rfl⟩
  | keepPrepare => exact ⟨prepared, rfl, MessageLog.prePrepares_withPrepare _ _⟩
  | keepCommit => exact ⟨prepared, rfl, MessageLog.prePrepares_withCommit _ _⟩
  | keepViewChange live current near leads admits stored =>
    rw [MessageLog.storeViewChange?_eq_some stored]
    exact ⟨prepared, rfl, MessageLog.prePrepares_withViewChange _ _⟩

/-- A view becomes prepared with the votes of a quorum only. -/
theorem Consequence.of_prepared (h : t.Consequence p rs q) (prepared : q.phase = .prepared) :
    (p.phase = .prepared ∧ q.view = p.view ∧ q.log.prePrepares = p.log.prePrepares) ∨
      t.Ripe q := by
  cases h with
  | @repropose view =>
    have hinstalled := install_of_prepared prepared
    rw [hinstalled] at prepared ⊢
    have hsame : p.claim view = { p with lastNewView := some view } := reach_of_prepared prepared
    rw [hsame] at prepared ⊢
    exact Or.inl ⟨prepared, rfl, rfl⟩
  | @await view =>
    have hsame : p.claim view = { p with lastNewView := some view } := reach_of_prepared prepared
    dsimp only at prepared ⊢
    rw [hsame] at prepared ⊢
    exact Or.inl ⟨prepared, rfl, rfl⟩
  | @commit m phase proposal quorum =>
    refine Or.inr ⟨m, ?_, ?_⟩
    · rwa [view_commitTo, MessageLog.prePrepare?_congr (prePrepares_commitTo _ _ _)]
    · refine Nat.le_trans quorum ?_
      rw [view_commitTo]
      exact ((grows_commitTo { p with phase := .prepared } m.blockHash).preparesFor.map _).length_le
  | decide => exact absurd prepared (by simp)

/-- A view that is prepared has the votes of a quorum. -/
theorem Trace.ripe (h : t.Trace past) (prepared : past.progress.phase = .prepared) :
    t.Ripe past.progress := by
  induction h with
  | fresh => exact absurd prepared (by simp [Past.fresh, Progress.initial])
  | act _ _ _ act ih =>
    obtain ⟨hbefore, hview, hprePrepares⟩ := act.of_prepared prepared
    exact (ih hbefore).mono hview hprePrepares act.grows
  | consequence _ consequence ih =>
    rcases consequence.of_prepared prepared with ⟨hbefore, hview, hprePrepares⟩ | hripe
    · exact (ih hbefore).mono hview hprePrepares consequence.grows
    · exact hripe

/-- A proposal of the current view is voted for, until the view is prepared or decided. -/
theorem Placed.collecting (h : t.Placed p) {m : PrePrepare}
    (proposal : p.log.prePrepare? t.height p.view = some m) (live : p.phase ≠ .committed)
    (unprepared : p.phase ≠ .prepared) : p.phase = .collectingPrePrepare := by
  rcases hphase : p.phase
  · rfl
  · exact absurd hphase unprepared
  · exact absurd hphase live
  · obtain ⟨hmem, -, hview⟩ := MessageLog.of_prePrepare?_eq_some proposal
    exact absurd hview (Nat.ne_of_lt (h.lt hphase m hmem))

/-- Between inputs, a view with the votes of a quorum is prepared or decided. -/
theorem Run.prepared_of_ripe (run : t.Run past) (ripe : t.Ripe past.progress)
    (live : past.progress.phase ≠ .committed) : past.progress.phase = .prepared := by
  obtain ⟨m, hm, hquorum⟩ := ripe
  by_contra hunprepared
  have hcollecting := run.trace.placed.collecting hm live hunprepared
  exact absurd hquorum (Nat.not_le_of_lt (run.atRest.uncommitted hcollecting m hm))

/-! ## Two orders of one poll -/

section Orders

variable {past' : Past} (tally : t.Tally p inputs past.progress)
  (tally' : t.Tally p inputs' past'.progress) (sub : inputs ⊆ inputs')

include tally tally' sub

/-- As long as the height is open, no proposal is missed. -/
theorem Tally.proposal (live : past'.progress.phase ≠ .committed) {m : PrePrepare}
    (hm : past.progress.log.prePrepare? t.height p.view = some m) :
    past'.progress.log.prePrepare? t.height p.view = some m :=
  tally'.held live m ((tally.proposed m hm).mono sub)

/-- As long as the height is open, no ballot for the proposal is missed. -/
theorem Tally.ballot (live : past'.progress.phase ≠ .committed) {m : PrePrepare}
    (hm : past.progress.log.prePrepare? t.height p.view = some m) {kind : BallotKind}
    {i : MemberId} (hcast : t.Cast p inputs ⟨kind, m.blockHash, i⟩) :
    past'.progress.log.Counts t.height p.view ⟨kind, m.blockHash, i⟩ := by
  refine tally'.counted live _ (hcast.mono sub) ?_
  rw [matchesProposal, tally.proposal tally' sub live hm]
  exact beq_self_eq_true _

variable (run : t.Run past) (run' : t.Run past')

include run run'

/-- What is ripe in one order is prepared in any other, if it is not decided. -/
theorem Tally.prepared (live : past'.progress.phase ≠ .committed)
    (ripe : t.Ripe past.progress) : past'.progress.phase = .prepared := by
  obtain ⟨m, hm, hquorum⟩ := ripe
  rw [tally.view] at hm hquorum
  refine run'.prepared_of_ripe ⟨m, ?_, Nat.le_trans hquorum ?_⟩ live
  · rw [tally'.view]
    exact tally.proposal tally' sub live hm
  · rw [tally'.view]
    refine MessageLog.length_casters_le run.trace.placed.wellFormed fun i hi => ?_
    rcases tally.cast _ hi with hcast | ⟨hash, heq, -⟩
    · exact tally.ballot tally' sub live hm hcast
    · exact absurd heq (by simp)

/-- As long as the height is open, no commit to the proposal is missed, the own one included. -/
theorem Tally.commits (live : past'.progress.phase ≠ .committed) {m : PrePrepare}
    (hm : past.progress.log.prePrepare? t.height p.view = some m) {i : MemberId}
    (hi : past.progress.log.Counts t.height p.view ⟨.commit, m.blockHash, i⟩) :
    past'.progress.log.Counts t.height p.view ⟨.commit, m.blockHash, i⟩ := by
  rcases tally.cast _ hi with hcast | ⟨hash, heq, hmember, hbacks⟩
  · exact tally.ballot tally' sub live hm hcast
  · obtain ⟨-, rfl, rfl⟩ := Ballot.mk.inj heq
    -- it came with the votes of a quorum, which the other order has as well
    have hvotes := hbacks.votes
    rw [← MessageLog.length_prepareSenders] at hvotes
    have hripe : t.Ripe past.progress := by
      rw [Ripe, tally.view]
      exact ⟨m, hm, hvotes⟩
    have hprepared := tally.prepared tally' sub run run' live hripe
    obtain ⟨m', hm', s, hs, hsender⟩ := run'.trace.standing.backed hprepared hmember
    rw [tally'.view, tally.proposal tally' sub live hm] at hm'
    obtain rfl := Option.some.inj hm'
    rw [tally'.view] at hs
    exact List.mem_map.2 ⟨s, hs, hsender⟩

/-- **What is decided in one order is decided in any other.** -/
theorem Tally.committed (done : past.progress.phase = .committed) :
    past'.progress.phase = .committed := by
  by_contra live
  obtain ⟨m, hm, hquorum⟩ := run.trace.standing.decided done
  rw [tally.view] at hm hquorum
  have hm' := tally.proposal tally' sub live hm
  have hlength := MessageLog.length_casters_le run.trace.placed.wellFormed
    fun i hi => tally.commits tally' sub run run' live hm hi
  simp only [MessageLog.casters, MessageLog.commitSenders, List.length_map] at hlength
  have hreached := Nat.le_trans hquorum hlength
  rw [← tally'.view] at hm' hreached
  exact absurd hreached (Nat.not_le_of_lt (run'.atRest.undecided live m hm'))

end Orders

/-- **The phase does not depend on the order.** -/
theorem Tally.phase_eq {past' : Past} (tally : t.Tally p inputs past.progress)
    (tally' : t.Tally p inputs' past'.progress) (perm : inputs.Perm inputs') (run : t.Run past)
    (run' : t.Run past') : past.progress.phase = past'.progress.phase := by
  have hsub := perm.subset
  have hsub' := perm.symm.subset
  by_cases hdone : past.progress.phase = .committed
  · rw [hdone, tally.committed tally' hsub run run' hdone]
  by_cases hdone' : past'.progress.phase = .committed
  · exact absurd (tally'.committed tally hsub' run' run hdone') hdone
  by_cases hprepared : past.progress.phase = .prepared
  · rw [hprepared, tally.prepared tally' hsub run run' hdone' (run.trace.ripe hprepared)]
  by_cases hprepared' : past'.progress.phase = .prepared
  · exact absurd (tally'.prepared tally hsub' run' run hdone (run'.trace.ripe hprepared')) hprepared
  rcases hproposal : past.progress.log.prePrepare? t.height p.view with _ | m
  · have hnone : past'.progress.log.prePrepare? t.height p.view = none := by
      by_contra hheld
      obtain ⟨m, hm⟩ := Option.ne_none_iff_exists'.1 hheld
      exact absurd ((tally'.proposal tally hsub' hdone hm).symm.trans hproposal) (by simp)
    rw [tally.phase hproposal, tally'.phase hnone]
  · have hproposal' := tally.proposal tally' hsub hdone' hproposal
    rw [← tally.view] at hproposal
    rw [← tally'.view] at hproposal'
    rw [run.trace.placed.collecting hproposal hdone hprepared,
      run'.trace.placed.collecting hproposal' hdone' hprepared']

/-- The view has one proposal at most. -/
theorem Proposed.unique {start : Past} (poll : t.Poll start inputs) {m m' : PrePrepare}
    (h : t.Proposed p inputs m) (h' : t.Proposed p inputs m') : m = m' := by
  rcases h with hm | hm <;> rcases h' with hm' | hm'
  · exact Option.some.inj (hm.symm.trans hm')
  · exact absurd (hm'.vacant.symm.trans hm) (by simp)
  · exact absurd (hm.vacant.symm.trans hm') (by simp)
  · exact poll.approval_unique hm.mem hm'.mem

/-- **What is decided does not depend on the order.** -/
theorem Tally.outcome_eq {start past' : Past} (poll : t.Poll start inputs)
    (tally : t.Tally p inputs past.progress) (tally' : t.Tally p inputs' past'.progress)
    (perm : inputs.Perm inputs') (run : t.Run past) (run' : t.Run past') {d d' : Decision}
    (hd : .decide d ∈ past.requests) (hd' : .decide d' ∈ past'.requests) :
    d.outcome = d'.outcome := by
  obtain ⟨-, hview, m, hm, hblock, hhash⟩ := run.trace.decision_current hd
  obtain ⟨-, hview', m', hm', hblock', hhash'⟩ := run'.trace.decision_current hd'
  rw [tally.view] at hview hm
  rw [tally'.view] at hview' hm'
  obtain rfl : m = m' := (tally.proposed m hm).unique poll
    ((tally'.proposed m' hm').mono perm.symm.subset)
  rw [Decision.outcome, Decision.outcome, hview, hview', hblock, hblock', hhash, hhash']

/-- **The order of votes does not matter.**  A term that has not decided is given votes and
commits of its view by others, at most one of each kind from a member, and in between, if at all,
the word that the proposal it had validated is valid.  It takes all of them in, and in whatever
order they come, it ends in the same phase of the same view, and it decides or not, with the same
view, block and hash. -/
theorem Run.order_irrelevant (run : t.Run past) (live : past.progress.phase ≠ .committed)
    (poll : t.Poll past inputs) (perm : inputs.Perm inputs') :
    ∃ s s', t.reactAll past.progress inputs = .ok s ∧ t.reactAll past.progress inputs' = .ok s' ∧
      (s.progress.view = s'.progress.view ∧ s.progress.phase = s'.progress.phase) ∧
        (decisionsIn s.requests).map Decision.outcome =
          (decisionsIn s'.requests).map Decision.outcome := by
  have hstart := Tally.start t past.progress
  obtain ⟨s, hs, hrun, htally⟩ := hstart.reactAll run (fun _ hr => hr) poll
  obtain ⟨s', hs', hrun', htally'⟩ := hstart.reactAll run (fun _ hr => hr) (poll.perm perm)
  have hphase := htally.phase_eq htally' perm hrun hrun'
  refine ⟨s, s', hs, hs', ⟨htally.view.trans htally'.view.symm, hphase⟩, ?_⟩
  rcases reactAll_decides_once hs live with ⟨hnone, hopen⟩ | ⟨d, hd, hclosed⟩ <;>
    rcases reactAll_decides_once hs' live with ⟨hnone', hopen'⟩ | ⟨d', hd', hclosed'⟩
  · rw [hnone, hnone']
  · exact absurd (hphase.trans hclosed') hopen
  · exact absurd (hphase.symm.trans hclosed) hopen'
  · have hmem : .decide d ∈ s.requests := mem_decisionsIn.1 (hd ▸ List.mem_cons_self)
    have hmem' : .decide d' ∈ s'.requests := mem_decisionsIn.1 (hd' ▸ List.mem_cons_self)
    rw [hd, hd', List.map_singleton, List.map_singleton, htally.outcome_eq poll htally' perm hrun
      hrun' (List.mem_append_right _ hmem) (List.mem_append_right _ hmem')]

/-- What the fourth member hears of the first view, once the proposal has gone to its host. -/
def samplePoll : List Stimulus :=
  [.message (Assembly.voteBy 2 0),
    .message (.commit ((Assembly.plainKeys 0).commit 1 0 Assembly.sampleBlock.2 0)),
    .event (.validationFinished (Assembly.proposalBy 0 0) true),
    .message (.commit ((Assembly.plainKeys 1).commit 1 0 Assembly.sampleBlock.2 0))]

/-- The fourth member decides, whether it hears of all that in this order or in the reverse one. -/
theorem order_irrelevant_sample :
    examiningPast.progress.phase ≠ .committed ∧
      (Assembly.sample.term 3).Poll examiningPast samplePoll ∧
      ∃ s s', (Assembly.sample.term 3).reactAll examiningPast.progress samplePoll = .ok s ∧
        (Assembly.sample.term 3).reactAll examiningPast.progress samplePoll.reverse = .ok s' ∧
        (s.progress.phase = .committed ∧ s'.progress.phase = .committed) ∧
          (decisionsIn s.requests).map Decision.outcome =
            (decisionsIn s'.requests).map Decision.outcome := by
  have hrun : (Assembly.sample.term 3).Run examiningPast := run_play _
  have hlive : examiningPast.progress.phase ≠ .committed := by decide +kernel
  have hpoll : (Assembly.sample.term 3).Poll examiningPast samplePoll := by
    refine ⟨fun stimulus hs => ?_, by decide +kernel, by decide +kernel, by decide +kernel⟩
    simp only [samplePoll, List.mem_cons, List.not_mem_nil, or_false] at hs
    rcases hs with rfl | rfl | rfl | rfl
    · exact .message (by decide +kernel) (by decide +kernel)
    · exact .message (by decide +kernel) (by decide +kernel)
    · exact .approval _
    · exact .message (by decide +kernel) (by decide +kernel)
  obtain ⟨s, s', hs, hs', ⟨-, hphase⟩, houtcome⟩ :=
    Run.order_irrelevant hrun hlive hpoll (List.reverse_perm samplePoll).symm
  have hdone : ∃ s, (Assembly.sample.term 3).reactAll examiningPast.progress samplePoll = .ok s ∧
      s.progress.phase = .committed := by
    decide +kernel
  obtain ⟨decided, hdecided, hclosed⟩ := hdone
  obtain rfl := Except.ok.inj (hs.symm.trans hdecided)
  exact ⟨hlive, hpoll, s, s', hs, hs', ⟨hclosed, hphase ▸ hclosed⟩, houtcome⟩

end Term

end CommitteeConsensus
