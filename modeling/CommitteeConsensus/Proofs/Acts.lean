import CommitteeConsensus.Term.ViewChange
import CommitteeConsensus.Proofs.Evidence
import CommitteeConsensus.Proofs.LogLaws

/-!
# What a term does with one input

Whatever a handler does is one *act*, which depends on what was taken in, followed by
*consequences*, which the term draws from its progress alone: it commits to what is
prepared, it decides what is committed, and it opens a view that a quorum asked for.
`react_cases` says so of every handler once, with every check that was passed on the
way.  What is to hold in every run is then proved of the acts, one case each, and of
the four consequences, and no handler is opened again.

A term that has drawn all consequences is *at rest* (`Term.AtRest`).  The second half of
`react_cases` is that an input takes a term from rest to rest: every count that an
input may have completed is taken again before the handler returns.
-/

namespace CommitteeConsensus

/-- What a term's caller does with it. -/
inductive Stimulus where
  /-- The term is started. -/
  | start
  /-- A message is given to it. -/
  | message (message : Message)
  /-- An event is given to it. -/
  | event (event : Event)

/-! ## Entering and installing -/

namespace Progress

/-- The progress after moving to a view, which is no move if the view is not higher. -/
def reach (p : Progress) (view : View) : Progress :=
  if p.view < view then
    { p with view, phase := .viewChanging, validating := none, pendingNewView := none }
  else p

/-- The progress of a leader that takes a view on. -/
def claim (p : Progress) (view : View) : Progress := { p with lastNewView := some view }.reach view

/-- A proposal becomes the one of its view, unless there is one. -/
def install (p : Progress) (m : PrePrepare) : Step :=
  match p.log.storePrePrepare? m with
  | none => .quiet p
  | some log => .ask { p with log, phase := .collectingPrePrepare } [.scheduleElection p.view]

variable (p : Progress) {view : View}

theorem reach_of_lt (h : p.view < view) : p.reach view =
    { p with view, phase := .viewChanging, validating := none, pendingNewView := none } :=
  if_pos h

theorem reach_of_not_lt (h : ¬p.view < view) : p.reach view = p := if_neg h

@[simp] theorem log_reach (view : View) : (p.reach view).log = p.log := by
  rw [reach]; split <;> rfl

@[simp] theorem log_claim (view : View) : (p.claim view).log = p.log := by
  rw [claim, log_reach]

@[simp] theorem lastNewView_reach : (p.reach view).lastNewView = p.lastNewView := by
  rw [reach]; split <;> rfl

@[simp] theorem lastNewView_claim : (p.claim view).lastNewView = some view := by
  rw [claim, lastNewView_reach]

theorem le_view_reach (view : View) : p.view ≤ (p.reach view).view := by
  rw [reach]; split
  · next hlt => exact Nat.le_of_lt hlt
  · exact Nat.le_refl _

theorem view_reach (h : p.view ≤ view) : (p.reach view).view = view := by
  rw [reach]; split
  · rfl
  · next hlt => exact Nat.le_antisymm h (Nat.le_of_not_lt hlt)

/-- Moving on decides nothing. -/
theorem reach_live (h : p.phase ≠ .committed) : (p.reach view).phase ≠ .committed := by
  rw [reach]; split
  · simp
  · exact h

theorem claim_live (h : p.phase ≠ .committed) : (p.claim view).phase ≠ .committed :=
  reach_live { p with lastNewView := some view } h

theorem view_claim (h : p.view ≤ view) : (p.claim view).view = view :=
  view_reach { p with lastNewView := some view } h

end Progress

namespace Term

variable (t : Term)

theorem leads_iff {view : View} :
    t.leads view = true ↔ t.observer = false ∧ t.committee.leader view = t.me := by
  simp only [leads, Bool.and_eq_true, Bool.not_eq_true', beq_iff_eq]

/-- What a term does. -/
def react (p : Progress) : Stimulus → Except Fault Step
  | .start => .ok (t.start p)
  | .message m => t.handleMessage p m
  | .event e => t.handleEvent p e

/-! ## What comes to nothing -/

/-- What a term asks of a message of each kind, wherever it stands. -/
def Passes (t : Term) : Message → Prop
  | .prePrepare m => t.admitsProposal m m.view = true
  | .prepare s => s.sender ≠ t.committee.leader s.content.view ∧ s.verifies t.keys = true
  | .commit s => s.verifies t.keys = true ∧
    t.keys.verifySeed t.height t.seed s.content.seedShare s.sender = true
  | .viewChange m => t.admitsViewChange m = true
  | .newView m => t.admitsNewView m = true

/-- A message passes the checks of a term, apart from those that depend on where the term
stands. -/
structure FindsValid (t : Term) (m : Message) : Prop where
  height : m.height = t.height
  member : t.committee.contains m.sender = true
  passes : t.Passes m

/-- A valid message is of no use: it is late or too early, or what it brings is there. -/
def Spares (t : Term) (p : Progress) : Message → Prop
  | .prePrepare m => m.view ≠ p.view ∨ p.phase ≠ .collectingPrePrepare ∨
    p.validating = some m.view ∨ p.log.prePrepare? t.height m.view ≠ none
  | .prepare s => s.content.view < p.view ∨ t.tooFarAhead p s.content.view = true ∨
    t.matchesProposal p s.content.view s.content.blockHash = false ∨
    p.log.hasPrepareFrom t.height s.content.view s.sender = true
  | .commit s => s.content.view < p.view ∨ t.tooFarAhead p s.content.view = true ∨
    t.matchesProposal p s.content.view s.content.blockHash = false ∨
    p.log.hasCommitFrom t.height s.content.view s.sender = true
  | .viewChange m => m.view < p.view ∨ t.tooFarAhead p m.view = true ∨
    t.leads m.view = false ∨ p.log.storeViewChange? m = none
  | .newView m => m.signed.content.view < p.view ∨
    m.signed.content.view = p.view ∧ p.phase ≠ .viewChanging ∨
    p.validating = some m.signed.content.view

/-- An event is of no use: it is about another view, or nothing waits for it. -/
def Outlasts (t : Term) (p : Progress) : Event → Prop
  | .electionTimeout view => view ≠ p.view
  | .proposalBuilt view proposal => view ≠ p.view ∨ t.leads view = false ∨ proposal = none ∨
    p.pendingNewView = none ∧ (view ≠ 0 ∨ p.log.prePrepare? t.height view ≠ none)
  | .validationFinished m _ => m.view ≠ p.view ∨ p.validating ≠ some m.view

/-- Why an input comes to nothing. -/
def Dismisses (t : Term) (p : Progress) : Stimulus → Prop
  | .start => False
  | .message m => p.phase = .committed ∨ ¬t.FindsValid m ∨ t.Spares p m
  | .event e => p.phase = .committed ∨ t.Outlasts p e

/-! ## Acts -/

/-- The message that opens a view with a block. -/
def opening (view : View) (block : Block) (hash : BlockHash) (votes : List Confirmation) :
    NewView :=
  t.keys.newView t.height view (t.keys.prePrepare t.height view block hash) votes

/-- The own request for the view after the current one. -/
def nextRequest (p : Progress) : ViewChange :=
  t.keys.viewChange t.height (p.view + 1) (p.log.prepared? t.height t.committee.quorum)

/-- The progress of a member whose time for the current view is up. -/
def elapsed (p : Progress) : Progress :=
  { p.reach (p.view + 1) with log := p.log.withViewChange (t.nextRequest p) }

/-- What a term does at once with what it is given.  Each act comes with the checks
that it has passed. -/
inductive Act : Stimulus → Progress → List Request → Progress → Prop where
  /-- Nothing is done with an input that is not valid or of no use. -/
  | ignore {stimulus : Stimulus} {p : Progress} (dismisses : t.Dismisses p stimulus) :
    Act stimulus p [] p
  /-- The current view is started. -/
  | start {p : Progress} : Act .start p (t.start p).requests p
  /-- A proposal of the current view goes to the host. -/
  | examine {p : Progress} {m : PrePrepare} (view : m.view = p.view)
    (phase : p.phase = .collectingPrePrepare) (idle : p.validating ≠ some m.view)
    (vacant : p.log.prePrepare? t.height m.view = none)
    (admits : t.admitsProposal m m.view = true) :
    Act (.message (.prePrepare m)) p [.validateProposal m] { p with validating := some m.view }
  /-- The opening of a view is followed, and its proposal goes to the host. -/
  | follow {p : Progress} {m : NewView} (live : p.phase ≠ .committed)
    (view : p.view < m.signed.content.view ∨
      p.view = m.signed.content.view ∧ p.phase = .viewChanging)
    (idle : p.validating ≠ some m.signed.content.view) (admits : t.admitsNewView m = true) :
    Act (.message (.newView m)) p
      [.scheduleElection m.signed.content.view, .validateProposal m.prePrepare]
      { p.reach m.signed.content.view with validating := some m.signed.content.view }
  /-- The host is done with a proposal, and nothing comes of it. -/
  | release {p : Progress} {m : PrePrepare} {valid : Bool} (live : p.phase ≠ .committed)
    (view : m.view = p.view) (validating : p.validating = some m.view)
    (useless : valid = true → p.log.storePrePrepare? m = none) :
    Act (.event (.validationFinished m valid)) p [] { p with validating := none }
  /-- A proposal that the host found valid is filed and voted for. -/
  | approve {p : Progress} {m : PrePrepare} {log : MessageLog} (live : p.phase ≠ .committed)
    (view : m.view = p.view) (validating : p.validating = some m.view)
    (stored : p.log.storePrePrepare? m = some log) :
    Act (.event (.validationFinished m true)) p
      (.scheduleElection p.view :: (t.voteFor
        { p with validating := none, log, phase := .collectingPrePrepare } m).requests)
      (t.voteFor { p with validating := none, log, phase := .collectingPrePrepare } m).progress
  /-- The leader of the first view proposes a block. -/
  | propose {p : Progress} {block : Block} {hash : BlockHash} (live : p.phase ≠ .committed)
    (leads : t.leads p.view = true) (pending : p.pendingNewView = none) (view : p.view = 0)
    (vacant : p.log.prePrepare? t.height p.view = none) :
    Act (.event (.proposalBuilt p.view (some (block, hash)))) p
      (t.broadcast (.prePrepare (t.keys.prePrepare t.height p.view block hash)) ::
        (p.install (t.keys.prePrepare t.height p.view block hash)).requests)
      (p.install (t.keys.prePrepare t.height p.view block hash)).progress
  /-- The leader of a view opens it with the block it waited for. -/
  | openPending {p : Progress} {block : Block} {hash : BlockHash} {votes : List Confirmation}
    (live : p.phase ≠ .committed) (leads : t.leads p.view = true)
    (pending : p.pendingNewView = some (p.view, votes)) :
    Act (.event (.proposalBuilt p.view (some (block, hash)))) p
      (t.broadcast (.newView (t.opening p.view block hash votes)) ::
        ({ p with pendingNewView := none }.install
          (t.keys.prePrepare t.height p.view block hash)).requests)
      ({ p with pendingNewView := none }.install
        (t.keys.prePrepare t.height p.view block hash)).progress
  /-- An observer moves on when the time of its view is up. -/
  | watch {p : Progress} (live : p.phase ≠ .committed) (observer : t.observer = true) :
    Act (.event (.electionTimeout p.view)) p [.scheduleElection (p.view + 1)]
      (p.reach (p.view + 1))
  /-- A member moves on when the time of its view is up, and asks for the next one. -/
  | elapse {p : Progress} (live : p.phase ≠ .committed) (member : t.observer = false) :
    Act (.event (.electionTimeout p.view)) p
      (.scheduleElection (p.view + 1) ::
        if t.committee.leader (p.view + 1) = t.me then []
        else [.send [t.committee.leader (p.view + 1)] (.viewChange (t.nextRequest p))])
      (t.elapsed p)
  /-- A vote is kept. -/
  | keepPrepare {p : Progress} {s : Signed PrepareContent} (live : p.phase ≠ .committed)
    (mem : s.sender ∈ t.committee.members) (height : s.content.height = t.height)
    (current : p.view ≤ s.content.view) (near : t.tooFarAhead p s.content.view = false)
    (sender : s.sender ≠ t.committee.leader s.content.view)
    (fits : t.matchesProposal p s.content.view s.content.blockHash = true)
    (verifies : s.verifies t.keys = true)
    (first : p.log.hasPrepareFrom t.height s.content.view s.sender = false) :
    Act (.message (.prepare s)) p [] { p with log := p.log.withPrepare s }
  /-- A commit is kept. -/
  | keepCommit {p : Progress} {s : Signed CommitContent} (live : p.phase ≠ .committed)
    (mem : s.sender ∈ t.committee.members) (height : s.content.height = t.height)
    (current : p.view ≤ s.content.view) (near : t.tooFarAhead p s.content.view = false)
    (fits : t.matchesProposal p s.content.view s.content.blockHash = true)
    (verifies : s.verifies t.keys = true)
    (share : t.keys.verifySeed t.height t.seed s.content.seedShare s.sender = true)
    (first : p.log.hasCommitFrom t.height s.content.view s.sender = false) :
    Act (.message (.commit s)) p [] { p with log := p.log.withCommit s }
  /-- A request for a view that the member leads is kept. -/
  | keepViewChange {p : Progress} {m : ViewChange} {log : MessageLog}
    (live : p.phase ≠ .committed) (current : p.view ≤ m.view)
    (near : t.tooFarAhead p m.view = false) (leads : t.leads m.view = true)
    (admits : t.admitsViewChange m = true) (stored : p.log.storeViewChange? m = some log) :
    Act (.message (.viewChange m)) p [] { p with log }

/-! ## Consequences -/

/-- A leader takes a view on: a quorum asked for it, and it took neither this view nor
a higher one on before. -/
structure Claims (p : Progress) (view : View) : Prop where
  live : p.phase ≠ .committed
  leads : t.leads view = true
  le : p.view ≤ view
  unclaimed : p.lastNewView.any (view ≤ ·) = false
  quorum : t.committee.quorum ≤ (p.log.viewChangesFor t.height view).length

/-- The requests that come with moving to a view. -/
def arming (p : Progress) (view : View) : List Request :=
  if p.view < view then [.scheduleElection view] else []

/-- What a term does next, because of what it knows. -/
inductive Consequence : Progress → List Request → Progress → Prop where
  /-- A view is taken on, and opened with a block that was prepared. -/
  | repropose {p : Progress} {view : View} {block : Block} {hash : BlockHash}
    (claims : t.Claims p view)
    (obliged : reproposal (p.log.viewChangesFor t.height view) = some (block, hash)) :
    Consequence p
      (arming p view ++ t.broadcast (.newView (t.opening view block hash
          ((p.log.viewChangesFor t.height view).map (·.signed)))) ::
        ((p.claim view).install (t.keys.prePrepare t.height view block hash)).requests)
      ((p.claim view).install (t.keys.prePrepare t.height view block hash)).progress
  /-- A view is taken on, and a block asked for. -/
  | await {p : Progress} {view : View} (claims : t.Claims p view)
    (free : reproposal (p.log.viewChangesFor t.height view) = none) :
    Consequence p (arming p view ++ [.buildProposal view])
      { p.claim view with
        pendingNewView := some (view, (p.log.viewChangesFor t.height view).map (·.signed)) }
  /-- The member commits to a proposal that a quorum voted for. -/
  | commit {p : Progress} {m : PrePrepare} (phase : p.phase = .collectingPrePrepare)
    (proposal : p.log.prePrepare? t.height p.view = some m)
    (quorum : t.committee.quorum - 1 ≤
      (p.log.prepareSenders t.height p.view m.blockHash).length) :
    Consequence p (t.commitTo { p with phase := .prepared } m.blockHash).requests
      (t.commitTo { p with phase := .prepared } m.blockHash).progress
  /-- The member decides a block that a quorum committed to. -/
  | decide {p : Progress} {m : PrePrepare} (phase : p.phase ≠ .committed)
    (proposal : p.log.prePrepare? t.height p.view = some m)
    (quorum : t.committee.quorum ≤ (p.log.commitsFor t.height p.view m.blockHash).length) :
    Consequence p
      [.cancelElection, .decide
        ⟨t.height, p.view, m.block,
          { height := t.height, view := p.view, blockHash := m.blockHash
            commits := (p.log.commitsFor t.height p.view m.blockHash).take t.committee.quorum
            seedSignature := t.keys.aggregate t.height (seedShares
              ((p.log.commitsFor t.height p.view m.blockHash).take t.committee.quorum)) }⟩]
      { p with phase := .committed }

/-- Any number of consequences, one after the other. -/
inductive Consequences : Progress → List Request → Progress → Prop where
  | none (p : Progress) : Consequences p [] p
  | more {p p' p'' : Progress} {rs rs' : List Request} (first : t.Consequence p rs p')
    (rest : Consequences p' rs' p'') : Consequences p (rs ++ rs') p''

variable {t}

theorem Consequence.consequences {p p' : Progress} {rs : List Request}
    (h : t.Consequence p rs p') : t.Consequences p rs p' := by
  have hone := Consequences.more h (.none p')
  rwa [List.append_nil] at hone

theorem Consequences.trans {p p' p'' : Progress} {rs rs' : List Request}
    (h : t.Consequences p rs p') (h' : t.Consequences p' rs' p'') :
    t.Consequences p (rs ++ rs') p'' := by
  induction h with
  | none p => exact h'
  | more first _ ih =>
    rw [List.append_assoc]
    exact .more first (ih h')

/-! ## Rest -/

/-- The current proposal lacks votes, as long as the member waits for them. -/
def Uncommitted (t : Term) (p : Progress) : Prop :=
  p.phase = .collectingPrePrepare → ∀ m, p.log.prePrepare? t.height p.view = some m →
    (p.log.prepareSenders t.height p.view m.blockHash).length < t.committee.quorum - 1

/-- The current proposal lacks commits, as long as the height is open. -/
def Undecided (t : Term) (p : Progress) : Prop :=
  p.phase ≠ .committed → ∀ m, p.log.prePrepare? t.height p.view = some m →
    (p.log.commitsFor t.height p.view m.blockHash).length < t.committee.quorum

/-- No view waits for the member to take it on. -/
def Unclaimed (t : Term) (p : Progress) : Prop := ∀ view, ¬t.Claims p view

/-- All consequences are drawn. -/
structure AtRest (t : Term) (p : Progress) : Prop where
  uncommitted : t.Uncommitted p
  undecided : t.Undecided p
  unclaimed : t.Unclaimed p

/-- A term at rest does nothing by itself. -/
theorem AtRest.not_consequence {p p' : Progress} {rs : List Request} (h : t.AtRest p) :
    ¬t.Consequence p rs p' := by
  rintro (⟨claims, -⟩ | ⟨claims, -⟩ | ⟨phase, proposal, quorum⟩ | ⟨phase, proposal, quorum⟩)
  · exact h.unclaimed _ claims
  · exact h.unclaimed _ claims
  · exact Nat.not_le_of_lt (h.uncommitted phase _ proposal) quorum
  · exact Nat.not_le_of_lt (h.undecided phase _ proposal) quorum

/-- The log is in order, and its proposals are of the term's height and of views that were
reached.  A view that is only being moved to has none. -/
structure Placed (t : Term) (p : Progress) : Prop where
  wellFormed : p.log.WellFormed
  height : ∀ m ∈ p.log.prePrepares, m.height = t.height
  le : ∀ m ∈ p.log.prePrepares, m.view ≤ p.view
  lt : p.phase = .viewChanging → ∀ m ∈ p.log.prePrepares, m.view < p.view

theorem Placed.vacant {p : Progress} (h : t.Placed p) {view : View} (hlt : p.view < view) :
    p.log.prePrepare? t.height view = none :=
  MessageLog.prePrepare?_eq_none_iff.2 fun m hm hkey =>
    Nat.not_le_of_lt hlt (hkey.2 ▸ h.le m hm)

theorem Placed.reach {p : Progress} (h : t.Placed p) (view : View) : t.Placed (p.reach view) := by
  by_cases hlt : p.view < view
  · rw [Progress.reach_of_lt p hlt]
    exact ⟨h.wellFormed, h.height, fun m hm => Nat.le_trans (h.le m hm) (Nat.le_of_lt hlt),
      fun _ m hm => Nat.lt_of_le_of_lt (h.le m hm) hlt⟩
  · rwa [Progress.reach_of_not_lt p hlt]

theorem Unclaimed.mono {p q : Progress} (h : t.Unclaimed p)
    (hphase : p.phase = .committed → q.phase = .committed) (hview : p.view ≤ q.view)
    (hlast : q.lastNewView = p.lastNewView) (hlog : q.log.viewChanges = p.log.viewChanges) :
    t.Unclaimed q := by
  intro view hc
  refine h view ⟨fun hp => hc.live (hphase hp), hc.leads, Nat.le_trans hview hc.le,
    hlast ▸ hc.unclaimed, ?_⟩
  have hq := hc.quorum
  rwa [MessageLog.viewChangesFor, hlog] at hq

/-- In a view that is new nothing is pending. -/
theorem AtRest.reach {p : Progress} (h : t.AtRest p) (live : p.phase ≠ .committed)
    (placed : t.Placed p) (view : View) : t.AtRest (p.reach view) := by
  by_cases hlt : p.view < view
  · rw [Progress.reach_of_lt p hlt]
    refine ⟨fun hphase => absurd hphase (by simp), fun _ m hm => ?_,
      h.unclaimed.mono (fun hphase => absurd hphase live) (Nat.le_of_lt hlt) rfl rfl⟩
    rw [placed.vacant hlt] at hm
    exact absurd hm (by simp)
  · rwa [Progress.reach_of_not_lt p hlt]

theorem Placed.claim {p : Progress} (h : t.Placed p) (view : View) : t.Placed (p.claim view) :=
  Placed.reach (p := { p with lastNewView := some view })
    ⟨h.wellFormed, h.height, h.le, h.lt⟩ view

/-- Once the only view that waits is taken on, none does: a higher one would have waited
before. -/
theorem Claims.atRest_claim {p : Progress} {view : View} (claims : t.Claims p view)
    (placed : t.Placed p) (uncommitted : t.Uncommitted p) (undecided : t.Undecided p)
    (others : ∀ w, w ≠ view → ¬t.Claims p w) : t.AtRest (p.claim view) := by
  have hunclaimed : t.Unclaimed { p with lastNewView := some view } := by
    intro w hw
    have hlt : view < w := by simpa using hw.unclaimed
    refine others w (Nat.ne_of_gt hlt) ⟨claims.live, hw.leads,
      Nat.le_trans claims.le (Nat.le_of_lt hlt), ?_, hw.quorum⟩
    have hun := claims.unclaimed
    rcases hlast : p.lastNewView with _ | last
    · rfl
    · rw [hlast] at hun
      simp only [Option.any_some, decide_eq_false_iff_not, Nat.not_le] at hun ⊢
      exact Nat.lt_trans hun hlt
  exact AtRest.reach (p := { p with lastNewView := some view })
    ⟨uncommitted, undecided, hunclaimed⟩ claims.live
    ⟨placed.wellFormed, placed.height, placed.le, placed.lt⟩ view

/-! ## What the checks come to -/

section Checks

variable (t)

/-! ### Votes and commits -/

theorem consequences_checkCommitted (p : Progress) (hash : BlockHash) :
    t.Consequences p (t.checkCommitted p hash).requests (t.checkCommitted p hash).progress := by
  rw [checkCommitted]
  split
  · exact .none p
  · next hphase =>
    split
    · exact .none p
    · next m hm =>
      dsimp only
      split
      · next hq =>
        obtain ⟨rfl, hq⟩ := hq
        exact (Consequence.decide hphase hm hq).consequences
      · exact .none p

/-- Counting the commits for the current proposal leaves nothing undecided. -/
theorem atRest_checkCommitted {p : Progress} {hash : BlockHash} (uncommitted : t.Uncommitted p)
    (unclaimed : t.Unclaimed p)
    (current : ∀ m, p.log.prePrepare? t.height p.view = some m → m.blockHash = hash) :
    t.AtRest (t.checkCommitted p hash).progress := by
  rw [checkCommitted]
  split
  · next hphase => exact ⟨uncommitted, fun hne => absurd hphase hne, unclaimed⟩
  · split
    · next hnone =>
      exact ⟨uncommitted, fun _ m hm => absurd (hnone.symm.trans hm) (by simp), unclaimed⟩
    · next m hm =>
      dsimp only
      split
      · exact ⟨fun hphase => absurd hphase (by simp [Step.ask]), fun hne => absurd rfl hne,
          unclaimed.mono (fun _ => rfl) (Nat.le_refl _) rfl rfl⟩
      · next hq =>
        refine ⟨uncommitted, fun _ m' hm' => ?_, unclaimed⟩
        obtain rfl : m = m' := Option.some.inj (hm.symm.trans hm')
        have hhash := current m hm
        rw [hhash]
        exact Nat.lt_of_not_le fun hle => hq ⟨hhash, hle⟩

/-- Counting commits disturbs no rest, whatever block they are for. -/
theorem AtRest.checkCommitted {p : Progress} (h : t.AtRest p) (hash : BlockHash) :
    t.AtRest (t.checkCommitted p hash).progress := by
  rw [Term.checkCommitted]
  split
  · exact h
  · split
    · exact h
    · dsimp only
      split
      · exact ⟨fun hphase => absurd hphase (by simp [Step.ask]), fun hne => absurd rfl hne,
          h.unclaimed.mono (fun _ => rfl) (Nat.le_refl _) rfl rfl⟩
      · exact h

section Own

variable (p : Progress) (hash : BlockHash) (m : PrePrepare)

/-- A member commits, and an observer does nothing. -/
theorem commitTo_cases :
    t.commitTo p hash = .quiet p ∨ t.observer = false ∧ t.commitTo p hash =
      .ask { p with log := p.log.withCommit (t.keys.commit t.height p.view hash t.seed) }
        [t.broadcast (.commit (t.keys.commit t.height p.view hash t.seed))] := by
  rw [commitTo]
  split
  · exact Or.inl rfl
  · next hmember => exact Or.inr ⟨by simpa using hmember, rfl⟩

/-- A member votes, unless it is the leader, and an observer does nothing. -/
theorem voteFor_cases :
    t.voteFor p m = .quiet p ∨ (t.observer = false ∧ t.leads m.view = false) ∧ t.voteFor p m =
      .ask { p with log := p.log.withPrepare (t.keys.prepare t.height m.view m.blockHash) }
        [t.broadcast (.prepare (t.keys.prepare t.height m.view m.blockHash))] := by
  rw [voteFor]
  split
  · exact Or.inl rfl
  · next hmember => exact Or.inr ⟨by simpa [not_or] using hmember, rfl⟩

@[simp] theorem view_commitTo : (t.commitTo p hash).progress.view = p.view := by
  rw [commitTo]; split <;> rfl

@[simp] theorem phase_commitTo : (t.commitTo p hash).progress.phase = p.phase := by
  rw [commitTo]; split <;> rfl

@[simp] theorem lastNewView_commitTo :
    (t.commitTo p hash).progress.lastNewView = p.lastNewView := by
  rw [commitTo]; split <;> rfl

@[simp] theorem prePrepares_commitTo :
    (t.commitTo p hash).progress.log.prePrepares = p.log.prePrepares := by
  rw [commitTo]; split <;> simp [Step.quiet, Step.ask]

@[simp] theorem viewChanges_commitTo :
    (t.commitTo p hash).progress.log.viewChanges = p.log.viewChanges := by
  rw [commitTo]; split <;> simp [Step.quiet, Step.ask]

@[simp] theorem view_voteFor : (t.voteFor p m).progress.view = p.view := by
  rw [voteFor]; split <;> rfl

@[simp] theorem phase_voteFor : (t.voteFor p m).progress.phase = p.phase := by
  rw [voteFor]; split <;> rfl

@[simp] theorem lastNewView_voteFor : (t.voteFor p m).progress.lastNewView = p.lastNewView := by
  rw [voteFor]; split <;> rfl

@[simp] theorem prePrepares_voteFor :
    (t.voteFor p m).progress.log.prePrepares = p.log.prePrepares := by
  rw [voteFor]; split <;> simp [Step.quiet, Step.ask]

@[simp] theorem viewChanges_voteFor :
    (t.voteFor p m).progress.log.viewChanges = p.log.viewChanges := by
  rw [voteFor]; split <;> simp [Step.quiet, Step.ask]

end Own

theorem consequences_checkPrepared (p : Progress) :
    t.Consequences p (t.checkPrepared p).requests (t.checkPrepared p).progress := by
  rw [checkPrepared]
  split
  · next hphase =>
    split
    · exact .none p
    · next m hm =>
      split
      · next hq =>
        exact .more (.commit hphase hm hq) (t.consequences_checkCommitted _ _)
      · exact .none p
  · exact .none p

/-- Counting the votes either changes nothing, because they do not suffice, or leaves
nothing to do. -/
theorem checkPrepared_rest {p : Progress} (unclaimed : t.Unclaimed p) :
    ((t.checkPrepared p).progress = p ∧ t.Uncommitted p) ∨
      t.AtRest (t.checkPrepared p).progress := by
  rw [checkPrepared]
  split
  · next hcollecting =>
    split
    · next hnone =>
      exact Or.inl ⟨rfl, fun _ m hm => absurd (hnone.symm.trans hm) (by simp)⟩
    · next m hm =>
      split
      · refine Or.inr (t.atRest_checkCommitted (fun hphase => ?_) ?_ fun m' hm' => ?_)
        · rw [phase_commitTo] at hphase
          exact absurd hphase (by simp)
        · exact unclaimed.mono (fun hp => absurd (hcollecting.symm.trans hp) (by simp))
            (by simp) (by simp) (by simp)
        · rw [view_commitTo, MessageLog.prePrepare?_congr (t.prePrepares_commitTo _ _)] at hm'
          rw [← Option.some.inj (hm.symm.trans hm')]
      · next hq =>
        refine Or.inl ⟨rfl, fun _ m' hm' => ?_⟩
        rw [← Option.some.inj (hm.symm.trans hm')]
        exact Nat.lt_of_not_le hq
  · next hphase => exact Or.inl ⟨rfl, fun h => absurd h hphase⟩

theorem atRest_checkPrepared {p : Progress} (undecided : t.Undecided p)
    (unclaimed : t.Unclaimed p) : t.AtRest (t.checkPrepared p).progress := by
  rcases t.checkPrepared_rest unclaimed with ⟨heq, huncommitted⟩ | hrest
  · rw [heq]
    exact ⟨huncommitted, undecided, unclaimed⟩
  · exact hrest

/-! ### Proposals -/

/-- What a term does once a proposal is filed and voted for. -/
def recount (p : Progress) (m : PrePrepare) : Step :=
  (t.checkPrepared p).andThen fun p => t.checkCommitted p m.blockHash

theorem consequences_recount (p : Progress) (m : PrePrepare) :
    t.Consequences p (t.recount p m).requests (t.recount p m).progress :=
  (t.consequences_checkPrepared p).trans (t.consequences_checkCommitted _ _)

theorem atRest_recount {p : Progress} {m : PrePrepare} (unclaimed : t.Unclaimed p)
    (proposal : p.log.prePrepare? t.height p.view = some m) :
    t.AtRest (t.recount p m).progress := by
  rw [recount, Step.andThen]
  rcases t.checkPrepared_rest unclaimed with ⟨heq, huncommitted⟩ | hrest
  · rw [heq]
    refine t.atRest_checkCommitted huncommitted unclaimed fun m' hm' => ?_
    rw [Option.some.inj (proposal.symm.trans hm')]
  · exact hrest.checkCommitted t m.blockHash

theorem accept_of_store {p : Progress} {m : PrePrepare} {log : MessageLog}
    (h : p.log.storePrePrepare? m = some log) :
    t.accept p m =
      (Step.ask { p with log, phase := .collectingPrePrepare } [.scheduleElection p.view]).andThen
        fun p => (t.voteFor p m).andThen fun p => t.recount p m := by
  rw [accept, h]
  rfl

theorem accept_of_not_store {p : Progress} {m : PrePrepare}
    (h : p.log.storePrePrepare? m = none) : t.accept p m = .quiet p := by
  rw [accept, h]

theorem atRest_accept {p : Progress} {m : PrePrepare} (h : t.AtRest p)
    (live : p.phase ≠ .committed) (placed : t.Placed p) (height : m.height = t.height)
    (view : m.view = p.view) : t.AtRest (t.accept p m).progress := by
  rcases hs : p.log.storePrePrepare? m with _ | log
  · rw [t.accept_of_not_store hs]
    exact h
  · rw [t.accept_of_store hs]
    refine t.atRest_recount (h.unclaimed.mono (fun hp => absurd hp live) (by simp [Step.ask])
      (by simp [Step.ask]) ?_) ?_
    · rw [viewChanges_voteFor]
      obtain ⟨-, rfl⟩ := MessageLog.storePrePrepare?_eq_some.1 hs
      rfl
    · rw [view_voteFor, MessageLog.prePrepare?_congr (t.prePrepares_voteFor _ _)]
      have hstored := MessageLog.prePrepare?_of_store placed.wellFormed hs
      rwa [height, view] at hstored

/-- A leader that accepts its own proposal installs it, and has no vote for it. -/
theorem accept_own {p : Progress} {m : PrePrepare} (leads : t.leads m.view = true) :
    ∃ rs, (t.accept p m).requests = (p.install m).requests ++ rs ∧
      t.Consequences (p.install m).progress rs (t.accept p m).progress := by
  rw [Progress.install]
  rcases h : p.log.storePrePrepare? m with _ | log
  · rw [t.accept_of_not_store h]
    exact ⟨[], rfl, .none p⟩
  · rw [t.accept_of_store h]
    have hvote : ∀ q, t.voteFor q m = .quiet q := fun q => if_pos (Or.inr leads)
    simp only [Step.andThen, hvote]
    exact ⟨_, rfl, t.consequences_recount _ m⟩

theorem openView_own (p : Progress) {view : View} (block : Block) (hash : BlockHash)
    (votes : List Confirmation) (leads : t.leads view = true) :
    ∃ rs, (t.openView p view block hash votes).requests =
        t.broadcast (.newView (t.opening view block hash votes)) ::
          (p.install (t.keys.prePrepare t.height view block hash)).requests ++ rs ∧
      t.Consequences (p.install (t.keys.prePrepare t.height view block hash)).progress rs
        (t.openView p view block hash votes).progress := by
  obtain ⟨rs, hrs, hc⟩ :=
    t.accept_own (p := p) (m := t.keys.prePrepare t.height view block hash) leads
  refine ⟨rs, ?_, hc⟩
  show [_] ++ (t.accept p _).requests = _
  rw [hrs]
  rfl

/-! ### Taking views on -/

/-- The metrics that come with moving to a view. -/
def entering (p : Progress) (view : View) : List Metric :=
  if p.view < view then [.count .viewChanges 1, .set .view view] else []

theorem enterView_of_lt {p : Progress} {view : View} (h : p.view < view) :
    p.enterView view = .ok ⟨p.reach view, [], entering p view⟩ := by
  rw [Progress.enterView, if_pos h, Progress.reach_of_lt p h, entering, if_pos h]

/-- What a leader does with a view that it takes on. -/
def takeOn (view : View) (votes : List ViewChange) (p : Progress) : Step :=
  match reproposal votes with
  | some (block, hash) => t.openView p view block hash (votes.map (·.signed))
  | none => .ask { p with pendingNewView := some (view, votes.map (·.signed)) }
      [.buildProposal view]

theorem checkViewChanges_of_claims {p : Progress} {view : View} (h : t.Claims p view) :
    t.checkViewChanges p view = .ok
      ((⟨p.claim view, arming p view, entering p view⟩ : Step).andThen
        (t.takeOn view (p.log.viewChangesFor t.height view))) := by
  have hcond : ¬(p.lastNewView.any (view ≤ ·) = true ∨
      (p.log.viewChangesFor t.height view).length < t.committee.quorum) := by
    rw [h.unclaimed]
    exact not_or.2 ⟨by simp, Nat.not_lt_of_le h.quorum⟩
  rw [checkViewChanges, if_neg hcond, Progress.claim, arming, entering]
  dsimp only
  by_cases hlt : p.view < view
  · rw [if_pos hlt, if_pos hlt, if_pos hlt,
      enterView_of_lt (p := { p with lastNewView := some view }) hlt, entering, if_pos hlt]
    rfl
  · rw [if_neg hlt, if_neg hlt, if_neg hlt,
      Progress.reach_of_not_lt { p with lastNewView := some view } hlt]
    rfl

/-- A leader that looks at the requests for a view takes it on or lets it be. -/
theorem consequences_checkViewChanges {p : Progress} {view : View} {s : Step}
    (live : p.phase ≠ .committed) (leads : t.leads view = true) (le : p.view ≤ view)
    (h : t.checkViewChanges p view = .ok s) : t.Consequences p s.requests s.progress := by
  by_cases hcond : p.lastNewView.any (view ≤ ·) = true ∨
      (p.log.viewChangesFor t.height view).length < t.committee.quorum
  · rw [checkViewChanges, if_pos hcond] at h
    rw [← Except.ok.inj h]
    exact .none p
  · rw [not_or] at hcond
    have hclaims : t.Claims p view :=
      ⟨live, leads, le, by simpa using hcond.1, Nat.le_of_not_lt hcond.2⟩
    rw [t.checkViewChanges_of_claims hclaims] at h
    rw [← Except.ok.inj h, Step.andThen]
    rcases hr : reproposal (p.log.viewChangesFor t.height view) with _ | ⟨block, hash⟩
    · simp only [takeOn, hr]
      exact (Consequence.await hclaims hr).consequences
    · obtain ⟨rs, hrs, hc⟩ := t.openView_own (p.claim view) block hash
        ((p.log.viewChangesFor t.height view).map (·.signed)) leads
      simp only [takeOn, hr]
      rw [hrs, ← List.append_assoc]
      exact .more (.repropose hclaims hr) hc

/-- Looking at the requests for a view takes it on if it can be, so that no view waits
unless another one did. -/
theorem atRest_checkViewChanges {p : Progress} {view : View} {s : Step}
    (live : p.phase ≠ .committed) (placed : t.Placed p)
    (uncommitted : t.Uncommitted p) (undecided : t.Undecided p)
    (others : ∀ w, w ≠ view → ¬t.Claims p w) (leads : t.leads view = true) (le : p.view ≤ view)
    (h : t.checkViewChanges p view = .ok s) : t.AtRest s.progress := by
  by_cases hclaims : t.Claims p view
  · have hview : (p.claim view).view = view := p.view_claim le
    have hclaimed := placed.claim view
    have hrest := hclaims.atRest_claim placed uncommitted undecided others
    rw [t.checkViewChanges_of_claims hclaims] at h
    rw [← Except.ok.inj h, Step.andThen]
    rcases hr : reproposal (p.log.viewChangesFor t.height view) with _ | ⟨block, hash⟩
    · simp only [takeOn, hr]
      exact ⟨hrest.uncommitted, hrest.undecided,
        fun w hw => hrest.unclaimed w ⟨hw.live, hw.leads, hw.le, hw.unclaimed, hw.quorum⟩⟩
    · simp only [takeOn, hr]
      exact t.atRest_accept hrest (p.claim_live live) hclaimed rfl hview.symm
  · have hunclaimed : t.Unclaimed p := fun w => by
      by_cases hw : w = view
      · exact hw ▸ hclaims
      · exact others w hw
    by_cases hcond : p.lastNewView.any (view ≤ ·) = true ∨
        (p.log.viewChangesFor t.height view).length < t.committee.quorum
    · rw [checkViewChanges, if_pos hcond] at h
      rw [← Except.ok.inj h]
      exact ⟨uncommitted, undecided, hunclaimed⟩
    · rw [not_or] at hcond
      exact absurd ⟨live, leads, le, by simpa using hcond.1, Nat.le_of_not_lt hcond.2⟩ hclaims

end Checks

/-! ## The handlers -/

/-- An input leads from one progress to another: by an act and its consequences, of which
none is left. -/
structure Leads (t : Term) (stimulus : Stimulus) (p : Progress) (rs : List Request)
    (p' : Progress) : Prop where
  drawn : ∃ p₁ rs₁ rs₂, t.Act stimulus p rs₁ p₁ ∧ t.Consequences p₁ rs₂ p' ∧ rs = rs₁ ++ rs₂
  rest : t.Placed p → t.AtRest p → t.AtRest p'

theorem leads_ignore {stimulus : Stimulus} {p : Progress} (h : t.Dismisses p stimulus) :
    t.Leads stimulus p [] p :=
  ⟨⟨p, [], [], .ignore h, .none p, rfl⟩, fun _ h => h⟩

theorem Act.leads {stimulus : Stimulus} {p p' : Progress} {rs : List Request}
    (h : t.Act stimulus p rs p') (rest : t.Placed p → t.AtRest p → t.AtRest p') :
    t.Leads stimulus p rs p' :=
  ⟨⟨p', rs, [], h, .none p', (List.append_nil rs).symm⟩, rest⟩

theorem Act.leads_of {stimulus : Stimulus} {p p₁ p' : Progress} {rs₁ rs₂ : List Request}
    (h : t.Act stimulus p rs₁ p₁) (hc : t.Consequences p₁ rs₂ p')
    (rest : t.Placed p → t.AtRest p → t.AtRest p') : t.Leads stimulus p (rs₁ ++ rs₂) p' :=
  ⟨⟨p₁, rs₁, rs₂, h, hc, rfl⟩, rest⟩

/-- What the host is busy with, and what a leader waits for, is no matter of rest. -/
theorem AtRest.idle {p : Progress} (h : t.AtRest p) (validating : Option View)
    (pendingNewView : Option (View × List Confirmation)) :
    t.AtRest { p with validating, pendingNewView } :=
  ⟨h.uncommitted, h.undecided,
    fun w hw => h.unclaimed w ⟨hw.live, hw.leads, hw.le, hw.unclaimed, hw.quorum⟩⟩

theorem Placed.idle {p : Progress} (h : t.Placed p) (validating : Option View)
    (pendingNewView : Option (View × List Confirmation)) :
    t.Placed { p with validating, pendingNewView } :=
  ⟨h.wellFormed, h.height, h.le, h.lt⟩

theorem Spares.dismisses {p : Progress} {m : Message} (h : t.Spares p m) :
    t.Dismisses p (.message m) := Or.inr (Or.inr h)

theorem dismisses_of_not_passes {p : Progress} {m : Message} (h : ¬t.Passes m) :
    t.Dismisses p (.message m) := Or.inr (Or.inl fun hvalid => h hvalid.passes)

theorem onPrePrepare_leads (p : Progress) (m : PrePrepare) :
    t.Leads (.message (.prePrepare m)) p (t.onPrePrepare p m).requests
      (t.onPrePrepare p m).progress := by
  rw [onPrePrepare]
  split
  · next hview => exact leads_ignore (Spares.dismisses (m := .prePrepare m) (Or.inl hview))
  · next hview =>
    split
    · next hold =>
      refine leads_ignore (Spares.dismisses (m := .prePrepare m) (Or.inr ?_))
      rwa [Option.isSome_iff_ne_none] at hold
    · next hnew =>
      split
      · next hadm =>
        simp only [not_or, ne_eq, not_not, Bool.not_eq_true, Option.isSome_eq_false_iff,
          Option.isNone_iff_eq_none] at hview hnew
        exact (Act.examine hview hnew.1 hnew.2.1 hnew.2.2 hadm).leads
          fun _ h => h.idle _ p.pendingNewView
      · next hadm => exact leads_ignore (dismisses_of_not_passes hadm)

theorem AtRest.withPrepare {p : Progress} (h : t.AtRest p) (s : Signed PrepareContent) :
    t.Undecided { p with log := p.log.withPrepare s } ∧
      t.Unclaimed { p with log := p.log.withPrepare s } := by
  refine ⟨fun hphase m hm => ?_, h.unclaimed.mono id (Nat.le_refl _) rfl (by simp)⟩
  rw [MessageLog.prePrepare?_congr (MessageLog.prePrepares_withPrepare _ _)] at hm
  have hlt := h.undecided hphase m hm
  rwa [MessageLog.commitsFor, MessageLog.commits_withPrepare]

theorem onPrepare_leads {p : Progress} {s : Signed PrepareContent} (live : p.phase ≠ .committed)
    (height : s.content.height = t.height) (mem : s.sender ∈ t.committee.members) :
    t.Leads (.message (.prepare s)) p (t.onPrepare p s).requests (t.onPrepare p s).progress := by
  rw [onPrepare]
  dsimp only
  split
  · next hlate => exact leads_ignore (Spares.dismisses (m := .prepare s) (Or.inl hlate))
  · next hcur =>
    split
    · next hfar => exact leads_ignore (Spares.dismisses (m := .prepare s) (Or.inr (Or.inl hfar)))
    · next hfar =>
      split
      · next hbad =>
        rcases hbad with hleader | hmisfit | hforged
        · exact leads_ignore (dismisses_of_not_passes fun hpasses => hpasses.1 hleader)
        · refine leads_ignore (Spares.dismisses (m := .prepare s) (Or.inr (Or.inr (Or.inl ?_))))
          simpa using hmisfit
        · refine leads_ignore (dismisses_of_not_passes fun hpasses => ?_)
          rw [hpasses.2] at hforged
          exact absurd hforged (by simp)
      · next hok =>
        split
        · next hknown =>
          exact leads_ignore
            (Spares.dismisses (m := .prepare s) (Or.inr (Or.inr (Or.inr hknown))))
        · next hfirst =>
          simp only [not_or, Bool.not_eq_true, Bool.not_eq_false'] at hok hfar hfirst
          have hact := Act.keepPrepare live mem height (Nat.le_of_not_lt hcur) hfar hok.1 hok.2.1
            hok.2.2 hfirst
          split
          · refine hact.leads_of (t.consequences_checkPrepared _) fun _ h => ?_
            exact t.atRest_checkPrepared (h.withPrepare s).1 (h.withPrepare s).2
          · next hne =>
            refine hact.leads fun _ h => ⟨fun hphase m hm => ?_, (h.withPrepare s).1,
              (h.withPrepare s).2⟩
            rw [MessageLog.prePrepare?_congr (MessageLog.prePrepares_withPrepare _ _)] at hm
            have hlt := h.uncommitted hphase m hm
            rwa [MessageLog.prepareSenders, MessageLog.preparesFor_withPrepare_of_ne hne]

theorem AtRest.withCommit {p : Progress} (h : t.AtRest p) (s : Signed CommitContent) :
    t.Uncommitted { p with log := p.log.withCommit s } ∧
      t.Unclaimed { p with log := p.log.withCommit s } := by
  refine ⟨fun hphase m hm => ?_, h.unclaimed.mono id (Nat.le_refl _) rfl (by simp)⟩
  rw [MessageLog.prePrepare?_congr (MessageLog.prePrepares_withCommit _ _)] at hm
  have hlt := h.uncommitted hphase m hm
  rwa [MessageLog.prepareSenders, MessageLog.preparesFor, MessageLog.prepares_withCommit]

theorem onCommit_leads {p : Progress} {s : Signed CommitContent} (live : p.phase ≠ .committed)
    (height : s.content.height = t.height) (mem : s.sender ∈ t.committee.members) :
    t.Leads (.message (.commit s)) p (t.onCommit p s).requests (t.onCommit p s).progress := by
  rw [onCommit]
  dsimp only
  split
  · next hlate => exact leads_ignore (Spares.dismisses (m := .commit s) (Or.inl hlate))
  · next hcur =>
    split
    · next hfar => exact leads_ignore (Spares.dismisses (m := .commit s) (Or.inr (Or.inl hfar)))
    · next hfar =>
      split
      · next hbad =>
        rcases hbad with hmisfit | hforged | hshare
        · refine leads_ignore (Spares.dismisses (m := .commit s) (Or.inr (Or.inr (Or.inl ?_))))
          simpa using hmisfit
        · refine leads_ignore (dismisses_of_not_passes fun hpasses => ?_)
          rw [hpasses.1] at hforged
          exact absurd hforged (by simp)
        · refine leads_ignore (dismisses_of_not_passes fun hpasses => ?_)
          rw [hpasses.2] at hshare
          exact absurd hshare (by simp)
      · next hok =>
        split
        · next hknown =>
          exact leads_ignore
            (Spares.dismisses (m := .commit s) (Or.inr (Or.inr (Or.inr hknown))))
        · next hfirst =>
          simp only [not_or, Bool.not_eq_true, Bool.not_eq_false'] at hok hfar hfirst
          have hact := Act.keepCommit live mem height (Nat.le_of_not_lt hcur) hfar hok.1 hok.2.1
            hok.2.2 hfirst
          split
          · next heq =>
            refine hact.leads_of (t.consequences_checkCommitted _ _) fun _ h =>
              t.atRest_checkCommitted (h.withCommit s).1 (h.withCommit s).2 fun m hm => ?_
            -- a commit to another block than the proposed one would have been dropped
            rw [MessageLog.prePrepare?_congr (MessageLog.prePrepares_withCommit _ _)] at hm
            have hfits := hok.1
            rw [matchesProposal, heq] at hfits
            simp only [hm, beq_iff_eq] at hfits
            exact hfits
          · next hne =>
            refine hact.leads fun _ h => ⟨(h.withCommit s).1, fun hphase m hm => ?_,
              (h.withCommit s).2⟩
            rw [MessageLog.prePrepare?_congr (MessageLog.prePrepares_withCommit _ _)] at hm
            have hlt := h.undecided hphase m hm
            rwa [MessageLog.commitsFor_withCommit_of_ne hne]

/-- A request for one view makes no other view wait. -/
theorem Claims.of_withViewChange {p : Progress} {m : ViewChange} {view : View}
    (h : t.Claims { p with log := p.log.withViewChange m } view) (hne : m.view ≠ view) :
    t.Claims p view := by
  refine ⟨h.live, h.leads, h.le, h.unclaimed, ?_⟩
  have hq := h.quorum
  rwa [MessageLog.viewChangesFor_withViewChange_of_ne hne] at hq

theorem AtRest.withViewChange {p : Progress} (h : t.AtRest p) (m : ViewChange) :
    t.Uncommitted { p with log := p.log.withViewChange m } ∧
      t.Undecided { p with log := p.log.withViewChange m } := by
  refine ⟨fun hphase b hb => ?_, fun hphase b hb => ?_⟩ <;>
    rw [MessageLog.prePrepare?_congr (MessageLog.prePrepares_withViewChange _ _)] at hb
  · have hlt := h.uncommitted hphase b hb
    rwa [MessageLog.prepareSenders, MessageLog.preparesFor, MessageLog.prepares_withViewChange]
  · have hlt := h.undecided hphase b hb
    rwa [MessageLog.commitsFor, MessageLog.commits_withViewChange]

theorem Placed.withViewChange {p : Progress} (h : t.Placed p) (m : ViewChange) :
    t.Placed { p with log := p.log.withViewChange m } := by
  refine ⟨h.wellFormed.withViewChange m, ?_, ?_, ?_⟩ <;>
    simp only [MessageLog.prePrepares_withViewChange]
  exacts [h.height, h.le, h.lt]

theorem onViewChange_leads {p : Progress} {m : ViewChange} {s : Step}
    (live : p.phase ≠ .committed) (h : t.onViewChange p m = .ok s) :
    t.Leads (.message (.viewChange m)) p s.requests s.progress := by
  rw [onViewChange] at h
  split at h
  · next hlate =>
    rw [← Except.ok.inj h]
    exact leads_ignore (Spares.dismisses (m := .viewChange m) (Or.inl hlate))
  · next hcur =>
    split at h
    · next hfar =>
      rw [← Except.ok.inj h]
      exact leads_ignore (Spares.dismisses (m := .viewChange m) (Or.inr (Or.inl hfar)))
    · next hfar =>
      split at h
      · next hbad =>
        rw [← Except.ok.inj h]
        rcases hbad with hfollows | hadm
        · refine leads_ignore
            (Spares.dismisses (m := .viewChange m) (Or.inr (Or.inr (Or.inl ?_))))
          simpa using hfollows
        · refine leads_ignore (dismisses_of_not_passes fun hpasses => ?_)
          rw [show t.admitsViewChange m = true from hpasses] at hadm
          exact absurd hadm (by simp)
      · next hok =>
        split at h
        · next hknown =>
          rw [← Except.ok.inj h]
          exact leads_ignore
            (Spares.dismisses (m := .viewChange m) (Or.inr (Or.inr (Or.inr hknown))))
        · next log hlog =>
          simp only [not_or, Bool.not_eq_true, Bool.not_eq_false'] at hok hfar
          have hle := Nat.le_of_not_lt hcur
          refine (Act.keepViewChange live hle hfar hok.1 hok.2 hlog).leads_of
            (t.consequences_checkViewChanges (p := { p with log }) live hok.1 hle h)
            fun placed rest => ?_
          obtain rfl := MessageLog.storeViewChange?_eq_some hlog
          exact t.atRest_checkViewChanges (p := { p with log := p.log.withViewChange m }) live
            (placed.withViewChange m) (rest.withViewChange m).1 (rest.withViewChange m).2
            (fun w hw hc => rest.unclaimed w (hc.of_withViewChange (Ne.symm hw))) hok.1 hle h

theorem onNewView_leads {p : Progress} {m : NewView} {s : Step} (live : p.phase ≠ .committed)
    (h : t.onNewView p m = .ok s) : t.Leads (.message (.newView m)) p s.requests s.progress := by
  rw [onNewView] at h
  dsimp only at h
  split at h
  · next hlate =>
    rw [← Except.ok.inj h]
    refine leads_ignore (Spares.dismisses (m := .newView m) ?_)
    exact hlate.imp_right Or.inl
  · next hview =>
    split at h
    · next hbusy =>
      rw [← Except.ok.inj h]
      exact leads_ignore (Spares.dismisses (m := .newView m) (Or.inr (Or.inr hbusy)))
    · next hidle =>
      split at h
      · next hadm =>
        rw [← Except.ok.inj h]
        refine leads_ignore (dismisses_of_not_passes fun hpasses => ?_)
        rw [show t.admitsNewView m = true from hpasses] at hadm
        exact absurd hadm (by simp)
      · next hadm =>
        simp only [not_or, not_and, not_not, Bool.not_eq_true, Bool.not_eq_false'] at hview hadm
        by_cases hlt : p.view < m.signed.content.view
        · have hact := Act.follow live (Or.inl hlt) hidle hadm
          rw [if_pos hlt, enterView_of_lt hlt] at h
          rw [← Except.ok.inj h]
          exact hact.leads fun placed rest => (rest.reach live placed _).idle _ _
        · have heq := Nat.le_antisymm (Nat.le_of_not_lt hview.1) (Nat.le_of_not_lt hlt)
          have hact := Act.follow live (Or.inr ⟨heq, hview.2 heq.symm⟩) hidle hadm
          rw [if_neg hlt] at h
          rw [Progress.reach_of_not_lt p hlt] at hact
          rw [← Except.ok.inj h]
          exact hact.leads fun _ rest => rest.idle _ p.pendingNewView

theorem Placed.elapsed {p : Progress} (placed : t.Placed p) : t.Placed (t.elapsed p) := by
  rw [Term.elapsed, ← p.log_reach (p.view + 1)]
  exact (placed.reach _).withViewChange _

/-- The own request makes at most the next view wait. -/
theorem AtRest.elapsed {p : Progress} (rest : t.AtRest p) (live : p.phase ≠ .committed)
    (placed : t.Placed p) : t.Uncommitted (t.elapsed p) ∧ t.Undecided (t.elapsed p) ∧
      ∀ w, w ≠ p.view + 1 → ¬t.Claims (t.elapsed p) w := by
  have hrest := rest.reach live placed (p.view + 1)
  rw [Term.elapsed, ← p.log_reach (p.view + 1)]
  exact ⟨(hrest.withViewChange _).1, (hrest.withViewChange _).2, fun w hw hc =>
    hrest.unclaimed w (hc.of_withViewChange (Ne.symm hw))⟩

/-- The last view has no next one. -/
theorem onElectionTimeout_last {p : Progress} (last : maxWord ≤ p.view) :
    t.onElectionTimeout p p.view = .error .viewOverflow := by
  rw [onElectionTimeout, if_neg (not_not_intro rfl), nextView_of_le last]
  rfl

theorem onElectionTimeout_leads {p : Progress} {view : View} {s : Step}
    (live : p.phase ≠ .committed) (h : t.onElectionTimeout p view = .ok s) :
    t.Leads (.event (.electionTimeout view)) p s.requests s.progress := by
  by_cases hview : view = p.view
  swap
  · rw [onElectionTimeout, if_pos hview] at h
    rw [← Except.ok.inj h]
    exact leads_ignore (Or.inr hview)
  · obtain rfl := hview
    have hroom : p.view < maxWord := by
      by_contra hlast
      rw [onElectionTimeout_last (Nat.le_of_not_lt hlast)] at h
      exact absurd h (by simp)
    have hlt : p.view < p.view + 1 := Nat.lt_succ_self _
    rw [onElectionTimeout, if_neg (not_not_intro rfl), nextView_of_lt hroom] at h
    change (p.enterView (p.view + 1) >>= _) = _ at h
    rw [enterView_of_lt hlt] at h
    by_cases hobs : t.observer = true
    · simp only [Bind.bind, Except.bind, if_pos hobs] at h
      rw [← Except.ok.inj h]
      exact (Act.watch live hobs).leads fun placed rest => rest.reach live placed _
    · have hmember : t.observer = false := by simpa using hobs
      have hact := Act.elapse live hmember
      simp only [Bind.bind, Except.bind, if_neg hobs, Step.andThen, Step.ask,
        Progress.log_reach] at h
      by_cases hleader : t.committee.leader (p.view + 1) = t.me
      · rw [if_pos hleader] at hact
        rw [if_pos hleader] at h
        -- the leader of the next view looks at once whether it can be opened
        have hleads : t.leads (p.view + 1) = true := t.leads_iff.2 ⟨hmember, hleader⟩
        split at h
        · exact absurd h (by simp)
        · next asked hasked =>
          have hle : (t.elapsed p).view ≤ p.view + 1 :=
            Nat.le_of_eq (p.view_reach (Nat.le_of_lt hlt))
          have hlive : (t.elapsed p).phase ≠ .committed := p.reach_live live
          have hc := t.consequences_checkViewChanges hlive hleads hle hasked
          have hrest : t.Placed p → t.AtRest p → t.AtRest asked.progress := by
            intro placed rest
            obtain ⟨huncommitted, hundecided, hothers⟩ := rest.elapsed live placed
            exact t.atRest_checkViewChanges hlive placed.elapsed huncommitted hundecided hothers
              hleads hle hasked
          rw [← Except.ok.inj h]
          exact hact.leads_of hc hrest
      · rw [if_neg hleader] at hact
        rw [if_neg hleader] at h
        rw [← Except.ok.inj h]
        refine hact.leads fun placed rest => ?_
        obtain ⟨huncommitted, hundecided, hothers⟩ := rest.elapsed live placed
        refine ⟨huncommitted, hundecided, fun w hw => hothers w (fun heq => hleader ?_) hw⟩
        rw [← heq]
        exact (t.leads_iff.1 hw.leads).2

theorem onProposalBuilt_leads {p : Progress} {view : View}
    {proposal : Option (Block × BlockHash)} {s : Step} (live : p.phase ≠ .committed)
    (h : t.onProposalBuilt p view proposal = .ok s) :
    t.Leads (.event (.proposalBuilt view proposal)) p s.requests s.progress := by
  unfold onProposalBuilt at h
  split at h
  · next hother =>
    rw [← Except.ok.inj h]
    refine leads_ignore (Or.inr ?_)
    exact hother.imp_right fun hfollows => Or.inl (by simpa using hfollows)
  · next hlead =>
    simp only [not_or, ne_eq, not_not, Bool.not_eq_true, Bool.not_eq_false'] at hlead
    obtain ⟨rfl, hleads⟩ := hlead
    split at h
    · rw [← Except.ok.inj h]
      exact leads_ignore (Or.inr (Or.inr (Or.inr (Or.inl rfl))))
    · next block hash =>
      split at h
      · next pending votes hpending =>
        split at h
        · next heq =>
          subst heq
          have hact := @Act.openPending t p block hash votes live hleads hpending
          obtain ⟨rs, hrs, hc⟩ :=
            t.openView_own { p with pendingNewView := none } block hash votes hleads
          rw [← Except.ok.inj h, hrs]
          exact hact.leads_of hc fun placed rest =>
            t.atRest_accept (p := { p with pendingNewView := none }) (rest.idle p.validating none)
              live (placed.idle p.validating none) rfl rfl
        · exact absurd h (by simp)
      · next hpending =>
        split at h
        · next hlate =>
          rw [← Except.ok.inj h]
          rw [Option.isSome_iff_ne_none] at hlate
          exact leads_ignore (Or.inr (Or.inr (Or.inr (Or.inr ⟨hpending, hlate⟩))))
        · next hzero =>
          simp only [not_or, ne_eq, not_not, Bool.not_eq_true, Option.isSome_eq_false_iff,
            Option.isNone_iff_eq_none] at hzero
          have hact := @Act.propose t p block hash live hleads hpending hzero.1 hzero.2
          obtain ⟨rs, hrs, hc⟩ := t.accept_own (p := p)
            (m := t.keys.prePrepare t.height p.view block hash) hleads
          have hreq : s.requests = (t.broadcast (.prePrepare
              (t.keys.prePrepare t.height p.view block hash)) ::
              (p.install (t.keys.prePrepare t.height p.view block hash)).requests) ++ rs := by
            rw [← Except.ok.inj h]
            show [_] ++ (t.accept p _).requests = _
            rw [hrs]
            rfl
          rw [hreq, ← Except.ok.inj h]
          exact hact.leads_of hc fun placed rest => t.atRest_accept rest live placed rfl rfl

theorem onValidated_leads {p : Progress} {m : PrePrepare} {valid : Bool}
    (live : p.phase ≠ .committed) (height : m.height = t.height) :
    t.Leads (.event (.validationFinished m valid)) p (t.onValidated p m valid).requests
      (t.onValidated p m valid).progress := by
  rw [onValidated]
  split
  · next hother => exact leads_ignore (Or.inr hother)
  · next hview =>
    simp only [not_or, ne_eq, not_not] at hview
    dsimp only
    split
    · next hvalid =>
      subst hvalid
      rcases hs : p.log.storePrePrepare? m with _ | log
      · rw [accept_of_not_store t (p := { p with validating := none }) hs]
        exact (Act.release live hview.1 hview.2 fun _ => hs).leads
          fun _ h => h.idle none p.pendingNewView
      · have hrest : t.Placed p → t.AtRest p →
            t.AtRest (t.accept { p with validating := none } m).progress := fun placed rest =>
          t.atRest_accept (p := { p with validating := none }) (rest.idle none p.pendingNewView)
            live (placed.idle none p.pendingNewView) height hview.1
        rw [accept_of_store t (p := { p with validating := none }) hs] at hrest ⊢
        have hact := Act.approve (t := t) live hview.1 hview.2 hs
        exact hact.leads_of (t.consequences_recount _ m) hrest
    · next hvalid =>
      exact (Act.release live hview.1 hview.2 fun h => absurd h hvalid).leads
        fun _ h => h.idle none p.pendingNewView

/-- **One act and its consequences.**  Whatever a term takes in, it does one thing with
it and then all that its progress calls for. -/
theorem react_cases {p : Progress} {stimulus : Stimulus} {s : Step}
    (validated : ∀ m valid, stimulus = .event (.validationFinished m valid) →
      m.height = t.height) (h : t.react p stimulus = .ok s) :
    t.Leads stimulus p s.requests s.progress := by
  rcases stimulus with _ | message | event
  · rw [← Except.ok.inj h]
    exact Act.start.leads fun _ h => h
  · replace h : t.handleMessage p message = .ok s := h
    unfold handleMessage at h
    split at h
    · exact absurd h (by simp)
    · next hheight =>
      have hheight : message.height = t.height := not_not.1 hheight
      split at h
      · next hdone =>
        rw [← Except.ok.inj h]
        exact leads_ignore (Or.inl hdone)
      · next live =>
        split at h
        · next hstranger =>
          rw [← Except.ok.inj h]
          refine leads_ignore (Or.inr (Or.inl fun hvalid => ?_))
          rw [hvalid.member] at hstranger
          exact absurd hstranger (by simp)
        · next hmem =>
          have hmem : message.sender ∈ t.committee.members := by simpa using hmem
          rcases message with m | m | m | m | m
          · rw [← Except.ok.inj h]
            exact onPrePrepare_leads p m
          · rw [← Except.ok.inj h]
            exact onPrepare_leads live hheight hmem
          · rw [← Except.ok.inj h]
            exact onCommit_leads live hheight hmem
          · exact onViewChange_leads live h
          · exact onNewView_leads live h
  · replace h : t.handleEvent p event = .ok s := h
    unfold handleEvent at h
    split at h
    · next hdone =>
      rw [← Except.ok.inj h]
      exact leads_ignore (Or.inl hdone)
    · next live =>
      rcases event with view | ⟨view, proposal⟩ | ⟨m, valid⟩
      · exact onElectionTimeout_leads live h
      · exact onProposalBuilt_leads live h
      · rw [← Except.ok.inj h]
        exact onValidated_leads live (validated m valid rfl)

end Term

end CommitteeConsensus
