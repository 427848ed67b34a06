import CommitteeConsensus.Proofs.Redelivery

/-!
# What ballots add up to

A *ballot* is a vote or a commit, reduced to what counts of it: its kind, its block and its
member.  A term that is given ballots of its view, and in between the word that a proposal is
valid, files some of them and drops the others, and which ones depends on when they come.  A vote
for another block is filed as long as there is no proposal, and dropped afterwards.

So the log is not compared with another log but with what there was to file.  `Term.Cast` says
which ballots a progress and a list of inputs have between them, and `Term.Proposed` which
proposal.  Both look at the list as a set.  A term that takes the inputs in one by one never
counts any other ballot, and as long as the height is open it counts all that are for its proposal
(`Term.Tally`).  There is one lemma for each thing that can become of an input, and one for the
consequences.

The own vote is as good as cast once the proposal is found valid.  The own commit is not: it is
never created if the commits of others reach a quorum before the votes do.  So it is left out of
`Cast`, and comes with the votes that it needs.
-/

namespace CommitteeConsensus

/-! ## Ballots -/

/-- What a member says about a block within a view. -/
inductive BallotKind where
  | vote
  | commit
  deriving DecidableEq

/-- A vote or a commit, as far as it counts. -/
structure Ballot where
  kind : BallotKind
  blockHash : BlockHash
  member : MemberId
  deriving DecidableEq

/-- The ballot that is cast with a message. -/
def Message.ballot? : Message → Option Ballot
  | .prepare s => some ⟨.vote, s.content.blockHash, s.sender⟩
  | .commit s => some ⟨.commit, s.content.blockHash, s.sender⟩
  | _ => none

theorem Message.ballot_member {m : Message} {b : Ballot} (h : m.ballot? = some b) :
    b.member = m.sender := by
  cases m <;> simp only [ballot?, reduceCtorEq, Option.some.injEq] at h <;> rw [← h] <;> rfl

namespace MessageLog

variable {log log' : MessageLog} {height : Height} {view : View} {b : Ballot}

/-- The members whose ballots of a kind are filed for a block, ascending. -/
def casters (log : MessageLog) (kind : BallotKind) (height : Height) (view : View)
    (hash : BlockHash) : List MemberId :=
  match kind with
  | .vote => log.prepareSenders height view hash
  | .commit => log.commitSenders height view hash

/-- A ballot is filed for a view. -/
def Counts (log : MessageLog) (height : Height) (view : View) (b : Ballot) : Prop :=
  b.member ∈ log.casters b.kind height view b.blockHash

theorem counts_vote {hash : BlockHash} {i : MemberId} :
    log.Counts height view ⟨.vote, hash, i⟩ ↔ ∃ s ∈ log.prepares,
      ((s.content.height = height ∧ s.content.view = view) ∧ s.content.blockHash = hash) ∧
        s.sender = i := by
  simp only [Counts, casters, prepareSenders, List.mem_map, mem_preparesFor, and_assoc]

theorem counts_commit {hash : BlockHash} {i : MemberId} :
    log.Counts height view ⟨.commit, hash, i⟩ ↔ ∃ s ∈ log.commits,
      ((s.content.height = height ∧ s.content.view = view) ∧ s.content.blockHash = hash) ∧
        s.sender = i := by
  simp only [Counts, casters, commitSenders, List.mem_map, mem_commitsFor, and_assoc]

theorem Grows.counts (h : log.Grows log') (hb : log.Counts height view b) :
    log'.Counts height view b := by
  obtain ⟨kind, hash, i⟩ := b
  cases kind
  · exact (h.preparesFor.map _).subset hb
  · exact (h.commitsFor.map _).subset hb

theorem counts_congr (hprepares : log'.prepares = log.prepares)
    (hcommits : log'.commits = log.commits) :
    log'.Counts height view b ↔ log.Counts height view b := by
  obtain ⟨kind, hash, i⟩ := b
  cases kind
  · rw [counts_vote, counts_vote, hprepares]
  · rw [counts_commit, counts_commit, hcommits]

/-- Filing a vote counts one ballot more. -/
theorem counts_withPrepare {s : Signed PrepareContent} :
    (log.withPrepare s).Counts height view b ↔ log.Counts height view b ∨
      (s.content.height = height ∧ s.content.view = view) ∧
        b = ⟨.vote, s.content.blockHash, s.sender⟩ := by
  constructor
  · intro hb
    obtain ⟨kind, hash, i⟩ := b
    cases kind
    · obtain ⟨c, hc, hkey, rfl⟩ := counts_vote.1 hb
      rcases mem_withPrepare hc with rfl | hold
      · exact Or.inr ⟨hkey.1, by rw [hkey.2]⟩
      · exact Or.inl (counts_vote.2 ⟨c, hold, hkey, rfl⟩)
    · obtain ⟨c, hc, hkey⟩ := counts_commit.1 hb
      rw [commits_withPrepare] at hc
      exact Or.inl (counts_commit.2 ⟨c, hc, hkey⟩)
  · rintro (hb | ⟨⟨rfl, rfl⟩, rfl⟩)
    · exact (grows_withPrepare log s).counts hb
    · obtain ⟨c, hc, hsender⟩ := exists_preparesFor_withPrepare log s
      exact List.mem_map.2 ⟨c, hc, hsender⟩

/-- Filing a commit counts one ballot more. -/
theorem counts_withCommit {s : Signed CommitContent} :
    (log.withCommit s).Counts height view b ↔ log.Counts height view b ∨
      (s.content.height = height ∧ s.content.view = view) ∧
        b = ⟨.commit, s.content.blockHash, s.sender⟩ := by
  constructor
  · intro hb
    obtain ⟨kind, hash, i⟩ := b
    cases kind
    · obtain ⟨c, hc, hkey⟩ := counts_vote.1 hb
      rw [prepares_withCommit] at hc
      exact Or.inl (counts_vote.2 ⟨c, hc, hkey⟩)
    · obtain ⟨c, hc, hkey, rfl⟩ := counts_commit.1 hb
      rcases mem_withCommit hc with rfl | hold
      · exact Or.inr ⟨hkey.1, by rw [hkey.2]⟩
      · exact Or.inl (counts_commit.2 ⟨c, hold, hkey, rfl⟩)
  · rintro (hb | ⟨⟨rfl, rfl⟩, rfl⟩)
    · exact (grows_withCommit log s).counts hb
    · obtain ⟨c, hc, hsender⟩ := exists_commitsFor_withCommit log s
      exact List.mem_map.2 ⟨c, hc, hsender⟩

theorem hasPrepareFrom_iff {i : MemberId} :
    log.hasPrepareFrom height view i = true ↔ ∃ hash, log.Counts height view ⟨.vote, hash, i⟩ := by
  simp only [hasPrepareFrom, List.any_eq_true, Bool.and_eq_true, beq_iff_eq, counts_vote]
  constructor
  · rintro ⟨s, hs, hkey, hsender⟩
    exact ⟨_, s, hs, ⟨hkey, rfl⟩, hsender⟩
  · rintro ⟨hash, s, hs, ⟨hkey, -⟩, hsender⟩
    exact ⟨s, hs, hkey, hsender⟩

theorem hasCommitFrom_iff {i : MemberId} :
    log.hasCommitFrom height view i = true ↔
      ∃ hash, log.Counts height view ⟨.commit, hash, i⟩ := by
  simp only [hasCommitFrom, List.any_eq_true, Bool.and_eq_true, beq_iff_eq, counts_commit]
  constructor
  · rintro ⟨s, hs, hkey, hsender⟩
    exact ⟨_, s, hs, ⟨hkey, rfl⟩, hsender⟩
  · rintro ⟨hash, s, hs, ⟨hkey, -⟩, hsender⟩
    exact ⟨s, hs, hkey, hsender⟩

/-- No member is counted twice, so a log that counts whom another one counts counts as many. -/
theorem length_casters_le (wellFormed : log.WellFormed) {kind : BallotKind} {hash : BlockHash}
    (h : ∀ i, log.Counts height view ⟨kind, hash, i⟩ → log'.Counts height view ⟨kind, hash, i⟩) :
    (log.casters kind height view hash).length ≤ (log'.casters kind height view hash).length := by
  have hnodup : (log.casters kind height view hash).Nodup := by
    cases kind
    · exact nodup_preparesFor wellFormed
    · exact nodup_commitsFor wellFormed
  exact (List.subperm_of_subset hnodup fun i hi => h i hi).length_le

end MessageLog

namespace Term

variable {t : Term} {p q q₁ : Progress} {rs : List Request} {m : Message} {b : Ballot}
  {inputs inputs' : List Stimulus}

/-! ## What a term does with a ballot -/

/-- A ballot is kept: it is valid and the first of its kind by its member, and nothing else
changes. -/
structure Keeps (t : Term) (p : Progress) (m : Message) (b : Ballot) (q : Progress) : Prop where
  valid : t.FindsValid m
  live : p.phase ≠ .committed
  near : t.tooFarAhead p m.view = false
  first : ∀ hash, ¬p.log.Counts t.height m.view ⟨b.kind, hash, b.member⟩
  shape : q = { p with log := q.log }
  prePrepares : q.log.prePrepares = p.log.prePrepares
  viewChanges : q.log.viewChanges = p.log.viewChanges
  counts : ∀ b' : Ballot, q.log.Counts t.height m.view b' ↔
    p.log.Counts t.height m.view b' ∨ b' = b

/-- A ballot is kept or dismissed. -/
theorem Act.of_ballot (h : t.Act (.message m) p rs q) (ballot : m.ballot? = some b) :
    (t.Dismisses p (.message m) ∧ q = p) ∨ t.Keeps p m b q := by
  cases h with
  | ignore dismisses => exact Or.inl ⟨dismisses, rfl⟩
  | examine | follow | keepViewChange => exact absurd ballot (by simp [Message.ballot?])
  | @keepPrepare _ s live mem height current near sender fits verifies first =>
    obtain rfl := Option.some.inj ballot
    have hvalid : t.FindsValid (.prepare s) :=
      ⟨height, Committee.contains_eq_true.2 mem, sender, verifies⟩
    refine Or.inr ⟨hvalid, live, near, fun hash hcounts => ?_, rfl,
      MessageLog.prePrepares_withPrepare _ _, MessageLog.viewChanges_withPrepare _ _,
      fun b' => ?_⟩
    · exact absurd ((MessageLog.hasPrepareFrom_iff.2 ⟨hash, hcounts⟩).symm.trans first) (by simp)
    · refine MessageLog.counts_withPrepare.trans (or_congr_right ?_)
      exact ⟨And.right, fun heq => ⟨⟨height, rfl⟩, heq⟩⟩
  | @keepCommit _ s live mem height current near fits verifies share first =>
    obtain rfl := Option.some.inj ballot
    have hvalid : t.FindsValid (.commit s) :=
      ⟨height, Committee.contains_eq_true.2 mem, verifies, share⟩
    refine Or.inr ⟨hvalid, live, near, fun hash hcounts => ?_, rfl,
      MessageLog.prePrepares_withCommit _ _, MessageLog.viewChanges_withCommit _ _,
      fun b' => ?_⟩
    · exact absurd ((MessageLog.hasCommitFrom_iff.2 ⟨hash, hcounts⟩).symm.trans first) (by simp)
    · refine MessageLog.counts_withCommit.trans (or_congr_right ?_)
      exact ⟨And.right, fun heq => ⟨⟨height, rfl⟩, heq⟩⟩

/-- When a ballot is of no use. -/
theorem spares_ballot (ballot : m.ballot? = some b) :
    t.Spares p m ↔ m.view < p.view ∨ t.tooFarAhead p m.view = true ∨
      t.matchesProposal p m.view b.blockHash = false ∨
        ∃ hash, p.log.Counts t.height m.view ⟨b.kind, hash, b.member⟩ := by
  cases m with
  | prePrepare | viewChange | newView => exact absurd ballot (by simp [Message.ballot?])
  | prepare s =>
    obtain rfl := Option.some.inj ballot
    exact or_congr_right (or_congr_right (or_congr_right MessageLog.hasPrepareFrom_iff))
  | commit s =>
    obtain rfl := Option.some.inj ballot
    exact or_congr_right (or_congr_right (or_congr_right MessageLog.hasCommitFrom_iff))

/-- A valid ballot for the proposal is dismissed for one reason only: its member has cast one
of the kind before. -/
theorem Dismisses.counts (h : t.Dismisses p (.message m)) (ballot : m.ballot? = some b)
    (live : p.phase ≠ .committed) (valid : t.FindsValid m) (view : m.view = p.view)
    (near : t.tooFarAhead p p.view = false)
    (fits : t.matchesProposal p p.view b.blockHash = true) :
    ∃ hash, p.log.Counts t.height p.view ⟨b.kind, hash, b.member⟩ := by
  have hspares := (h.resolve_left live).resolve_left (not_not_intro valid)
  rw [spares_ballot ballot, view] at hspares
  rcases hspares with hlate | hfar | hmisfit | hknown
  · exact absurd hlate (Nat.lt_irrefl _)
  · exact absurd (hfar.symm.trans near) (by simp)
  · exact absurd (fits.symm.trans hmisfit) (by simp)
  · exact hknown

/-- The own vote is all that voting for a proposal adds. -/
theorem counts_voteFor (t : Term) (p : Progress) (m : PrePrepare) {b : Ballot} :
    (t.voteFor p m).progress.log.Counts t.height m.view b ↔ p.log.Counts t.height m.view b ∨
      (t.observer = false ∧ t.leads m.view = false) ∧ b = ⟨.vote, m.blockHash, t.me⟩ := by
  rw [voteFor]
  split
  · next hsilent =>
    refine ⟨Or.inl, fun h => h.resolve_right fun hown => ?_⟩
    obtain ⟨⟨hmember, hfollows⟩, -⟩ := hown
    exact absurd hsilent (by simp [hmember, hfollows])
  · next hmember =>
    rw [not_or, Bool.not_eq_true, Bool.not_eq_true] at hmember
    refine MessageLog.counts_withPrepare.trans (or_congr_right ?_)
    exact ⟨fun h => ⟨hmember, h.2⟩, fun h => ⟨⟨rfl, rfl⟩, h.2⟩⟩

/-- A proposal is accepted: it is filed and voted for. -/
structure Accepts (t : Term) (p : Progress) (m : PrePrepare) (q : Progress) : Prop where
  live : p.phase ≠ .committed
  current : m.view = p.view
  validating : p.validating = some m.view
  vacant : p.log.prePrepare? t.height m.view = none
  view : q.view = p.view
  proposal : q.log.prePrepare? t.height m.view = some m
  counts : ∀ b : Ballot, q.log.Counts t.height m.view b ↔ p.log.Counts t.height m.view b ∨
    (t.observer = false ∧ t.leads m.view = false) ∧ b = ⟨.vote, m.blockHash, t.me⟩

/-- A proposal that the host finds valid is accepted, unless nothing waits for it or the view has
one. -/
theorem Act.of_approval {m : PrePrepare} (h : t.Act (.event (.validationFinished m true)) p rs q)
    (placed : t.Placed p) (height : m.height = t.height) :
    (t.Dismisses p (.event (.validationFinished m true)) ∧ q = p) ∨
      (p.log.prePrepare? t.height m.view ≠ none ∧ q = { p with validating := none }) ∨
        t.Accepts p m q := by
  cases h with
  | ignore dismisses => exact Or.inl ⟨dismisses, rfl⟩
  | release live view validating useless =>
    refine Or.inr (Or.inl ⟨?_, rfl⟩)
    rw [← height]
    exact MessageLog.storePrePrepare?_eq_none_iff.1 (useless rfl)
  | @approve _ _ log live view validating stored =>
    refine Or.inr (Or.inr ⟨live, view, validating, ?_, t.view_voteFor _ _, ?_, fun b => ?_⟩)
    · by_contra hheld
      rw [← height, ← ne_eq, ← MessageLog.storePrePrepare?_eq_none_iff] at hheld
      exact absurd (hheld.symm.trans stored) (by simp)
    · rw [MessageLog.prePrepare?_congr (t.prePrepares_voteFor _ _), ← height]
      exact MessageLog.prePrepare?_of_store placed.wellFormed stored
    · rw [t.counts_voteFor]
      obtain ⟨-, rfl⟩ := MessageLog.storePrePrepare?_eq_some.1 stored
      exact or_congr_left (MessageLog.counts_congr rfl rfl)

/-- Where no view waits to be taken on, a consequence files nothing but the own commit, to a
proposal that a quorum voted for. -/
theorem Consequence.counts (h : t.Consequence p rs q) (unclaimed : t.Unclaimed p) :
    q.log.prePrepares = p.log.prePrepares ∧ p.log.prePrepare? t.height p.view ≠ none ∧
      ∀ b : Ballot, q.log.Counts t.height p.view b → p.log.Counts t.height p.view b ∨
        ∃ hash, b = ⟨.commit, hash, t.me⟩ ∧ t.observer = false ∧ t.Backs p.log p.view hash := by
  cases h with
  | repropose claims | await claims => exact absurd claims (unclaimed _)
  | @commit m phase proposal quorum =>
    refine ⟨prePrepares_commitTo _ _ _, by simp [proposal], fun b hb => ?_⟩
    rcases t.commitTo_cases { p with phase := .prepared } m.blockHash with hquiet | ⟨hmember, hown⟩
    · rw [hquiet] at hb
      exact Or.inl hb
    · rw [hown] at hb
      refine (MessageLog.counts_withCommit.1 hb).imp_right fun ⟨_, heq⟩ => ?_
      obtain ⟨hmem, -, hview⟩ := MessageLog.of_prePrepare?_eq_some proposal
      rw [MessageLog.length_prepareSenders] at quorum
      exact ⟨m.blockHash, heq, hmember, ⟨m, hmem, hview, rfl⟩, quorum⟩
  | decide phase proposal => exact ⟨rfl, by simp [proposal], fun _ hb => Or.inl hb⟩

/-! ## What there is to count -/

/-- A proposal that waits for the host, and that the host finds valid. -/
structure Approved (t : Term) (p : Progress) (inputs : List Stimulus) (m : PrePrepare) : Prop where
  vacant : p.log.prePrepare? t.height p.view = none
  validating : p.validating = some p.view
  view : m.view = p.view
  mem : .event (.validationFinished m true) ∈ inputs

/-- The proposal of the current view, with these inputs taken in. -/
def Proposed (t : Term) (p : Progress) (inputs : List Stimulus) (m : PrePrepare) : Prop :=
  p.log.prePrepare? t.height p.view = some m ∨ t.Approved p inputs m

/-- The ballots of the current view, with these inputs taken in, but for the own commit. -/
inductive Cast (t : Term) (p : Progress) (inputs : List Stimulus) : Ballot → Prop where
  /-- It is filed. -/
  | filed {b : Ballot} (counts : p.log.Counts t.height p.view b) : Cast t p inputs b
  /-- It is among the inputs, and its member has cast none of the kind before. -/
  | taken {m : Message} {b : Ballot} (mem : .message m ∈ inputs) (ballot : m.ballot? = some b)
    (valid : t.FindsValid m) (view : m.view = p.view) (near : t.tooFarAhead p p.view = false)
    (first : ∀ hash, ¬p.log.Counts t.height p.view ⟨b.kind, hash, b.member⟩) : Cast t p inputs b
  /-- It is the own vote. -/
  | own {m : PrePrepare} (approved : t.Approved p inputs m)
    (member : t.observer = false ∧ t.leads m.view = false) :
    Cast t p inputs ⟨.vote, m.blockHash, t.me⟩

theorem Approved.mono {m : PrePrepare} (h : t.Approved p inputs m) (sub : inputs ⊆ inputs') :
    t.Approved p inputs' m := ⟨h.vacant, h.validating, h.view, sub h.mem⟩

theorem Proposed.mono {m : PrePrepare} (h : t.Proposed p inputs m) (sub : inputs ⊆ inputs') :
    t.Proposed p inputs' m := h.imp_right fun happroved => happroved.mono sub

theorem Cast.mono (h : t.Cast p inputs b) (sub : inputs ⊆ inputs') : t.Cast p inputs' b := by
  cases h with
  | filed counts => exact .filed counts
  | taken mem ballot valid view near first => exact .taken (sub mem) ballot valid view near first
  | own approved member => exact .own (approved.mono sub) member

/-- A message approves of nothing. -/
theorem Approved.of_message {m' : PrePrepare} (h : t.Approved p (inputs ++ [.message m]) m') :
    t.Approved p inputs m' := by
  refine ⟨h.vacant, h.validating, h.view, ?_⟩
  rcases List.mem_append.1 h.mem with hold | hnew
  · exact hold
  · exact absurd (List.mem_singleton.1 hnew) (by simp)

/-- What a message adds to the ballots that are cast. -/
theorem Cast.of_message (h : t.Cast p (inputs ++ [.message m]) b) :
    t.Cast p inputs b ∨ m.ballot? = some b ∧ t.FindsValid m ∧ t.tooFarAhead p p.view = false ∧
      ∀ hash, ¬p.log.Counts t.height p.view ⟨b.kind, hash, b.member⟩ := by
  cases h with
  | filed counts => exact Or.inl (.filed counts)
  | taken mem ballot valid view near first =>
    rcases List.mem_append.1 mem with hold | hnew
    · exact Or.inl (.taken hold ballot valid view near first)
    · obtain rfl := Stimulus.message.inj (List.mem_singleton.1 hnew)
      exact Or.inr ⟨ballot, valid, near, first⟩
  | own approved member => exact Or.inl (.own approved.of_message member)

/-- What an event adds to the ballots that are cast. -/
theorem Cast.of_event {event : Event} (h : t.Cast p (inputs ++ [.event event]) b) :
    t.Cast p inputs b ∨ ∃ m, t.Approved p (inputs ++ [.event event]) m ∧
      (t.observer = false ∧ t.leads m.view = false) ∧ b = ⟨.vote, m.blockHash, t.me⟩ := by
  cases h with
  | filed counts => exact Or.inl (.filed counts)
  | taken mem ballot valid view near first =>
    rcases List.mem_append.1 mem with hold | hnew
    · exact Or.inl (.taken hold ballot valid view near first)
    · exact absurd (List.mem_singleton.1 hnew) (by simp)
  | @own m approved member => exact Or.inr ⟨m, approved, member, rfl⟩

/-! ## Keeping count -/

/-- Where a term is that has taken inputs in, seen from where it was before. -/
structure Tally (t : Term) (p : Progress) (inputs : List Stimulus) (q : Progress) : Prop where
  view : q.view = p.view
  grows : p.log.Grows q.log
  /-- The host is heard of once. -/
  waiting : (∀ m, .event (.validationFinished m true) ∉ inputs) → q.validating = p.validating
  /-- Without a proposal the phase stays the same. -/
  phase : q.log.prePrepare? t.height p.view = none → q.phase = p.phase
  /-- Nothing is made up. -/
  proposed : ∀ m, q.log.prePrepare? t.height p.view = some m → t.Proposed p inputs m
  cast : ∀ b : Ballot, q.log.Counts t.height p.view b → t.Cast p inputs b ∨
    ∃ hash, b = ⟨.commit, hash, t.me⟩ ∧ t.observer = false ∧ t.Backs q.log p.view hash
  /-- Nothing is lost, as long as the height is open. -/
  held : q.phase ≠ .committed → ∀ m, t.Proposed p inputs m →
    q.log.prePrepare? t.height p.view = some m
  counted : q.phase ≠ .committed → ∀ b, t.Cast p inputs b →
    t.matchesProposal q p.view b.blockHash = true → q.log.Counts t.height p.view b

theorem matchesProposal_congr (h : q.log.prePrepares = p.log.prePrepares) {view : View}
    {hash : BlockHash} : t.matchesProposal q view hash = t.matchesProposal p view hash := by
  rw [matchesProposal, matchesProposal, MessageLog.prePrepare?_congr h]

/-- Nothing taken in, nothing changed. -/
theorem Tally.start (t : Term) (p : Progress) : t.Tally p [] p where
  view := rfl
  grows := MessageLog.Grows.refl _
  waiting _ := rfl
  phase _ := rfl
  proposed _ hm := Or.inl hm
  cast _ hb := Or.inl (.filed hb)
  held _ m hm := hm.resolve_right fun h => absurd h.mem List.not_mem_nil
  counted _ b hb _ := by
    cases hb with
    | filed counts => exact counts
    | taken mem => exact absurd mem List.not_mem_nil
    | own approved => exact absurd approved.mem List.not_mem_nil

/-- A member that has not cast a ballot of a kind is not said to have. -/
theorem Tally.free (tally : t.Tally p inputs q) {kind : BallotKind} {i : MemberId}
    (other : i ≠ t.me)
    (once : ∀ m b, .message m ∈ inputs → m.ballot? = some b → (b.kind, b.member) ≠ (kind, i))
    (first : ∀ hash, ¬p.log.Counts t.height p.view ⟨kind, hash, i⟩) (hash : BlockHash) :
    ¬q.log.Counts t.height p.view ⟨kind, hash, i⟩ := by
  intro hcounts
  rcases tally.cast _ hcounts with hcast | ⟨hash', heq, -⟩
  · generalize hb : (⟨kind, hash, i⟩ : Ballot) = b at hcast
    cases hcast with
    | filed counts => exact first hash (hb ▸ counts)
    | taken mem ballot => exact once _ _ mem ballot (by rw [← hb])
    | own => exact other (Ballot.mk.inj hb).2.2
  · exact other (Ballot.mk.inj heq).2.2

/-- Until the host is heard of, there is no word of it. -/
theorem Tally.waiting_append (tally : t.Tally p inputs q)
    (hnone : ∀ m, .event (.validationFinished m true) ∉ inputs ++ inputs') :
    q.validating = p.validating :=
  tally.waiting fun m hm => hnone m (List.mem_append_left _ hm)

theorem Tally.tooFarAhead (tally : t.Tally p inputs q) :
    t.tooFarAhead q q.view = t.tooFarAhead p p.view := by
  rw [Term.tooFarAhead, Term.tooFarAhead, tally.view]

/-- A ballot that is dismissed is not missed: its member has cast one of the kind before. -/
theorem Tally.dismissed (tally : t.Tally p inputs q) (h : t.Dismisses q (.message m))
    (ballot : m.ballot? = some b) (view : m.view = p.view) (other : m.sender ≠ t.me)
    (once : ∀ m' b', .message m' ∈ inputs → m'.ballot? = some b' →
      (b'.kind, b'.member) ≠ (b.kind, b.member)) :
    t.Tally p (inputs ++ [.message m]) q where
  view := tally.view
  grows := tally.grows
  waiting := tally.waiting_append
  phase := tally.phase
  proposed m' hm' := (tally.proposed m' hm').mono (List.subset_append_left _ _)
  cast b' hb' := (tally.cast b' hb').imp_left fun hcast =>
    hcast.mono (List.subset_append_left _ _)
  held live m' hm' := tally.held live m' (hm'.imp_right Approved.of_message)
  counted live b' hb' hfits := by
    rcases hb'.of_message with hold | ⟨hnew, hvalid, hnear, hfirst⟩
    · exact tally.counted live b' hold hfits
    · obtain rfl := Option.some.inj (ballot.symm.trans hnew)
      rw [← tally.view] at hfits
      obtain ⟨hash, hknown⟩ := h.counts ballot live hvalid (view.trans tally.view.symm)
        (tally.tooFarAhead.trans hnear) hfits
      rw [tally.view] at hknown
      refine absurd hknown (tally.free ?_ once hfirst hash)
      exact Message.ballot_member ballot ▸ other

/-- A ballot that is kept is cast. -/
theorem Tally.kept (tally : t.Tally p inputs q) (h : t.Keeps q m b q₁)
    (grows : q.log.Grows q₁.log) (ballot : m.ballot? = some b) (view : m.view = p.view) :
    t.Tally p (inputs ++ [.message m]) q₁ := by
  have hprePrepare := MessageLog.prePrepare?_congr (h := t.height) (v := p.view) h.prePrepares
  have hcounts := h.counts
  have hfirst := h.first
  have hnear := h.near
  rw [view] at hcounts hfirst hnear
  rw [← tally.view, tally.tooFarAhead] at hnear
  have hshape := h.shape
  refine ⟨?_, tally.grows.trans grows, ?_, ?_, ?_, fun b' hb' => ?_, ?_, fun _ b' hb' hfits => ?_⟩
  · rw [hshape]
    exact tally.view
  · rw [hshape]
    exact tally.waiting_append
  · rw [hprePrepare, hshape]
    exact tally.phase
  · rw [hprePrepare]
    exact fun m' hm' => (tally.proposed m' hm').mono (List.subset_append_left _ _)
  · rcases (hcounts b').1 hb' with hold | rfl
    · exact (tally.cast b' hold).imp (fun hcast => hcast.mono (List.subset_append_left _ _))
        fun ⟨hash, heq, hmember, hbacks⟩ => ⟨hash, heq, hmember, hbacks.mono grows⟩
    · exact Or.inl (.taken (List.mem_append_right _ List.mem_cons_self) ballot h.valid view hnear
        fun hash hb => hfirst hash (tally.grows.counts hb))
  · rw [hprePrepare]
    exact fun _ m' hm' => tally.held h.live m' (hm'.imp_right Approved.of_message)
  · rw [matchesProposal_congr h.prePrepares] at hfits
    refine (hcounts b').2 (hb'.of_message.imp (fun hold => ?_) fun hnew => ?_)
    · exact tally.counted h.live b' hold hfits
    · exact Option.some.inj (hnew.1.symm.trans ballot)

/-- A ballot is taken in. -/
theorem Tally.message (tally : t.Tally p inputs q) (h : t.Act (.message m) q rs q₁)
    (ballot : m.ballot? = some b) (view : m.view = p.view) (other : m.sender ≠ t.me)
    (once : ∀ m' b', .message m' ∈ inputs → m'.ballot? = some b' →
      (b'.kind, b'.member) ≠ (b.kind, b.member)) :
    t.Tally p (inputs ++ [.message m]) q₁ := by
  rcases h.of_ballot ballot with ⟨hdismisses, rfl⟩ | keeps
  · exact tally.dismissed hdismisses ballot view other once
  · exact tally.kept keeps h.grows ballot view

/-- Word from the host that makes no difference. -/
theorem Tally.disregarded (tally : t.Tally p inputs q) {m : PrePrepare}
    (useless : q.phase ≠ .committed →
      ∀ m', ¬t.Approved p (inputs ++ [.event (.validationFinished m true)]) m')
    (validating : Option View) :
    t.Tally p (inputs ++ [.event (.validationFinished m true)]) { q with validating } where
  view := tally.view
  grows := tally.grows
  waiting hnone := absurd (List.mem_append_right _ List.mem_cons_self) (hnone m)
  phase := tally.phase
  proposed m' hm' := (tally.proposed m' hm').mono (List.subset_append_left _ _)
  cast b' hb' := (tally.cast b' hb').imp_left fun hcast =>
    hcast.mono (List.subset_append_left _ _)
  held live m' hm' := tally.held live m' (Or.inl (hm'.resolve_right (useless live m')))
  counted live b' hb' hfits := by
    rcases hb'.of_event with hold | ⟨m', happroved, -⟩
    · exact tally.counted live b' hold hfits
    · exact absurd happroved (useless live m')

/-- The proposal is found valid, filed and voted for. -/
theorem Tally.accepted (tally : t.Tally p inputs q) {m : PrePrepare} (h : t.Accepts q m q₁)
    (grows : q.log.Grows q₁.log)
    (approved : t.Approved p (inputs ++ [.event (.validationFinished m true)]) m)
    (only : ∀ m', t.Approved p (inputs ++ [.event (.validationFinished m true)]) m' → m' = m) :
    t.Tally p (inputs ++ [.event (.validationFinished m true)]) q₁ := by
  have hvacant := h.vacant
  have hproposal := h.proposal
  have hcounts := h.counts
  rw [approved.view] at hvacant hproposal
  simp only [approved.view] at hcounts
  refine ⟨h.view.trans tally.view, tally.grows.trans grows, fun hnone => ?_, fun hnone => ?_,
    fun m' hm' => ?_, fun b hb => ?_, fun _ m' hm' => ?_, fun _ b hb _ => ?_⟩
  · exact absurd (List.mem_append_right _ List.mem_cons_self) (hnone m)
  · exact absurd (hproposal.symm.trans hnone) (by simp)
  · rw [← Option.some.inj (hproposal.symm.trans hm')]
    exact Or.inr approved
  · rcases (hcounts b).1 hb with hold | ⟨hmember, rfl⟩
    · exact (tally.cast b hold).imp (fun hcast => hcast.mono (List.subset_append_left _ _))
        fun ⟨hash, heq, hmember, hbacks⟩ => ⟨hash, heq, hmember, hbacks.mono grows⟩
    · exact Or.inl (.own approved (approved.view ▸ hmember))
  · rcases hm' with hbefore | hnow
    · exact absurd (approved.vacant.symm.trans hbefore) (by simp)
    · rw [only m' hnow]
      exact hproposal
  · refine (hcounts b).2 (hb.of_event.imp (fun hold => ?_) fun ⟨m', hnow, hmember, heq⟩ => ?_)
    · -- without a proposal, ballots for any block are kept
      refine tally.counted h.live b hold ?_
      rw [matchesProposal, hvacant]
    · rw [only m' hnow] at hmember heq
      exact ⟨approved.view ▸ hmember, heq⟩

/-- The host is heard of. -/
theorem Tally.event (tally : t.Tally p inputs q) {m : PrePrepare}
    (h : t.Act (.event (.validationFinished m true)) q rs q₁) (placed : t.Placed q)
    (height : m.height = t.height)
    (sole : ∀ m', .event (.validationFinished m' true) ∉ inputs) :
    t.Tally p (inputs ++ [.event (.validationFinished m true)]) q₁ := by
  have honly : ∀ m', t.Approved p (inputs ++ [.event (.validationFinished m true)]) m' →
      m' = m := fun m' happroved => by
    have hmem := (List.mem_append.1 happroved.mem).resolve_left (sole m')
    simpa using hmem
  rcases h.of_approval placed height with ⟨hdismisses, rfl⟩ | ⟨hheld, rfl⟩ | haccepts
  · refine tally.disregarded (fun live m' happroved => ?_) q₁.validating
    obtain rfl := honly m' happroved
    rcases hdismisses.resolve_left live with hother | hidle
    · exact hother (happroved.view.trans tally.view.symm)
    · rw [tally.waiting sole, happroved.view] at hidle
      exact hidle happroved.validating
  · refine tally.disregarded (fun _ m' happroved => ?_) none
    obtain rfl := honly m' happroved
    -- the view has a proposal, which it can only have from before
    obtain ⟨held, hheld⟩ := Option.ne_none_iff_exists'.1 hheld
    rw [happroved.view] at hheld
    rcases tally.proposed held hheld with hbefore | hearlier
    · exact absurd (happroved.vacant.symm.trans hbefore) (by simp)
    · exact sole held hearlier.mem
  · have hview : m.view = p.view := haccepts.current.trans tally.view
    have hvacant := haccepts.vacant
    have hvalidating := haccepts.validating
    rw [hview] at hvacant hvalidating
    refine tally.accepted haccepts h.grows ⟨?_, (tally.waiting sole).symm.trans hvalidating, hview,
      List.mem_append_right _ List.mem_cons_self⟩ honly
    by_contra hheld
    obtain ⟨held, hheld⟩ := Option.ne_none_iff_exists'.1 hheld
    exact absurd ((tally.held haccepts.live held (Or.inl hheld)).symm.trans hvacant) (by simp)

/-- What follows from what was taken in. -/
theorem Tally.consequence (tally : t.Tally p inputs q) (h : t.Consequence q rs q₁)
    (unclaimed : t.Unclaimed q) : t.Tally p inputs q₁ := by
  obtain ⟨-, hview, hvalidating, -⟩ := h.steady unclaimed
  obtain ⟨hprePrepares, hproposal, hcounts⟩ := h.counts unclaimed
  rw [tally.view] at hproposal hcounts
  have hprePrepare := MessageLog.prePrepare?_congr (h := t.height) (v := p.view) hprePrepares
  refine ⟨hview.trans tally.view, tally.grows.trans h.grows,
    fun hnone => hvalidating.trans (tally.waiting hnone), ?_, ?_, fun b hb => ?_, fun _ => ?_,
    fun _ b hb hfits => ?_⟩
  · rw [hprePrepare]
    exact fun hnone => absurd hnone hproposal
  · rw [hprePrepare]
    exact tally.proposed
  · rcases hcounts b hb with hold | ⟨hash, heq, hmember, hbacks⟩
    · exact (tally.cast b hold).imp_right fun ⟨hash, heq, hmember, hbacks⟩ =>
        ⟨hash, heq, hmember, hbacks.mono h.grows⟩
    · exact Or.inr ⟨hash, heq, hmember, hbacks.mono h.grows⟩
  · rw [hprePrepare]
    exact tally.held h.live
  · rw [matchesProposal_congr hprePrepares] at hfits
    exact h.grows.counts (tally.counted h.live b hb hfits)

theorem Tally.consequences (tally : t.Tally p inputs q) (h : t.Consequences q rs q₁)
    (unclaimed : t.Unclaimed q) : t.Tally p inputs q₁ := by
  induction h with
  | none => exact tally
  | more first _ ih => exact ih (tally.consequence first unclaimed) (first.steady unclaimed).1

end Term

end CommitteeConsensus
