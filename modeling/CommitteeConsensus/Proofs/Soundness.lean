import CommitteeConsensus.Proofs.Standing

/-!
# Everything a term holds and sends is sound

A term checks what it is given under its own keys.  Whatever is concluded from its log
or from its messages needs more: that a signature verifies at someone else, that its
sender did sign, or that a block passes the check of someone else.  What exactly, is a
`Reading`.

If a reading can be trusted (`Term.Trusts`), that is, if it accepts what the term
itself accepts of its inputs and what the member signs, then everything that the term
has filed, waits for or sends is sound under this reading (`Trace.sound`): proposals
are their leaders' and are justified above the first view, votes and commits are
members', and the certificates in the member's own messages hold.

One reading is "verifies under these keys", the own ones or those of another member.  It
can be trusted where the two check alike (`Term.Peer`): they are in the same height,
with the same seed and committee, share the commitment check, and what verifies at the
one verifies at the other.  Another reading is "was signed by its sender", where
signatures cannot be forged.
-/

namespace CommitteeConsensus

/-- What counts as evidence. -/
structure Reading where
  /-- A part is signed by its sender. -/
  good : Part → Prop
  /-- A share of the seed is a member's. -/
  share : Signature → MemberId → Prop
  /-- A hash is the hash of a block. -/
  fits : Block → BlockHash → Prop

namespace Term

/-! ## What is sound -/

/-- A proposal that may be voted for: it is its leader's, and above the first view it is
justified. -/
structure Sanctioned (t : Term) (r : Reading) (m : PrePrepare) : Prop where
  proposed : t.committee.Proposed r.good t.height m.signed
  fits : r.fits m.block m.blockHash
  opened : m.view = 0 ∨
    ∃ votes, t.committee.Justified r.good t.height m.view votes ∧ Obliges votes m.blockHash

/-- The opening of a view is its leader's, with a proposal that the votes allow. -/
structure Opens (t : Term) (r : Reading) (m : NewView) : Prop where
  height_eq : m.signed.content.height = t.height
  sender_eq : m.signed.sender = t.committee.leader m.signed.content.view
  signed : r.good (m.signed.part .newView)
  view_eq : m.prePrepare.view = m.signed.content.view
  proposed : t.committee.Proposed r.good t.height m.prePrepare.signed
  fits : r.fits m.prePrepare.block m.prePrepare.blockHash
  justified : t.committee.Justified r.good t.height m.signed.content.view
    m.signed.content.confirmations
  obliges : Obliges m.signed.content.confirmations m.prePrepare.blockHash

/-- What is to be said of a message that a member sends. -/
def Vouched (t : Term) (r : Reading) : Message → Prop
  | .prePrepare m => m.view = 0 ∧ t.Sanctioned r m
  | .prepare s => t.committee.Voted r.good t.height s
  | .commit s => t.committee.Committed r.good r.share t.height s
  | .viewChange m => t.committee.Asked r.good t.height m.view m.signed ∧ m.Brings r.fits
  | .newView m => t.Opens r m

/-- Everything that is filed or waited for is sound. -/
structure SoundLog (t : Term) (r : Reading) (p : Progress) : Prop where
  proposals : ∀ m ∈ p.log.prePrepares, t.Sanctioned r m
  prepares : ∀ s ∈ p.log.prepares, t.committee.Voted r.good t.height s
  commits : ∀ s ∈ p.log.commits, t.committee.Committed r.good r.share t.height s
  viewChanges : ∀ m ∈ p.log.viewChanges,
    t.committee.Asked r.good t.height m.view m.signed ∧ m.Brings r.fits
  /-- A leader that waits for a block is free to propose any. -/
  pending : ∀ view votes, p.pendingNewView = some (view, votes) →
    t.committee.Justified r.good t.height view votes ∧
      (highestPreparedProof votes).bind (·.blockHash) = none

/-- Everything that is asked for is sound. -/
structure SoundRequests (t : Term) (r : Reading) (rs : List Request) : Prop where
  examined : ∀ m, .validateProposal m ∈ rs → t.Sanctioned r m
  sent : ∀ recipients m, .send recipients m ∈ rs → t.Vouched r m

/-- What makes a reading trustworthy to a term. -/
structure Trusts (t : Term) (r : Reading) (past : Past) : Prop where
  /-- What verified of a message was signed. -/
  received : ∀ m, .message m ∈ past.taken → ∀ part ∈ m.parts, part.content.height = t.height →
    Verified t.keys part → r.good part
  /-- The member signs what it signs. -/
  own : ∀ statement, past.Signs t.me statement → r.good (t.keys.part statement)
  /-- Shares that verified are good, and so is the own one. -/
  shares : ∀ s, .message (.commit s) ∈ past.taken →
    t.keys.verifySeed t.height t.seed s.content.seedShare s.sender = true →
      r.share s.content.seedShare s.sender
  ownShare : r.share (t.keys.signSeed t.height t.seed) t.me
  /-- Blocks that passed the check fit, and so do those that the host built. -/
  admitted : ∀ m, .message m ∈ past.taken → ∀ block hash, m.Carries block hash →
    t.Fits block hash → r.fits block hash
  built : ∀ view block hash, .event (.proposalBuilt view (some (block, hash))) ∈ past.taken →
    r.fits block hash

variable {t : Term} {r : Reading}

/-- The reading that asks for nothing but signatures. -/
def signing (good : Part → Prop) : Reading := ⟨good, fun _ _ => True, fun _ _ => True⟩

/-- Where nothing but signatures matters, it is enough that what verified was signed, and that
the member signs what it signs. -/
theorem trusts_signing {good : Part → Prop} {past : Past}
    (received : ∀ m, .message m ∈ past.taken → ∀ part ∈ m.parts, part.content.height = t.height →
      Verified t.keys part → good part)
    (own : ∀ statement, past.Signs t.me statement → good (t.keys.part statement)) :
    t.Trusts (signing good) past where
  received := received
  own := own
  shares _ _ _ := trivial
  ownShare := trivial
  admitted _ _ _ _ _ _ := trivial
  built _ _ _ _ := trivial

/-- What is trusted now could be trusted before. -/
theorem Trusts.before {past later : Past} (h : t.Trusts r later) (hb : past.Before later) :
    t.Trusts r past where
  received m hm := h.received m (hb.taken hm)
  own statement hs := h.own statement (hb.signs hs)
  shares s hs := h.shares s (hb.taken hs)
  ownShare := h.ownShare
  admitted m hm := h.admitted m (hb.taken hm)
  built view block hash hm := h.built view block hash (hb.taken hm)

/-- What is signed for a message that was sent. -/
theorem Trusts.sent {past : Past} (h : t.Trusts r past) {recipients : List MemberId}
    {m : Message} (hm : .send recipients m ∈ past.requests) (statement : Statement)
    (hs : statement ∈ m.authored) : r.good (t.keys.part statement) :=
  h.own statement (Or.inl ⟨m, ⟨recipients, hm⟩, hs⟩)

variable {past : Past} {p : Progress}

/-! ## Requests -/

theorem SoundRequests.append {rs rs' : List Request} (h : t.SoundRequests r rs)
    (h' : t.SoundRequests r rs') : t.SoundRequests r (rs ++ rs') where
  examined m hm := (List.mem_append.1 hm).elim (h.examined m) (h'.examined m)
  sent recipients m hm :=
    (List.mem_append.1 hm).elim (h.sent recipients m) (h'.sent recipients m)

/-- Requests that are neither messages nor proposals. -/
theorem soundRequests_of_silent {rs : List Request}
    (h : ∀ q ∈ rs, (∃ view, q = .scheduleElection view) ∨ (∃ view, q = .buildProposal view) ∨
      q = .cancelElection ∨ ∃ d, q = .decide d) : t.SoundRequests r rs := by
  refine ⟨fun m hm => ?_, fun recipients m hm => ?_⟩ <;>
    rcases h _ hm with ⟨_, h⟩ | ⟨_, h⟩ | h | ⟨_, h⟩ <;> exact absurd h (by simp)

theorem soundRequests_nil : t.SoundRequests r [] :=
  soundRequests_of_silent fun _ hq => absurd hq List.not_mem_nil

/-- A message to others, which is vouched for. -/
theorem soundRequests_broadcast {m : Message} {rs : List Request} (vouched : t.Vouched r m)
    (h : t.SoundRequests r rs) : t.SoundRequests r (t.broadcast m :: rs) := by
  have hsingle : t.SoundRequests r [t.broadcast m] := by
    refine ⟨fun b hb => ?_, fun recipients b hb => ?_⟩
    · exact absurd (List.mem_singleton.1 hb) (by simp [broadcast])
    · obtain ⟨-, rfl⟩ := Request.send.inj (List.mem_singleton.1 hb)
      exact vouched
  exact hsingle.append h

theorem soundRequests_schedule {view : View} {rs : List Request} (h : t.SoundRequests r rs) :
    t.SoundRequests r (.scheduleElection view :: rs) := by
  have hsingle : t.SoundRequests r [.scheduleElection view] :=
    soundRequests_of_silent fun q hq => Or.inl ⟨view, List.mem_singleton.1 hq⟩
  exact hsingle.append h

theorem soundRequests_validate {m : PrePrepare} {rs : List Request}
    (sanctioned : t.Sanctioned r m) (h : t.SoundRequests r rs) :
    t.SoundRequests r (.validateProposal m :: rs) := by
  have hsingle : t.SoundRequests r [.validateProposal m] := by
    refine ⟨fun b hb => ?_, fun recipients b hb => absurd (List.mem_singleton.1 hb) (by simp)⟩
    rw [Request.validateProposal.inj (List.mem_singleton.1 hb)]
    exact sanctioned
  exact hsingle.append h

/-! ## What a member writes -/

section Own

theorem mem_of_member (member : t.observer = false) : t.me ∈ t.committee.members := by
  simpa [observer] using member

theorem own_voted {view : View} {hash : BlockHash} (member : t.observer = false)
    (follows : t.leads view = false)
    (good : r.good (t.keys.part (.prepare ⟨t.height, view, hash⟩))) :
    t.committee.Voted r.good t.height (t.keys.prepare t.height view hash) := by
  refine ⟨rfl, mem_of_member member, fun heq => ?_, good⟩
  have hleads : t.leads view = true := t.leads_iff.2 ⟨member, heq.symm⟩
  exact absurd (hleads.symm.trans follows) (by simp)

theorem SoundLog.withPrepare (h : t.SoundLog r p) {s : Signed PrepareContent}
    (voted : t.committee.Voted r.good t.height s) :
    t.SoundLog r { p with log := p.log.withPrepare s } := by
  refine ⟨?_, fun b hb => ?_, ?_, ?_, h.pending⟩
  · rw [MessageLog.prePrepares_withPrepare]
    exact h.proposals
  · rcases MessageLog.mem_withPrepare hb with rfl | hb
    · exact voted
    · exact h.prepares b hb
  · rw [MessageLog.commits_withPrepare]
    exact h.commits
  · rw [MessageLog.viewChanges_withPrepare]
    exact h.viewChanges

theorem SoundLog.withCommit (h : t.SoundLog r p) {s : Signed CommitContent}
    (committed : t.committee.Committed r.good r.share t.height s) :
    t.SoundLog r { p with log := p.log.withCommit s } := by
  refine ⟨?_, ?_, fun b hb => ?_, ?_, h.pending⟩
  · rw [MessageLog.prePrepares_withCommit]
    exact h.proposals
  · rw [MessageLog.prepares_withCommit]
    exact h.prepares
  · rcases MessageLog.mem_withCommit hb with rfl | hb
    · exact committed
    · exact h.commits b hb
  · rw [MessageLog.viewChanges_withCommit]
    exact h.viewChanges

/-- The vote for a proposal, in the log and on its way. -/
theorem SoundLog.voteFor (h : t.SoundLog r p) {m : PrePrepare} (trusts : t.Trusts r past)
    (asked : (t.voteFor p m).requests ⊆ past.requests) :
    t.SoundLog r (t.voteFor p m).progress ∧ t.SoundRequests r (t.voteFor p m).requests := by
  rcases t.voteFor_cases p m with hquiet | ⟨⟨member, follows⟩, hvote⟩
  · rw [hquiet]
    exact ⟨h, soundRequests_of_silent fun _ hq => absurd hq List.not_mem_nil⟩
  · have hvoted : t.committee.Voted r.good t.height
        (t.keys.prepare t.height m.view m.blockHash) := by
      have hsent : t.broadcast (.prepare (t.keys.prepare t.height m.view m.blockHash)) ∈
          past.requests := asked (by rw [hvote]; exact List.mem_cons_self)
      exact own_voted member follows (trusts.sent hsent _ List.mem_cons_self)
    rw [hvote]
    exact ⟨h.withPrepare hvoted, soundRequests_broadcast hvoted soundRequests_nil⟩

/-- The commit to a block, in the log and on its way. -/
theorem SoundLog.commitTo (h : t.SoundLog r p) {hash : BlockHash} (trusts : t.Trusts r past)
    (asked : (t.commitTo p hash).requests ⊆ past.requests) :
    t.SoundLog r (t.commitTo p hash).progress ∧ t.SoundRequests r (t.commitTo p hash).requests := by
  rcases t.commitTo_cases p hash with hquiet | ⟨member, hcommit⟩
  · rw [hquiet]
    exact ⟨h, soundRequests_of_silent fun _ hq => absurd hq List.not_mem_nil⟩
  · have hcommitted : t.committee.Committed r.good r.share t.height
        (t.keys.commit t.height p.view hash t.seed) := by
      have hsent : t.broadcast (.commit (t.keys.commit t.height p.view hash t.seed)) ∈
          past.requests := asked (by rw [hcommit]; exact List.mem_cons_self)
      exact ⟨rfl, mem_of_member member, trusts.sent hsent _ List.mem_cons_self, trusts.ownShare⟩
    rw [hcommit]
    exact ⟨h.withCommit hcommitted, soundRequests_broadcast hcommitted soundRequests_nil⟩

theorem own_proposed {view : View} {block : Block} {hash : BlockHash} (leads : t.leads view = true)
    (good : r.good (t.keys.part (.prePrepare ⟨t.height, view, hash⟩))) :
    t.committee.Proposed r.good t.height (t.keys.prePrepare t.height view block hash).signed :=
  ⟨rfl, (t.leads_iff.1 leads).2.symm, good⟩

/-- What was prepared goes along with a request for a higher view as a proof that holds,
with its block. -/
theorem SoundLog.own_asked (h : t.SoundLog r p) (placed : t.Placed p)
    (solo : t.committee.quorum = 1 → p.log.prePrepares = []) (member : t.observer = false)
    (good : r.good (t.keys.part (.viewChange (t.nextRequest p).signed.content))) :
    t.committee.Asked r.good t.height (p.view + 1) (t.nextRequest p).signed ∧
      (t.nextRequest p).Brings r.fits := by
  rcases hprepared : p.log.prepared? t.height t.committee.quorum with _ | proof
  · have hproof : (t.nextRequest p).signed.content.preparedProof = none := by
      show (p.log.prepared? t.height t.committee.quorum).map _ = none
      rw [hprepared]
      rfl
    refine ⟨⟨rfl, rfl, mem_of_member member, good, fun q hq => ?_⟩, fun hash hq => ?_⟩
    · exact absurd (hproof.symm.trans hq) (by simp)
    · rw [hproof] at hq
      exact absurd hq (by simp)
  · have hproof : (t.nextRequest p).signed.content.preparedProof =
        some ⟨some proof.prePrepare.signed, proof.prepares⟩ := by
      show (p.log.prepared? t.height t.committee.quorum).map _ = _
      rw [hprepared]
      rfl
    have hblock : (t.nextRequest p).block = some proof.prePrepare.block := by
      show (p.log.prepared? t.height t.committee.quorum).map _ = _
      rw [hprepared]
      rfl
    obtain ⟨⟨hmem, hheight⟩, ⟨htake, henough⟩, -⟩ :=
      MessageLog.prepared?_eq_some placed.wellFormed hprepared
    have hlength : proof.prepares.length = t.committee.quorum - 1 := by
      rw [htake, List.length_take]
      exact Nat.min_eq_left henough
    have hvotes : ∀ s ∈ proof.prepares, s ∈ p.log.preparesFor t.height proof.prePrepare.view
        proof.prePrepare.blockHash := fun s hs => List.mem_of_mem_take (htake ▸ hs)
    have hsanctioned := h.proposals _ hmem
    refine ⟨⟨rfl, rfl, mem_of_member member, good, fun q hq => Or.inr ?_⟩, fun hash hq => ?_⟩
    · obtain rfl := Option.some.inj (hproof.symm.trans hq)
      refine ⟨proof.prePrepare.signed, rfl, fun hnil => ?_,
        Nat.lt_succ_of_le (placed.le _ hmem), ?_⟩
      · -- without any votes the member would be alone, and through with its proposal
        have hzero : proof.prepares.length = 0 := List.length_eq_zero_iff.2 hnil
        have hpos := t.committee.quorum_pos
        rw [solo (by omega)] at hmem
        exact absurd hmem List.not_mem_nil
      · refine ⟨hsanctioned.proposed, Nat.le_of_eq hlength.symm, ?_, fun s hs => ?_, fun s hs => ?_⟩
        · show (proof.prepares.map _).Nodup
          rw [htake]
          exact (MessageLog.nodup_preparesFor placed.wellFormed).sublist
            ((List.take_sublist _ _).map _)
        · exact h.prepares s (MessageLog.mem_preparesFor.1 (hvotes s hs)).1
        · obtain ⟨-, ⟨-, hview⟩, hhash⟩ := MessageLog.mem_preparesFor.1 (hvotes s hs)
          exact ⟨hview, hhash⟩
    · rw [hproof] at hq
      obtain rfl : proof.prePrepare.blockHash = hash := Option.some.inj hq
      exact ⟨proof.prePrepare.block, hblock, hsanctioned.fits⟩

/-- The opening of a view with a block that the votes allow. -/
theorem own_opens {view : View} {block : Block} {hash : BlockHash} {votes : List Confirmation}
    (leads : t.leads view = true) (trusts : t.Trusts r past)
    (asked : t.broadcast (.newView (t.opening view block hash votes)) ∈ past.requests)
    (fits : r.fits block hash) (justified : t.committee.Justified r.good t.height view votes)
    (obliges : Obliges votes hash) : t.Opens r (t.opening view block hash votes) where
  height_eq := rfl
  sender_eq := (t.leads_iff.1 leads).2.symm
  signed := trusts.sent asked _ List.mem_cons_self
  view_eq := rfl
  proposed := own_proposed leads (trusts.sent asked _ (List.mem_cons_of_mem _ List.mem_cons_self))
  fits := fits
  justified := justified
  obliges := obliges

/-- The proposal in an opening may be voted for. -/
theorem Opens.sanctioned {m : NewView} (h : t.Opens r m) : t.Sanctioned r m.prePrepare :=
  ⟨h.proposed, h.fits, Or.inr ⟨_, by rw [h.view_eq]; exact h.justified, h.obliges⟩⟩

end Own

/-! ## Acts -/

theorem soundRequests_install {m : PrePrepare} : t.SoundRequests r (p.install m).requests :=
  soundRequests_of_silent fun _ hq => Or.inl ⟨_, mem_install hq⟩

theorem SoundLog.store (h : t.SoundLog r p) {m : PrePrepare} {log : MessageLog}
    (hlog : p.log.storePrePrepare? m = some log) (sanctioned : t.Sanctioned r m)
    (validating : Option View) (phase : Phase) :
    t.SoundLog r { p with validating, log, phase } := by
  obtain ⟨-, rfl⟩ := MessageLog.storePrePrepare?_eq_some.1 hlog
  refine ⟨fun b hb => ?_, h.prepares, h.commits, h.viewChanges, h.pending⟩
  rcases (MessageLog.mem_storePrePrepare? hlog).1 hb with rfl | hb
  · exact sanctioned
  · exact h.proposals b hb

theorem SoundLog.install (h : t.SoundLog r p) {m : PrePrepare} (sanctioned : t.Sanctioned r m) :
    t.SoundLog r (p.install m).progress := by
  rw [Progress.install]
  split
  · exact h
  · next log hlog => exact h.store hlog sanctioned p.validating .collectingPrePrepare

/-- What is sound depends on the log, and on what the leader waits for. -/
theorem SoundLog.congr {q : Progress} (h : t.SoundLog r p) (log : q.log = p.log)
    (pending : q.pendingNewView = none ∨ q.pendingNewView = p.pendingNewView) :
    t.SoundLog r q := by
  refine ⟨?_, ?_, ?_, ?_, fun view votes hp => ?_⟩
  · rw [log]
    exact h.proposals
  · rw [log]
    exact h.prepares
  · rw [log]
    exact h.commits
  · rw [log]
    exact h.viewChanges
  · rcases pending with hnone | hsame
    · exact absurd (hnone.symm.trans hp) (by simp)
    · exact h.pending view votes (hsame.symm.trans hp)

theorem SoundLog.reach (h : t.SoundLog r p) (view : View) : t.SoundLog r (p.reach view) := by
  by_cases hlt : p.view < view
  · rw [Progress.reach_of_lt p hlt]
    exact h.congr rfl (Or.inl rfl)
  · rwa [Progress.reach_of_not_lt p hlt]

theorem SoundLog.withViewChange (h : t.SoundLog r p) {m : ViewChange}
    (asked : m ∈ (p.log.withViewChange m).viewChanges →
      t.committee.Asked r.good t.height m.view m.signed ∧ m.Brings r.fits) :
    t.SoundLog r { p with log := p.log.withViewChange m } := by
  refine ⟨?_, ?_, ?_, fun b hb => ?_, h.pending⟩
  · rw [MessageLog.prePrepares_withViewChange]
    exact h.proposals
  · rw [MessageLog.prepares_withViewChange]
    exact h.prepares
  · rw [MessageLog.commits_withViewChange]
    exact h.commits
  · rcases MessageLog.mem_withViewChange hb with rfl | hmem
    · exact asked hb
    · exact h.viewChanges b hmem

/-- A proposal of the first view that passed the checks. -/
theorem Trusts.sanctioned (trusts : t.Trusts r past) {m : PrePrepare}
    (taken : .message (.prePrepare m) ∈ past.taken) (admits : t.admitsProposal m m.view = true)
    (first : m.view = 0) : t.Sanctioned r m := by
  obtain ⟨⟨-, hproposed⟩, hfits⟩ := admitsProposal_iff.1 admits
  exact ⟨hproposed.imp (trusts.received _ taken _ List.mem_cons_self),
    trusts.admitted _ taken _ _ ⟨rfl, rfl⟩ hfits, Or.inl first⟩

/-- The proposal of an opening that passed the checks. -/
theorem Trusts.sanctioned_of_newView (trusts : t.Trusts r past) {n : NewView}
    (taken : .message (.newView n) ∈ past.taken) (admits : t.admitsNewView n = true) :
    t.Sanctioned r n.prePrepare := by
  obtain ⟨⟨-, hadm⟩, hjustified, hobliges⟩ := admitsNewView_iff.1 admits
  obtain ⟨⟨hview, hproposed⟩, hfits⟩ := admitsProposal_iff.1 hadm
  have hheard := trusts.received _ taken
  refine ⟨hproposed.imp (hheard _ (List.mem_cons_of_mem _ List.mem_cons_self)),
    trusts.admitted _ taken _ _ ⟨rfl, rfl⟩ hfits, Or.inr ⟨n.signed.content.confirmations, ?_,
      hobliges⟩⟩
  rw [hview]
  exact hjustified.imp fun part hp =>
    hheard part (List.mem_cons_of_mem _ (List.mem_cons_of_mem _ hp))

/-- A request for a view that passed the checks. -/
theorem Trusts.asked (trusts : t.Trusts r past) {m : ViewChange}
    (taken : .message (.viewChange m) ∈ past.taken) (admits : t.admitsViewChange m = true) :
    t.committee.Asked r.good t.height m.view m.signed ∧ m.Brings r.fits := by
  obtain ⟨hasked, hbrings⟩ := admitsViewChange_iff.1 admits
  refine ⟨hasked.imp (trusts.received _ taken), fun hash hh => ?_⟩
  obtain ⟨block, hblock, hfits⟩ := hbrings hash hh
  exact ⟨block, hblock, trusts.admitted _ taken _ _ ⟨hblock, hh⟩ hfits⟩

/-- The own request for the next view is signed if it is filed. -/
theorem SoundLog.elapsed (h : t.SoundLog r p) (trusts : t.Trusts r past)
    (progress : past.progress = t.elapsed p)
    (asked : r.good (t.keys.part (.viewChange (t.nextRequest p).signed.content)) →
      t.committee.Asked r.good t.height (p.view + 1) (t.nextRequest p).signed ∧
        (t.nextRequest p).Brings r.fits) : t.SoundLog r (t.elapsed p) := by
  rw [Term.elapsed, ← p.log_reach (p.view + 1)] at progress ⊢
  refine (h.reach _).withViewChange fun hmem => asked (trusts.own _ (Or.inr ⟨_, ?_, rfl, rfl⟩))
  rw [progress]
  exact hmem

/-- An act leaves the log sound, and asks for nothing unsound. -/
theorem Act.sound {stimulus : Stimulus} {rs : List Request} {q : Progress} (trace : t.Trace past)
    (permits : t.Permits past stimulus) (rest : t.AtRest past.progress)
    (trusts : t.Trusts r (past.acted stimulus rs q)) (h : t.SoundLog r past.progress)
    (hr : t.SoundRequests r past.requests) (act : t.Act stimulus past.progress rs q) :
    t.SoundLog r q ∧ t.SoundRequests r rs := by
  have hplaced := trace.placed
  have hstanding := trace.standing
  have hsolo : t.committee.quorum = 1 → t.observer = false → past.progress.phase ≠ .committed →
      past.progress.log.prePrepares = [] := fun solo member live =>
    List.eq_nil_iff_forall_not_mem.2 fun b hb =>
      live (committed_of_solo solo member trace rest hb)
  have htaken : stimulus ∈ (past.acted stimulus rs q).taken :=
    List.mem_append_right _ List.mem_cons_self
  have hasked : rs ⊆ (past.acted stimulus rs q).requests := List.subset_append_right _ _
  have hprogress : (past.acted stimulus rs q).progress = q := rfl
  generalize past.acted stimulus rs q = later at trusts htaken hasked hprogress
  generalize past.progress = p at act h hplaced hstanding hsolo
  cases act with
  | ignore => exact ⟨h, soundRequests_nil⟩
  | start =>
    refine ⟨h, soundRequests_of_silent fun q hq => ?_⟩
    rcases mem_start hq with hq | ⟨-, hq⟩
    · exact Or.inl ⟨_, hq⟩
    · exact Or.inr (Or.inl ⟨_, hq⟩)
  | @examine _ m view phase idle vacant admits =>
    have hfirst : m.view = 0 := by
      rw [view] at vacant ⊢
      exact hstanding.view_eq_zero hplaced phase vacant
    exact ⟨h.congr rfl (Or.inr rfl),
      soundRequests_validate (trusts.sanctioned htaken admits hfirst) soundRequests_nil⟩
  | @follow _ n live view idle admits =>
    have hsanctioned := trusts.sanctioned_of_newView htaken admits
    exact ⟨(h.reach n.signed.content.view).congr rfl (Or.inr rfl),
      soundRequests_schedule (soundRequests_validate hsanctioned soundRequests_nil)⟩
  | release => exact ⟨h.congr rfl (Or.inr rfl), soundRequests_nil⟩
  | @approve _ m log live view validating stored =>
    obtain ⟨hlog, hvote⟩ := (h.store stored (hr.examined m permits) none
      .collectingPrePrepare).voteFor (m := m) trusts
      fun q hq => hasked (List.mem_cons_of_mem _ hq)
    exact ⟨hlog, soundRequests_schedule hvote⟩
  | @propose _ block hash live leads pending view vacant =>
    have hsent := trusts.sent (hasked List.mem_cons_self)
    have hsanctioned : t.Sanctioned r (t.keys.prePrepare t.height p.view block hash) :=
      ⟨own_proposed leads (hsent _ List.mem_cons_self), trusts.built _ _ _ htaken, Or.inl view⟩
    exact ⟨h.install hsanctioned,
      soundRequests_broadcast ⟨view, hsanctioned⟩ soundRequests_install⟩
  | @openPending _ block hash votes live leads pending =>
    obtain ⟨hjustified, hfree⟩ := h.pending _ votes pending
    have hopens : t.Opens r (t.opening p.view block hash votes) :=
      own_opens leads trusts (hasked List.mem_cons_self) (trusts.built _ _ _ htaken) hjustified
        fun b hb => absurd (hfree.symm.trans hb) (by simp)
    have hforgot : t.SoundLog r { p with pendingNewView := none } := h.congr rfl (Or.inl rfl)
    exact ⟨hforgot.install hopens.sanctioned, soundRequests_broadcast hopens soundRequests_install⟩
  | watch =>
    exact ⟨h.reach _, soundRequests_schedule soundRequests_nil⟩
  | elapse live member =>
    have hown := h.own_asked hplaced (fun solo => hsolo solo member live) member
    refine ⟨h.elapsed trusts hprogress hown, soundRequests_schedule ⟨fun b hb => ?_,
      fun recipients b hb => ?_⟩⟩
    · split at hb
      · exact absurd hb List.not_mem_nil
      · exact absurd (List.mem_singleton.1 hb) (by simp)
    · -- the own request is signed if it is sent
      have hsent := hasked (List.mem_cons_of_mem _ hb)
      split at hb
      · exact absurd hb List.not_mem_nil
      · obtain ⟨-, rfl⟩ := Request.send.inj (List.mem_singleton.1 hb)
        exact hown (trusts.sent hsent _ List.mem_cons_self)
  | @keepPrepare _ s live mem height current near sender fits verifies first =>
    have hvoted : t.committee.Voted r.good t.height s :=
      ⟨height, mem, sender, trusts.received _ htaken _ List.mem_cons_self height verifies⟩
    exact ⟨h.withPrepare hvoted, soundRequests_nil⟩
  | @keepCommit _ s live mem height current near fits verifies share first =>
    have hcommitted : t.committee.Committed r.good r.share t.height s :=
      ⟨height, mem, trusts.received _ htaken _ List.mem_cons_self height verifies,
        trusts.shares _ htaken share⟩
    exact ⟨h.withCommit hcommitted, soundRequests_nil⟩
  | @keepViewChange _ m log live current near leads admits stored =>
    rw [MessageLog.storeViewChange?_eq_some stored]
    exact ⟨h.withViewChange fun _ => trusts.asked htaken admits, soundRequests_nil⟩

/-! ## Consequences -/

theorem SoundLog.claim (h : t.SoundLog r p) (view : View) : t.SoundLog r (p.claim view) :=
  SoundLog.reach (p := { p with lastNewView := some view })
    ⟨h.proposals, h.prepares, h.commits, h.viewChanges, h.pending⟩ view

/-- The requests that make a leader take a view on justify it. -/
theorem SoundLog.justified (h : t.SoundLog r p) (placed : t.Placed p) {view : View}
    (claims : t.Claims p view) :
    t.committee.Justified r.good t.height view
      ((p.log.viewChangesFor t.height view).map (·.signed)) := by
  refine ⟨by rw [List.length_map]; exact claims.quorum, ?_, fun vote hvote => ?_⟩
  · rw [List.map_map]
    exact MessageLog.nodup_viewChangesFor placed.wellFormed
  · obtain ⟨m, hm, rfl⟩ := List.mem_map.1 hvote
    obtain ⟨hmem, -, hview⟩ := MessageLog.mem_viewChangesFor.1 hm
    exact hview ▸ (h.viewChanges m hmem).1

theorem soundRequests_arming {view : View} : t.SoundRequests r (arming p view) :=
  soundRequests_of_silent fun _ hq => Or.inl ⟨_, mem_arming hq⟩

/-- A consequence leaves the log sound, and asks for nothing unsound. -/
theorem Consequence.sound {rs : List Request} {q : Progress} (placed : t.Placed past.progress)
    (trusts : t.Trusts r (past.settled rs q)) (h : t.SoundLog r past.progress)
    (consequence : t.Consequence past.progress rs q) :
    t.SoundLog r q ∧ t.SoundRequests r rs := by
  have hasked : rs ⊆ (past.settled rs q).requests := List.subset_append_right _ _
  generalize past.settled rs q = later at trusts hasked
  generalize past.progress = p at consequence h placed
  have hbrings : ∀ view, ∀ m ∈ p.log.viewChangesFor t.height view, m.Brings r.fits :=
    fun view m hm => (h.viewChanges m (MessageLog.mem_viewChangesFor.1 hm).1).2
  cases consequence with
  | @repropose view block hash claims obliged =>
    obtain ⟨hhighest, m, hm, hproof, hblock⟩ := reproposal_eq_some obliged
    obtain ⟨block', hblock', hfits⟩ := hbrings view m hm hash hproof
    obtain rfl := Option.some.inj (hblock.symm.trans hblock')
    have hopens : t.Opens r (t.opening view block hash
        ((p.log.viewChangesFor t.height view).map (·.signed))) :=
      own_opens claims.leads trusts (hasked (List.mem_append_right _ List.mem_cons_self)) hfits
        (h.justified placed claims) fun b hb => Option.some.inj (hhighest.symm.trans hb)
    exact ⟨(h.claim view).install hopens.sanctioned,
      soundRequests_arming.append (soundRequests_broadcast hopens soundRequests_install)⟩
  | @await view claims free =>
    have hclaim := h.claim view
    refine ⟨⟨hclaim.proposals, hclaim.prepares, hclaim.commits, hclaim.viewChanges,
      fun w votes hp => ?_⟩, soundRequests_arming.append (soundRequests_of_silent fun q hq =>
        Or.inr (Or.inl ⟨view, List.mem_singleton.1 hq⟩))⟩
    obtain ⟨rfl, rfl⟩ := Prod.mk.inj (Option.some.inj hp)
    exact ⟨h.justified placed claims, highest_of_reproposal_eq_none free (hbrings view)⟩
  | commit =>
    exact SoundLog.commitTo (p := { p with phase := .prepared })
      ⟨h.proposals, h.prepares, h.commits, h.viewChanges, h.pending⟩ trusts hasked
  | decide =>
    refine ⟨⟨h.proposals, h.prepares, h.commits, h.viewChanges, h.pending⟩,
      soundRequests_of_silent fun q hq => ?_⟩
    rcases List.mem_cons.1 hq with hq | hq
    · exact Or.inr (Or.inr (Or.inl hq))
    · exact Or.inr (Or.inr (Or.inr ⟨_, List.mem_singleton.1 hq⟩))

/-- **What a term holds and sends is sound** under every reading that it can trust. -/
theorem Trace.sound (h : t.Trace past) (trusts : t.Trusts r past) :
    t.SoundLog r past.progress ∧ t.SoundRequests r past.requests := by
  induction h with
  | fresh =>
    exact ⟨⟨fun _ hm => absurd hm List.not_mem_nil, fun _ hm => absurd hm List.not_mem_nil,
      fun _ hm => absurd hm List.not_mem_nil, fun _ hm => absurd hm List.not_mem_nil,
      fun _ _ hp => absurd hp (by simp [Past.fresh, Progress.initial])⟩, soundRequests_nil⟩
  | act trace permits rest act ih =>
    obtain ⟨hlog, hrequests⟩ := ih (trusts.before act.before)
    obtain ⟨hlog', hrequests'⟩ := act.sound trace permits rest trusts hlog hrequests
    exact ⟨hlog', hrequests.append hrequests'⟩
  | consequence trace consequence ih =>
    obtain ⟨hlog, hrequests⟩ := ih (trusts.before consequence.before)
    obtain ⟨hlog', hrequests'⟩ := consequence.sound trace.placed trusts hlog
    exact ⟨hlog', hrequests.append hrequests'⟩

/-- Everything that is filed is of the term's height. -/
theorem Trace.height_of_files {m : Message} (h : t.Trace past)
    (filed : past.progress.log.Files m) : m.height = t.height := by
  have htrusts : t.Trusts (signing fun _ => True) past :=
    trusts_signing (fun _ _ _ _ _ _ => trivial) fun _ _ => trivial
  have hsound := (h.sound htrusts).1
  cases m with
  | prePrepare m => exact (hsound.proposals m filed).proposed.height_eq
  | prepare s => exact (hsound.prepares s filed).height_eq
  | commit s => exact (hsound.commits s filed).height_eq
  | viewChange m => exact (hsound.viewChanges m filed).1.height_eq
  | newView m => exact filed.elim

end Term

/-! ## From one reading to another -/

/-- Whatever is evidence under one reading is evidence under another. -/
structure Reading.Implies (r r' : Reading) : Prop where
  good : ∀ part, r.good part → r'.good part
  share : ∀ share member, r.share share member → r'.share share member
  fits : ∀ block hash, r.fits block hash → r'.fits block hash

namespace Term

variable {t other : Term} {r r' : Reading}

theorem Sanctioned.imp {m : PrePrepare} (h : t.Sanctioned r m) (implies : r.Implies r') :
    t.Sanctioned r' m where
  proposed := h.proposed.imp fun _ => implies.good _
  fits := implies.fits _ _ h.fits
  opened := h.opened.imp_right fun ⟨votes, hjustified, hobliges⟩ =>
    ⟨votes, hjustified.imp fun part _ _ => implies.good part, hobliges⟩

theorem Vouched.imp {m : Message} (h : t.Vouched r m) (implies : r.Implies r') :
    t.Vouched r' m := by
  rcases m with m | s | s | m | m
  · obtain ⟨hview, hsanctioned⟩ := h
    exact ⟨hview, hsanctioned.imp implies⟩
  · exact Committee.Voted.imp h fun _ => implies.good _
  · have hcommitted : t.committee.Committed r.good r.share t.height s := h
    exact ⟨hcommitted.height_eq, hcommitted.mem, implies.good _ hcommitted.signed,
      implies.share _ _ hcommitted.share⟩
  · obtain ⟨hasked, hbrings⟩ := h
    exact ⟨hasked.imp fun part _ _ => implies.good part, hbrings.imp implies.fits⟩
  · obtain ⟨hh, hs, hsigned, hview, hproposed, hfits, hjustified, hobliges⟩ := h
    exact ⟨hh, hs, implies.good _ hsigned, hview, hproposed.imp fun _ => implies.good _,
      implies.fits _ _ hfits, hjustified.imp fun part _ _ => implies.good part, hobliges⟩

/-- Every part of what is vouched for is evidence. -/
theorem Vouched.parts {m : Message} (h : t.Vouched r m) : ∀ part ∈ m.parts, r.good part := by
  intro part hpart
  rcases m with m | s | s | m | m
  · rw [List.mem_singleton.1 hpart]
    exact h.2.proposed.signed
  · rw [List.mem_singleton.1 hpart]
    exact Committee.Voted.signed h
  · rw [List.mem_singleton.1 hpart]
    exact Committee.Committed.signed h
  · exact h.1.parts part hpart
  · have hopens : t.Opens r m := h
    rcases List.mem_cons.1 hpart with rfl | hpart
    · exact hopens.signed
    · rcases List.mem_cons.1 hpart with rfl | hpart
      · exact hopens.proposed.signed
      · exact hopens.justified.parts part hpart

/-- A block that comes with what is vouched for fits. -/
theorem Vouched.carries {m : Message} (h : t.Vouched r m) {block : Block} {hash : BlockHash}
    (hc : m.Carries block hash) : r.fits block hash := by
  rcases m with m | s | s | m | m
  · obtain ⟨rfl, rfl⟩ := hc
    exact h.2.fits
  · exact hc.elim
  · exact hc.elim
  · obtain ⟨hblock, hproof⟩ := hc
    obtain ⟨block', hblock', hfits⟩ := h.2 hash hproof
    rw [Option.some.inj (hblock.symm.trans hblock')]
    exact hfits
  · obtain ⟨rfl, rfl⟩ := hc
    exact Opens.fits h

/-- What is vouched for does not depend on who does it. -/
theorem Vouched.congr {m : Message} (h : t.Vouched r m) (height : other.height = t.height)
    (committee : other.committee = t.committee) : other.Vouched r m := by
  rcases m with m | s | s | m | m
  · obtain ⟨hview, hproposed, hfits, hopened⟩ := h
    rw [← height, ← committee] at hproposed hopened
    exact ⟨hview, hproposed, hfits, hopened⟩
  · have hvoted : t.committee.Voted r.good t.height s := h
    rwa [← height, ← committee] at hvoted
  · have hcommitted : t.committee.Committed r.good r.share t.height s := h
    rwa [← height, ← committee] at hcommitted
  · obtain ⟨hasked, hbrings⟩ := h
    rw [← height, ← committee] at hasked
    exact ⟨hasked, hbrings⟩
  · obtain ⟨hh, hs, hsigned, hview, hproposed, hfits, hjustified, hobliges⟩ := h
    rw [← height] at hh hproposed hjustified
    rw [← committee] at hs hproposed hjustified
    exact ⟨hh, hs, hsigned, hview, hproposed, hfits, hjustified, hobliges⟩

end Term

/-! ## What keys verify, as a reading -/

/-- What the owner signs verifies under its own keys. -/
structure Keys.Honest (keys : Keys) : Prop where
  sign : ∀ data, keys.verify data (keys.sign data) keys.me = true
  signSeed : ∀ height seed, keys.verifySeed height seed (keys.signSeed height seed) keys.me = true

/-- What verifies under some keys verifies under others: it takes no secret to verify. -/
structure Keys.Transfers (keys other : Keys) : Prop where
  verify : ∀ data signature member,
    keys.verify data signature member = true → other.verify data signature member = true
  verifySeed : ∀ height seed share member,
    keys.verifySeed height seed share member = true →
      other.verifySeed height seed share member = true

theorem Keys.Transfers.refl (keys : Keys) : keys.Transfers keys :=
  ⟨fun _ _ _ h => h, fun _ _ _ _ h => h⟩

namespace Term

/-- Another term accepts what a term accepts. -/
structure Peer (t other : Term) : Prop where
  height : other.height = t.height
  seed : other.seed = t.seed
  committee : other.committee = t.committee
  matchesHash : other.capabilities.matchesHash = t.capabilities.matchesHash
  keys : t.keys.Transfers other.keys

theorem Peer.refl (t : Term) : t.Peer t := ⟨rfl, rfl, rfl, rfl, .refl _⟩

/-- The host of a term builds blocks of its height, with their hashes. -/
def BuildsFitting (t : Term) (past : Past) : Prop :=
  ∀ view block hash, .event (.proposalBuilt view (some (block, hash))) ∈ past.taken →
    t.Fits block hash

/-- Evidence that a term accepts itself. -/
def reading (t : Term) : Reading where
  good := Verified t.keys
  share share member := t.keys.verifySeed t.height t.seed share member = true
  fits := t.Fits

variable {t other : Term} {past : Past}

theorem Peer.trusts (peer : t.Peer other) (honest : t.keys.Honest)
    (built : t.BuildsFitting past) : t.Trusts other.reading past where
  received _ _ part _ _ hv := peer.keys.verify _ _ _ hv
  own statement _ := peer.keys.verify _ _ _ (honest.sign statement.bytes)
  shares s _ h := by
    show other.keys.verifySeed other.height other.seed s.content.seedShare s.sender = true
    rw [peer.height, peer.seed]
    exact peer.keys.verifySeed _ _ _ _ h
  ownShare := by
    show other.keys.verifySeed other.height other.seed _ _ = true
    rw [peer.height, peer.seed]
    exact peer.keys.verifySeed _ _ _ _ (honest.signSeed _ _)
  admitted _ _ block hash _ h := by
    show block.height = other.height ∧ _
    rw [peer.height, peer.matchesHash]
    exact h
  built view block hash hm := by
    show block.height = other.height ∧ _
    rw [peer.height, peer.matchesHash]
    exact built view block hash hm

end Term

end CommitteeConsensus
