import CommitteeConsensus.Proofs.Soundness

/-!
# What a decision carries

A term decides on what its log holds when it counts: commits that came early, in time
or late, and its own one.  The certificate takes a quorum of them, in the order of
their senders.  Here it is shown that each of them counts for the decided block, and
that the certificate is accepted by whoever verifies as the term itself does.
-/

namespace CommitteeConsensus

namespace Term

/-- A decision fits together, and its commits are sound. -/
structure Certifies (t : Term) (r : Reading) (d : Decision) : Prop where
  height : d.height = t.height
  proofHeight : d.proof.height = t.height
  view : d.proof.view = d.view
  fits : r.fits d.block d.proof.blockHash
  length : d.proof.commits.length = t.committee.quorum
  final : t.committee.Final r.good r.share t.height d.proof.view d.proof.blockHash d.proof.commits
  seedSignature : d.proof.seedSignature = t.keys.aggregate t.height (seedShares d.proof.commits)

variable {t : Term} {r : Reading} {p q : Progress} {rs : List Request} {d : Decision}

/-- No input decides by itself. -/
theorem Act.not_decides {stimulus : Stimulus} (h : t.Act stimulus p rs q) : .decide d ∉ rs := by
  intro hd
  cases h with
  | ignore | release | keepPrepare | keepCommit | keepViewChange =>
    exact absurd hd List.not_mem_nil
  | start => rcases mem_start hd with h | ⟨-, h⟩ <;> exact absurd h (by simp)
  | examine => exact absurd (List.mem_singleton.1 hd) (by simp)
  | follow => simp at hd
  | approve =>
    rcases List.mem_cons.1 hd with h | h
    · exact absurd h (by simp)
    · exact absurd (mem_voteFor h).2 (by simp [broadcast])
  | propose | openPending =>
    rcases List.mem_cons.1 hd with h | h
    · exact absurd h (by simp [broadcast])
    · exact absurd (mem_install h) (by simp)
  | watch => exact absurd (List.mem_singleton.1 hd) (by simp)
  | elapse =>
    rcases List.mem_cons.1 hd with h | h
    · exact absurd h (by simp)
    · split at h
      · exact absurd h List.not_mem_nil
      · exact absurd (List.mem_singleton.1 h) (by simp)

/-- What is decided, and when. -/
theorem Consequence.decides (h : t.Consequence p rs q) (hd : .decide d ∈ rs) :
    ∃ m, p.log.prePrepare? t.height p.view = some m ∧
      t.committee.quorum ≤ (p.log.commitsFor t.height p.view m.blockHash).length ∧
      d = ⟨t.height, p.view, m.block,
        { height := t.height, view := p.view, blockHash := m.blockHash
          commits := (p.log.commitsFor t.height p.view m.blockHash).take t.committee.quorum
          seedSignature := t.keys.aggregate t.height (seedShares
            ((p.log.commitsFor t.height p.view m.blockHash).take t.committee.quorum)) }⟩ := by
  cases h with
  | repropose =>
    rcases List.mem_append.1 hd with h | h
    · exact absurd (mem_arming h) (by simp)
    · rcases List.mem_cons.1 h with h | h
      · exact absurd h (by simp [broadcast])
      · exact absurd (mem_install h) (by simp)
  | await =>
    rcases List.mem_append.1 hd with h | h
    · exact absurd (mem_arming h) (by simp)
    · exact absurd (List.mem_singleton.1 h) (by simp)
  | commit => exact absurd (mem_commitTo hd).2 (by simp [broadcast])
  | @decide m phase proposal quorum =>
    simp only [List.mem_cons, reduceCtorEq, Request.decide.injEq, List.not_mem_nil, or_false,
      false_or] at hd
    exact ⟨m, proposal, quorum, hd⟩

/-- What is decided is certified by the log. -/
theorem Consequence.certifies (h : t.Consequence p rs q) (placed : t.Placed p)
    (sound : t.SoundLog r p) (hd : .decide d ∈ rs) : t.Certifies r d := by
  obtain ⟨m, proposal, quorum, rfl⟩ := h.decides hd
  obtain ⟨hmem, hheight, hview⟩ := MessageLog.of_prePrepare?_eq_some proposal
  have hcounted : ∀ s ∈ (p.log.commitsFor t.height p.view m.blockHash).take t.committee.quorum,
      s ∈ p.log.commits ∧ (s.content.height = t.height ∧ s.content.view = p.view) ∧
        s.content.blockHash = m.blockHash := fun s hs =>
    MessageLog.mem_commitsFor.1 (List.mem_of_mem_take hs)
  have hlength : ((p.log.commitsFor t.height p.view m.blockHash).take
      t.committee.quorum).length = t.committee.quorum := by
    rw [List.length_take]
    exact Nat.min_eq_left quorum
  exact {
    height := rfl
    proofHeight := rfl
    view := rfl
    fits := (sound.proposals m hmem).fits
    length := hlength
    final := {
      enough := Nat.le_of_eq hlength.symm
      nodup := (MessageLog.nodup_commitsFor placed.wellFormed).sublist
        ((List.take_sublist _ _).map _)
      committed := fun s hs => sound.commits s (hcounted s hs).1
      agree := fun s hs => ⟨(hcounted s hs).2.1.2, (hcounted s hs).2.2⟩ }
    seedSignature := rfl }

/-- **Every decision is certified**, by what the term holds when it decides. -/
theorem Trace.certifies {past : Past} (h : t.Trace past) (trusts : t.Trusts r past)
    (hd : .decide d ∈ past.requests) : t.Certifies r d := by
  induction h with
  | fresh => exact absurd hd List.not_mem_nil
  | act trace permits rest act ih =>
    rcases List.mem_append.1 hd with hd | hd
    · exact ih (trusts.before act.before) hd
    · exact absurd hd act.not_decides
  | consequence trace consequence ih =>
    have hbefore := trusts.before consequence.before
    rcases List.mem_append.1 hd with hd | hd
    · exact ih hbefore hd
    · exact consequence.certifies trace.placed (trace.sound hbefore).1 hd

/-- The certificate of a decision is accepted under all keys that verify, and add shares
up, as those of the term do. -/
theorem Certifies.acceptsBlockProof (h : t.Certifies t.reading d) {keys : Keys}
    (transfers : t.keys.Transfers keys)
    (aggregate : ∀ shares, keys.aggregate t.height shares = t.keys.aggregate t.height shares) :
    t.committee.acceptsBlockProof keys d.proof t.seed = true := by
  rw [Committee.acceptsBlockProof_iff, h.proofHeight, aggregate, ← h.seedSignature]
  exact ⟨h.final.imp (fun s _ => transfers.verify _ _ _)
    fun share member => transfers.verifySeed _ _ share member, rfl⟩

end Term

end CommitteeConsensus
