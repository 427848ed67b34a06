import CommitteeConsensus.Proofs.Orderly
import CommitteeConsensus.Proofs.Quorums

/-!
# Agreement at one height

Up to `f` members of a committee are faulty, and steps are taken in any order.  Still, no two
blocks are decided, and no two are proven, in any state that can be reached
(`Assembly.agreement`).  All that is asked for is that nobody forges what a correct member
signs.

## The argument

Every certificate names a quorum, and two quorums share a correct member.

* In one view, a correct member holds one proposal.  So a quorum of votes and a quorum
  of commits of one view are for one block.
* Say a quorum committed to a block in view `v` (`Assembly.Locked`).  By induction over
  the views above `v`, a correct member holds no other block there.  What it holds was
  justified by a quorum of requests, one of them from a correct member that is locked.
  The proof in that request is of view `v` at least, so the highest proof of all is, and
  what that proof certifies is the locked block: in view `v` by the first point, and in
  a view above it because a correct member holds it there.
-/

namespace CommitteeConsensus

namespace Assembly

variable {a : Assembly} {pasts : MemberId → Past}

/-! ## Quorums -/

/-- **Two quorums share a correct member.** -/
theorem exists_correct_of_quorums {l l' : List MemberId} (hl : l.Nodup) (hl' : l'.Nodup)
    (hsub : l ⊆ a.committee.members) (hsub' : l' ⊆ a.committee.members)
    (hq : a.committee.quorum ≤ l.length) (hq' : a.committee.quorum ≤ l'.length) :
    ∃ i, i ∈ l ∧ i ∈ l' ∧ a.correct i = true := by
  have few : (a.committee.members.filter fun i => !a.correct i).toFinset.card ≤
      maxFaulty a.committee.size := Nat.le_trans (List.toFinset_card_le _) a.few_faulty
  obtain ⟨i, ⟨hi, hi'⟩, hnot⟩ :=
    Committee.IsQuorum.exists_common ⟨hl, hsub, hq⟩ ⟨hl', hsub', hq'⟩ few
  refine ⟨i, hi, hi', ?_⟩
  by_contra hfaulty
  refine hnot (List.mem_toFinset.2 (List.mem_filter.2 ⟨hsub hi, ?_⟩))
  simpa using hfaulty

theorem exists_correct_of_quorum {l : List MemberId} (hl : l.Nodup)
    (hsub : l ⊆ a.committee.members) (hq : a.committee.quorum ≤ l.length) :
    ∃ i ∈ l, a.correct i = true := by
  obtain ⟨i, hi, -, hcorrect⟩ := exists_correct_of_quorums hl hl hsub hsub hq hq
  exact ⟨i, hi, hcorrect⟩

/-! ## Certificates of one view -/

/-- A participant holds a proposal. -/
def Holds (pasts : MemberId → Past) (i : MemberId) (view : View) (hash : BlockHash) : Prop :=
  (pasts i).progress.log.Holds view hash

theorem Reachable.holds_unique (h : a.Reachable pasts) {i : MemberId} {view : View}
    {hash hash' : BlockHash} (hh : Holds pasts i view hash) (hh' : Holds pasts i view hash') :
    hash = hash' := (h.run i).trace.placed.holds_unique hh hh'

/-- No quorum asks for the first view: correct members ask for higher ones. -/
theorem Reachable.not_quorum_zero (h : a.Reachable pasts) (i : MemberId) :
    ¬a.committee.quorum ≤ ((pasts i).progress.log.viewChangesFor a.height 0).length := by
  intro hquorum
  have htrace := (h.run i).trace
  obtain ⟨hsound, -⟩ := htrace.sound (h.trusts i)
  have hnodup := MessageLog.nodup_viewChangesFor (h := a.height) (v := 0) htrace.placed.wellFormed
  obtain ⟨j, hj, hcorrect⟩ := exists_correct_of_quorum (a := a) hnodup (fun j hj => by
    obtain ⟨m, hm, rfl⟩ := List.mem_map.1 hj
    exact (hsound.viewChanges m (MessageLog.mem_viewChangesFor.1 hm).1).1.mem)
    (by rwa [List.length_map])
  obtain ⟨m, hm, rfl⟩ := List.mem_map.1 hj
  obtain ⟨hmem, -, hview⟩ := MessageLog.mem_viewChangesFor.1 hm
  have hasked := (hsound.viewChanges m hmem).1
  have hmeant := h.meant (hasked.signed hasked.mem hcorrect)
  exact Nat.ne_of_gt hmeant.1.1 hview

/-- The members that stand behind a certificate. -/
theorem Reachable.backers (h : a.Reachable pasts) {m : Signed PrePrepareContent}
    {votes : List (Signed PrepareContent)}
    (hcert : a.committee.Certified (a.Attested pasts) a.height m votes) :
    ∃ l : List MemberId, (l.Nodup ∧ l ⊆ a.committee.members ∧ a.committee.quorum ≤ l.length) ∧
      ∀ i ∈ l, a.correct i = true → Holds pasts i m.content.view m.content.blockHash := by
  have hquorum := hcert.isQuorum
  refine ⟨_, ⟨hquorum.nodup, hquorum.subset, hquorum.enough⟩, fun i hi hcorrect => ?_⟩
  rcases List.mem_cons.1 hi with rfl | hi
  · have hmem : m.sender ∈ a.committee.members := by
      rw [hcert.proposed.sender_eq]
      exact Committee.leader_mem _ _
    rcases h.meant (hcert.proposed.signed hmem hcorrect) with hholds | ⟨-, hquorum⟩
    · exact hholds
    · exact absurd hquorum (h.not_quorum_zero _)
  · obtain ⟨s, hs, rfl⟩ := List.mem_map.1 hi
    have hvoted := hcert.voted s hs
    obtain ⟨hview, hhash⟩ := hcert.agree s hs
    rw [← hview, ← hhash]
    exact h.meant (hvoted.signed hvoted.mem hcorrect)

/-- A quorum committed to a block in a view. -/
def Locked (a : Assembly) (pasts : MemberId → Past) (view : View) (hash : BlockHash) : Prop :=
  ∃ l : List MemberId, (l.Nodup ∧ l ⊆ a.committee.members ∧ a.committee.quorum ≤ l.length) ∧
    ∀ i ∈ l, a.correct i = true → (a.term i).Backs (pasts i).progress.log view hash

theorem Reachable.locked (h : a.Reachable pasts) {share : Signature → MemberId → Prop}
    {view : View} {hash : BlockHash} {commits : List (Signed CommitContent)}
    (hfinal : a.committee.Final (a.Attested pasts) share a.height view hash commits) :
    a.Locked pasts view hash := by
  refine ⟨commits.map (·.sender), ⟨hfinal.nodup, fun i hi => ?_, ?_⟩, fun i hi hcorrect => ?_⟩
  · obtain ⟨s, hs, rfl⟩ := List.mem_map.1 hi
    exact (hfinal.committed s hs).mem
  · rw [List.length_map]
    exact hfinal.enough
  · obtain ⟨s, hs, rfl⟩ := List.mem_map.1 hi
    have hcommitted := hfinal.committed s hs
    obtain ⟨rfl, rfl⟩ := hfinal.agree s hs
    exact h.meant (hcommitted.signed hcommitted.mem hcorrect)

/-- A certificate of the locked view is for the locked block. -/
theorem Reachable.eq_of_certified (h : a.Reachable pasts) {view : View} {hash : BlockHash}
    (hlocked : a.Locked pasts view hash) {m : Signed PrePrepareContent}
    {votes : List (Signed PrepareContent)}
    (hcert : a.committee.Certified (a.Attested pasts) a.height m votes)
    (hview : m.content.view = view) : m.content.blockHash = hash := by
  obtain ⟨l, ⟨hl, hsub, hq⟩, hbacks⟩ := hlocked
  obtain ⟨l', ⟨hl', hsub', hq'⟩, hholds⟩ := h.backers hcert
  obtain ⟨i, hi, hi', hcorrect⟩ := exists_correct_of_quorums hl hl' hsub hsub' hq hq'
  exact h.holds_unique (hview ▸ hholds i hi' hcorrect) (hbacks i hi hcorrect).holds

/-! ## The views above -/

/-- **A block that is locked is the only one above.** -/
theorem Reachable.eq_of_holds_above (h : a.Reachable pasts) {view : View} {hash : BlockHash}
    (hlocked : a.Locked pasts view hash) {u : View} (hlt : view < u) {i : MemberId}
    {hash' : BlockHash} (hholds : Holds pasts i u hash') : hash' = hash := by
  induction u using Nat.strongRecOn generalizing i hash' with
  | ind u ih =>
    obtain ⟨l, ⟨hl, hsub, hq⟩, hbacks⟩ := hlocked
    have htrace := (h.run i).trace
    obtain ⟨b, hb, rfl, rfl⟩ := hholds
    -- the proposal was justified by a quorum of requests
    have hsanctioned := (htrace.sound (h.trusts i)).1.proposals b hb
    obtain ⟨votes, hjustified, hobliges⟩ :=
      hsanctioned.opened.resolve_left (Nat.ne_of_gt (Nat.lt_of_le_of_lt (Nat.zero_le _) hlt))
    -- one of them is from a member that is locked, so it proves the locked view or a higher one
    obtain ⟨j, hj, hj', hcorrect⟩ := exists_correct_of_quorums hl hjustified.nodup hsub
      (fun k hk => by
        obtain ⟨vote, hvote, rfl⟩ := List.mem_map.1 hk
        exact (hjustified.asked vote hvote).mem)
      hq (by rw [List.length_map]; exact hjustified.enough)
    obtain ⟨vote, hvote, rfl⟩ := List.mem_map.1 hj'
    have hasked := hjustified.asked vote hvote
    obtain ⟨-, hcovers⟩ := h.meant (hasked.signed hasked.mem hcorrect)
    obtain ⟨proof, m, hproof, hm, hle⟩ :=
      hcovers view hash (by rw [hasked.view_eq]; exact hlt) (hbacks _ hj hcorrect)
    -- so does the highest proof of all
    rcases hbest : highestPreparedProof votes with _ | best
    · exact absurd (prePrepare_eq_none_of_highest hbest hvote hproof) (by rw [hm]; simp)
    · obtain ⟨⟨vote', hvote', hbest'⟩, mb, hmb, hhighest⟩ := exists_of_highestPreparedProof hbest
      have hvb : view ≤ mb.content.view := Nat.le_trans hle (hhighest vote hvote proof m hproof hm)
      rcases (hjustified.asked vote' hvote').proves best hbest' with ⟨hnone, -⟩ | hproves
      · exact absurd (hnone.symm.trans hmb) (by simp)
      · obtain ⟨m', hm', -, hbelow, hcert⟩ := hproves
        obtain rfl := Option.some.inj (hmb.symm.trans hm')
        have heq : mb.content.blockHash = hash := by
          rcases Nat.lt_or_eq_of_le hvb with habove | hsame
          · obtain ⟨l', ⟨hl', hsub', hq'⟩, hholds⟩ := h.backers hcert
            obtain ⟨k, hk, hkcorrect⟩ := exists_correct_of_quorum hl' hsub' hq'
            exact ih mb.content.view hbelow habove (hholds k hk hkcorrect)
          · exact h.eq_of_certified ⟨l, ⟨hl, hsub, hq⟩, hbacks⟩ hcert hsame.symm
        rw [← heq]
        refine hobliges _ ?_
        rw [hbest]
        show best.prePrepare.map _ = _
        rw [hmb]
        rfl

theorem Reachable.locked_unique_of_le (h : a.Reachable pasts) {view view' : View}
    {hash hash' : BlockHash} (hlocked : a.Locked pasts view hash)
    (hlocked' : a.Locked pasts view' hash') (hle : view ≤ view') : hash' = hash := by
  obtain ⟨l', ⟨hl', hsub', hq'⟩, hbacks'⟩ := hlocked'
  rcases Nat.lt_or_eq_of_le hle with hlt | rfl
  · obtain ⟨i, hi, hcorrect⟩ := exists_correct_of_quorum hl' hsub' hq'
    exact h.eq_of_holds_above hlocked hlt (hbacks' i hi hcorrect).holds
  · obtain ⟨l, ⟨hl, hsub, hq⟩, hbacks⟩ := hlocked
    obtain ⟨i, hi, hi', hcorrect⟩ := exists_correct_of_quorums hl hl' hsub hsub' hq hq'
    exact h.holds_unique (hbacks' i hi' hcorrect).holds (hbacks i hi hcorrect).holds

/-! ## Agreement -/

/-- A block is concluded on: some participant decided it, or it has a proof, in which no
commit of a correct member is forged, that someone may accept under any keys and seed. -/
inductive Concluded (a : Assembly) (pasts : MemberId → Past) : BlockHash → Prop where
  | decided {i : MemberId} {d : Decision} (correct : a.correct i = true)
    (decides : .decide d ∈ (pasts i).requests) : Concluded a pasts d.proof.blockHash
  | proven {keys : Keys} {seed : Seed} {proof : BlockProof} (height : proof.height = a.height)
    (authentic : ∀ s ∈ proof.commits, Verified keys (s.part .commit) →
      a.Attested pasts (s.part .commit))
    (accepts : a.committee.acceptsBlockProof keys proof seed = true) :
    Concluded a pasts proof.blockHash

theorem Reachable.locked_of_concluded (h : a.Reachable pasts) {hash : BlockHash}
    (hconcluded : a.Concluded pasts hash) : ∃ view, a.Locked pasts view hash := by
  rcases hconcluded with @⟨i, d, -, hd⟩ | @⟨keys, seed, proof, hheight, hauthentic, haccepts⟩
  · have hcertifies := (h.run i).trace.certifies (h.trusts i) hd
    exact ⟨d.proof.view, h.locked hcertifies.final⟩
  · obtain ⟨hfinal, -⟩ := Committee.acceptsBlockProof_iff keys |>.1 haccepts
    rw [hheight] at hfinal
    exact ⟨proof.view, h.locked (hfinal.imp hauthentic fun _ _ hshare => hshare)⟩

/-- **Agreement.**  In every state that can be reached, all blocks that are decided by
correct members or observers, or are proven, are the same. -/
theorem agreement (h : a.Reachable pasts) {hash hash' : BlockHash}
    (hconcluded : a.Concluded pasts hash) (hconcluded' : a.Concluded pasts hash') :
    hash = hash' := by
  obtain ⟨view, hlocked⟩ := h.locked_of_concluded hconcluded
  obtain ⟨view', hlocked'⟩ := h.locked_of_concluded hconcluded'
  rcases Nat.le_total view view' with hle | hle
  · exact (h.locked_unique_of_le hlocked hlocked' hle).symm
  · exact h.locked_unique_of_le hlocked' hlocked hle

/-- Two members have decided after a view change, and agree. -/
theorem agreement_sample : ∃ d d', (.decide d ∈ (samplePasts 1).requests ∧
    .decide d' ∈ (samplePasts 2).requests) ∧ d.proof.blockHash = d'.proof.blockHash := by
  obtain ⟨d, hd⟩ := sample_decides (i := 1) (by decide)
  obtain ⟨d', hd'⟩ := sample_decides (i := 2) (by decide)
  exact ⟨d, d', ⟨hd, hd'⟩,
    agreement sample_orderly.reachable (.decided rfl hd) (.decided rfl hd')⟩

end Assembly

end CommitteeConsensus
