import CommitteeConsensus.Proofs.Quorums

/-!
# Certificates of one view are for one block

Nothing here is about how members behave or in which order anything happens.  All that is known
of a member outside of the faulty ones is what can be seen of it: under the keys at hand there
are no two proposals of one view, no two votes and no two commits that verify as its own and
have different hashes (`Keys.Steadfast`).

Two certificates of one view name two quorums, and those share such a member.  It stands behind
either certificate by a content of the same kind, as the leader of a view is none of its voters.
So both are for the same block, for prepared proofs (`Certified.hash_eq`) and for block proofs
(`Final.hash_eq`).

The highest of the proofs that votes bring along depends on the order of the votes, because of
two in the same view the later one is taken.  Its view does not depend on it, and hence neither
does its block (`Justified.highest_perm`).
-/

namespace CommitteeConsensus

/-! ## What a member does not do -/

/-- Height, view and block hash of a proposal. -/
def PrePrepareContent.ballot (c : PrePrepareContent) : Height × View × BlockHash :=
  (c.height, c.view, c.blockHash)

/-- Height, view and block hash of a vote. -/
def PrepareContent.ballot (c : PrepareContent) : Height × View × BlockHash :=
  (c.height, c.view, c.blockHash)

/-- Height, view and block hash of a commit. -/
def CommitContent.ballot (c : CommitContent) : Height × View × BlockHash :=
  (c.height, c.view, c.blockHash)

namespace Keys

/-- No two contents of one kind, height and view that verify as signed by a member have
different hashes. -/
def SignsOneHash {α : Type} [Signable α] (keys : Keys) (ballot : α → Height × View × BlockHash)
    (height : Height) (member : MemberId) : Prop :=
  ∀ (s s' : Signed α) (view : View) (hash hash' : BlockHash),
    (s.sender = member ∧ s'.sender = member) →
      (s.verifies keys = true ∧ s'.verifies keys = true) →
        ballot s.content = (height, view, hash) → ballot s'.content = (height, view, hash') →
          hash = hash'

/-- A member does not contradict itself at a height. -/
structure Steadfast (keys : Keys) (height : Height) (member : MemberId) : Prop where
  prePrepares : keys.SignsOneHash PrePrepareContent.ballot height member
  prepares : keys.SignsOneHash PrepareContent.ballot height member
  commits : keys.SignsOneHash CommitContent.ballot height member

end Keys

namespace Committee

variable {c : Committee} {keys : Keys} {height : Height} {faulty : Finset MemberId}

/-! ## Two certificates -/

section Steadfast

variable (few : faulty.card ≤ maxFaulty c.size)
  (steadfast : ∀ i ∈ c.members, i ∉ faulty → keys.Steadfast height i)

include few steadfast

/-- **Two prepared proofs of one view** are for one block. -/
theorem Certified.hash_eq {m m' : Signed PrePrepareContent}
    {votes votes' : List (Signed PrepareContent)}
    (h : c.Certified (Verified keys) height m votes)
    (h' : c.Certified (Verified keys) height m' votes') (view : m.content.view = m'.content.view) :
    m.content.blockHash = m'.content.blockHash := by
  obtain ⟨i, ⟨hi, hi'⟩, hcorrect⟩ := h.isQuorum.exists_common h'.isQuorum few
  have hsteadfast := steadfast i (h.isQuorum.subset hi) hcorrect
  -- a voter is not the leader, neither here nor there
  have hother : ∀ {m : Signed PrePrepareContent} {votes : List (Signed PrepareContent)},
      c.Certified (Verified keys) height m votes → ∀ s ∈ votes,
        s.sender ≠ c.leader m.content.view := fun hcert s hs => by
    rw [← (hcert.agree s hs).1]
    exact (hcert.voted s hs).sender_ne
  rcases List.mem_cons.1 hi with hleader | hi
  · rcases List.mem_cons.1 hi' with hleader' | hi'
    · refine hsteadfast.prePrepares m m' m.content.view _ _ ⟨hleader.symm, hleader'.symm⟩
        ⟨h.proposed.signed, h'.proposed.signed⟩ ?_ ?_
      · rw [PrePrepareContent.ballot, h.proposed.height_eq]
      · rw [PrePrepareContent.ballot, h'.proposed.height_eq, view]
    · obtain ⟨s, hs, hsender⟩ := List.mem_map.1 hi'
      refine absurd ?_ (hother h' s hs)
      rw [hsender, hleader, h.proposed.sender_eq, view]
  · obtain ⟨s, hs, hsender⟩ := List.mem_map.1 hi
    rcases List.mem_cons.1 hi' with hleader' | hi'
    · refine absurd ?_ (hother h s hs)
      rw [hsender, hleader', h'.proposed.sender_eq, view]
    · obtain ⟨s', hs', hsender'⟩ := List.mem_map.1 hi'
      have hvote := h.voted s hs
      have hvote' := h'.voted s' hs'
      obtain ⟨hview, hhash⟩ := h.agree s hs
      obtain ⟨hview', hhash'⟩ := h'.agree s' hs'
      refine hsteadfast.prepares s s' m.content.view _ _ ⟨hsender, hsender'⟩
        ⟨hvote.signed, hvote'.signed⟩ ?_ ?_
      · rw [PrepareContent.ballot, hvote.height_eq, hview, hhash]
      · rw [PrepareContent.ballot, hvote'.height_eq, hview', hhash', view]

/-- **Two block proofs of one view** are for one block. -/
theorem Final.hash_eq {share share' : Signature → MemberId → Prop} {view : View}
    {hash hash' : BlockHash} {commits commits' : List (Signed CommitContent)}
    (h : c.Final (Verified keys) share height view hash commits)
    (h' : c.Final (Verified keys) share' height view hash' commits') : hash = hash' := by
  obtain ⟨i, ⟨hi, hi'⟩, hcorrect⟩ := h.isQuorum.exists_common h'.isQuorum few
  obtain ⟨s, hs, hsender⟩ := List.mem_map.1 hi
  obtain ⟨s', hs', hsender'⟩ := List.mem_map.1 hi'
  have hcommit := h.committed s hs
  have hcommit' := h'.committed s' hs'
  obtain ⟨hview, hhash⟩ := h.agree s hs
  obtain ⟨hview', hhash'⟩ := h'.agree s' hs'
  refine (steadfast i (h.isQuorum.subset hi) hcorrect).commits s s' view _ _
    ⟨hsender, hsender'⟩ ⟨hcommit.signed, hcommit'.signed⟩ ?_ ?_
  · rw [CommitContent.ballot, hcommit.height_eq, hview, hhash]
  · rw [CommitContent.ballot, hcommit'.height_eq, hview', hhash']

end Steadfast

/-! ## Votes in another order -/

theorem Justified.perm {good : Part → Prop} {view : View} {votes votes' : List Confirmation}
    (h : c.Justified good height view votes) (perm : votes.Perm votes') :
    c.Justified good height view votes' := by
  refine ⟨?_, (perm.map _).nodup_iff.1 h.nodup, fun vote hvote => ?_⟩
  · rw [← perm.length_eq]
    exact h.enough
  · exact h.asked vote (perm.mem_iff.2 hvote)

end Committee

section Highest

variable {votes votes' : List Confirmation} {best best' : PreparedProof}

/-- More votes have a proof of some view if fewer have one. -/
theorem exists_highest_of_subset (sub : votes ⊆ votes') (h : highestPreparedProof votes = some best) :
    ∃ best', highestPreparedProof votes' = some best' := by
  obtain ⟨⟨vote, hvote, hproof⟩, m, hm, -⟩ := exists_of_highestPreparedProof h
  rcases hbest : highestPreparedProof votes' with _ | best'
  · have hnone := prePrepare_eq_none_of_highest hbest (sub hvote) hproof
    exact absurd (hnone.symm.trans hm) (by simp)
  · exact ⟨best', rfl⟩

/-- More votes have a proof of a view that is at least as high. -/
theorem highest_le_of_subset (sub : votes ⊆ votes') (h : highestPreparedProof votes = some best)
    (h' : highestPreparedProof votes' = some best') {m m' : Signed PrePrepareContent}
    (hm : best.prePrepare = some m) (hm' : best'.prePrepare = some m') :
    m.content.view ≤ m'.content.view := by
  obtain ⟨⟨vote, hvote, hproof⟩, -⟩ := exists_of_highestPreparedProof h
  obtain ⟨-, b, hb, hhighest⟩ := exists_of_highestPreparedProof h'
  obtain rfl := Option.some.inj (hm'.symm.trans hb)
  exact hhighest vote (sub hvote) best m hproof hm

/-- The highest proof of votes that were accepted is a certificate. -/
theorem Committee.Justified.certified {c : Committee} {good : Part → Prop} {height : Height}
    {view : View} (h : c.Justified good height view votes)
    (hbest : highestPreparedProof votes = some best) :
    ∃ m, best.prePrepare = some m ∧ c.Certified good height m best.prepares := by
  obtain ⟨⟨vote, hvote, hproof⟩, m, hm, -⟩ := exists_of_highestPreparedProof hbest
  rcases (h.asked vote hvote).proves best hproof with ⟨hnone, -⟩ | ⟨b, hb, -, -, hcert⟩
  · exact absurd (hnone.symm.trans hm) (by simp)
  · exact ⟨b, hb, hcert⟩

end Highest

namespace Committee

variable {c : Committee} {keys : Keys} {height : Height} {faulty : Finset MemberId}

/-- **The order of the votes makes no difference** to the view and the block of the highest of
their proofs. -/
theorem Justified.highest_perm (few : faulty.card ≤ maxFaulty c.size)
    (steadfast : ∀ i ∈ c.members, i ∉ faulty → keys.Steadfast height i) {view : View}
    {votes votes' : List Confirmation} (h : c.Justified (Verified keys) height view votes)
    (perm : votes.Perm votes') :
    (highestPreparedProof votes).map (fun best => (best.view, best.blockHash)) =
      (highestPreparedProof votes').map (fun best => (best.view, best.blockHash)) := by
  have h' := h.perm perm
  rcases hbest : highestPreparedProof votes with _ | best
  · rcases hbest' : highestPreparedProof votes' with _ | best'
    · rfl
    · obtain ⟨best, hsome⟩ := exists_highest_of_subset perm.symm.subset hbest'
      exact absurd (hbest.symm.trans hsome) (by simp)
  · obtain ⟨best', hbest'⟩ := exists_highest_of_subset perm.subset hbest
    obtain ⟨m, hm, hcert⟩ := h.certified hbest
    obtain ⟨m', hm', hcert'⟩ := h'.certified hbest'
    have hview : m.content.view = m'.content.view :=
      Nat.le_antisymm (highest_le_of_subset perm.subset hbest hbest' hm hm')
        (highest_le_of_subset perm.symm.subset hbest' hbest hm' hm)
    have hhash := hcert.hash_eq few steadfast hcert' hview
    rw [hbest', Option.map_some, Option.map_some, PreparedProof.view, PreparedProof.view,
      PreparedProof.blockHash, PreparedProof.blockHash, hm, hm', Option.map_some, Option.map_some,
      Option.map_some, Option.map_some, hview, hhash]

/-- What a proof that is accepted and claims a view is about. -/
theorem certified_of_acceptsProof {target : View} {p : PreparedProof} {view : View}
    (h : c.acceptsProof keys height target (some p) = true) (hview : p.view = some view) :
    ∃ m, (m.content.view = view ∧ p.blockHash = some m.content.blockHash) ∧
      c.Certified (Verified keys) height m p.prepares := by
  obtain ⟨m, hm, hclaims⟩ := Option.map_eq_some_iff.1 hview
  rcases (acceptsProof_iff keys).1 h p rfl with ⟨hnone, -⟩ | ⟨b, hb, -, -, hcert⟩
  · exact absurd (hnone.symm.trans hm) (by simp)
  · obtain rfl := Option.some.inj (hm.symm.trans hb)
    refine ⟨m, ⟨hclaims, ?_⟩, hcert⟩
    rw [PreparedProof.blockHash, hm, Option.map_some]

/-- **Certificates of one view are for one block**, as long as no more members than the committee
tolerates contradict themselves.  Two prepared proofs of one view that are accepted have the same
hash, whatever views they are to justify, and so have two block proofs, whatever their seeds.  The
highest of the proofs that accepted votes bring along is of the same view and has the same hash
in whatever order the votes stand. -/
theorem certificates_of_view_unique (c : Committee) (keys : Keys) (height : Height)
    (faulty : Finset MemberId) (few : faulty.card ≤ maxFaulty c.size)
    (steadfast : ∀ i ∈ c.members, i ∉ faulty → keys.Steadfast height i) :
    (∀ (p p' : PreparedProof) (target target' view : View),
      c.acceptsProof keys height target (some p) = true →
        c.acceptsProof keys height target' (some p') = true →
          p.view = some view → p'.view = some view → p.blockHash = p'.blockHash) ∧
      (∀ (p p' : BlockProof) (seed seed' : Seed),
        (p.height = height ∧ p'.height = height) → p.view = p'.view →
          c.acceptsBlockProof keys p seed = true → c.acceptsBlockProof keys p' seed' = true →
            p.blockHash = p'.blockHash) ∧
      ∀ (view : View) (votes votes' : List Confirmation),
        c.acceptsConfirmations keys height view votes = true → votes.Perm votes' →
          (highestPreparedProof votes).map (fun best => (best.view, best.blockHash)) =
            (highestPreparedProof votes').map (fun best => (best.view, best.blockHash)) := by
  refine ⟨?_, ?_, ?_⟩
  · intro p p' target target' view accepts accepts' hview hview'
    obtain ⟨m, ⟨hm, hhash⟩, hcert⟩ := certified_of_acceptsProof accepts hview
    obtain ⟨m', ⟨hm', hhash'⟩, hcert'⟩ := certified_of_acceptsProof accepts' hview'
    rw [hhash, hhash', hcert.hash_eq few steadfast hcert' (hm.trans hm'.symm)]
  · rintro p p' seed seed' ⟨hheight, hheight'⟩ hview accepts accepts'
    obtain ⟨hfinal, -⟩ := (acceptsBlockProof_iff keys).1 accepts
    obtain ⟨hfinal', -⟩ := (acceptsBlockProof_iff keys).1 accepts'
    rw [hheight] at hfinal
    rw [hheight', ← hview] at hfinal'
    exact hfinal.hash_eq few steadfast hfinal'
  · intro view votes votes' accepts perm
    exact ((acceptsConfirmations_iff keys).1 accepts).highest_perm few steadfast perm

/-! ### One faulty member of four -/

/-- Keys under which member `3` may sign what it likes, and the others requests for a view and
whatever is about the block with the hash `0`. -/
def looseKeys : Keys where
  me := 0
  sign _ := [0]
  verify data signature member := signature == [UInt8.ofNat member] &&
    (member == 3 || data.head? == some (UInt8.ofNat MessageKind.viewChange.tag) ||
      (data.drop 20).take 32 == Digest.zero.bytes)
  signSeed _ _ := []
  verifySeed _ _ _ _ := true
  aggregate _ shares := shares.flatMap (·.2)

theorem looseKeys_signsOneHash {α : Type} [Signable α] {ballot : α → Height × View × BlockHash}
    (kind : ∀ a : α, (signingBytes a).head? ≠ some (UInt8.ofNat MessageKind.viewChange.tag))
    (form : ∀ a : α, ((signingBytes a).drop 20).take 32 = (ballot a).2.2.bytes)
    {member : MemberId} (hmember : member ≠ 3) :
    looseKeys.SignsOneHash ballot height member := by
  have hzero : ∀ s : Signed α, s.sender = member → s.verifies looseKeys = true →
      (ballot s.content).2.2 = .zero := fun s hsender hverifies => by
    simp only [Signed.verifies, looseKeys, Bool.and_eq_true, Bool.or_eq_true, beq_iff_eq,
      kind s.content, or_false, form s.content, hsender, hmember, false_or] at hverifies
    exact Digest.ext hverifies.2
  rintro s s' view hash hash' ⟨hsender, hsender'⟩ ⟨hverifies, hverifies'⟩ hballot hballot'
  have hhash := hzero s hsender hverifies
  have hhash' := hzero s' hsender' hverifies'
  rw [hballot] at hhash
  rw [hballot'] at hhash'
  exact hhash.trans hhash'.symm

theorem looseKeys_steadfast {member : MemberId} (hmember : member ≠ 3) :
    looseKeys.Steadfast height member where
  prePrepares := by
    refine looseKeys_signsOneHash (fun a => ?_) (fun a => ?_) hmember
    · show some (UInt8.ofNat MessageKind.prePrepare.tag) ≠ _
      decide
    · exact List.take_of_length_le (Nat.le_of_eq a.blockHash.length_bytes)
  prepares := by
    refine looseKeys_signsOneHash (fun a => ?_) (fun a => ?_) hmember
    · show some (UInt8.ofNat MessageKind.prepare.tag) ≠ _
      decide
    · exact List.take_of_length_le (Nat.le_of_eq a.blockHash.length_bytes)
  commits := by
    refine looseKeys_signsOneHash (fun a => ?_) (fun a => ?_) hmember
    · show some (UInt8.ofNat MessageKind.commit.tag) ≠ _
      decide
    · exact List.take_left' a.blockHash.length_bytes

/-- What a member signs, with the signature that `looseKeys` accept. -/
def looselySigned {α : Type} (content : α) (member : MemberId) : Signed α :=
  ⟨content, member, [UInt8.ofNat member]⟩

/-- Two voters stand behind the proposal of the faulty leader of view `3`. -/
def looseProof (voter voter' : MemberId) : PreparedProof where
  prePrepare := some (looselySigned ⟨1, 3, .zero⟩ 3)
  prepares := [looselySigned ⟨1, 3, .zero⟩ voter, looselySigned ⟨1, 3, .zero⟩ voter']

/-- Three members ask for view `4`, two of them with different proofs. -/
def looseVotes : List Confirmation :=
  [looselySigned ⟨1, 4, some (looseProof 0 1)⟩ 0, looselySigned ⟨1, 4, some (looseProof 1 2)⟩ 1,
    looselySigned ⟨1, 4, none⟩ 2]

/-- Three members have committed in view `3`. -/
def looseBlockProof (committers : List MemberId) : BlockProof where
  height := 1
  view := 3
  blockHash := .zero
  commits := committers.map fun i => looselySigned ⟨1, 3, .zero, [UInt8.ofNat i]⟩ i
  seedSignature := committers.map UInt8.ofNat

/-- Member `3` contradicts itself, and still the two proofs of its view agree, and the two block
proofs; which of the two proofs is the highest depends on the order of the votes, and what it is
about does not. -/
theorem certificates_of_view_unique_loose :
    (¬looseKeys.Steadfast 1 3 ∧ (∀ i ∈ [0, 1, 2, 3], i ∉ ({3} : Finset MemberId) →
        looseKeys.Steadfast 1 i)) ∧
      (looseProof 0 1).blockHash = (looseProof 1 2).blockHash ∧
      (looseBlockProof [0, 1, 2]).blockHash = (looseBlockProof [1, 2, 3]).blockHash ∧
      highestPreparedProof looseVotes ≠ highestPreparedProof looseVotes.reverse ∧
      (highestPreparedProof looseVotes).map (fun best => (best.view, best.blockHash)) =
        (highestPreparedProof looseVotes.reverse).map
          (fun best => (best.view, best.blockHash)) := by
  have hfew : ({3} : Finset MemberId).card ≤
      maxFaulty (⟨[0, 1, 2, 3], by decide⟩ : Committee).size := by decide
  have hsteadfast : ∀ i ∈ [0, 1, 2, 3], i ∉ ({3} : Finset MemberId) →
      looseKeys.Steadfast 1 i := by
    intro i _ hi
    exact looseKeys_steadfast fun heq => hi (Finset.mem_singleton.2 heq)
  obtain ⟨hproofs, hblocks, hvotes⟩ := certificates_of_view_unique ⟨[0, 1, 2, 3], by decide⟩
    looseKeys 1 {3} hfew hsteadfast
  refine ⟨⟨fun h => ?_, hsteadfast⟩, ?_, ?_, by decide, ?_⟩
  · have hsame := h.prePrepares (looselySigned ⟨1, 3, .zero⟩ 3)
      (looselySigned ⟨1, 3, ⟨List.replicate 32 1, by decide⟩⟩ 3) 3 _ _ ⟨rfl, rfl⟩
      ⟨by decide, by decide⟩ rfl rfl
    exact absurd hsame (by decide)
  · exact hproofs _ _ 4 5 3 (by decide) (by decide) rfl rfl
  · exact hblocks _ _ 6 7 ⟨rfl, rfl⟩ rfl (by decide) (by decide)
  · exact hvotes 4 looseVotes looseVotes.reverse (by decide) (List.reverse_perm _).symm

end Committee

end CommitteeConsensus
