import CommitteeConsensus.Proofs.Agreement
import CommitteeConsensus.Proofs.SentMessages

/-!
# No quorum gets stuck

In an orderly run the leaders of the views below `k` are among the silent members, and the
leader of view `k` is not.  Once everything has been delivered, every request has been
answered and no one is in a view below `k`, all members that are up have decided, in view
`k` and on one block (`Assembly.Orderly.all_decide`).

It is not said that a state of this kind comes about, which is the business of the network
and of the timers, but that there is no other one in which nothing is left to do.

## The argument

Whatever is in the log of a member means what it says.  Members ask for views up to `k` only,
for a request takes a timer, and proposals are made in view `k` only, by its leader; so
they are all the same.  From there on each step follows from the one before, because what
a member has it has announced, what is announced arrives, and what arrives has its effect:

* the leader of view `k` has a proposal: if `k` is above the first view, some member came
  there by an opening, which is the leader's, or all of them asked for it, and then the
  leader has taken it on;
* so everyone has the proposal, and everyone but the leader has voted for it;
* so everyone is through with the votes;
* so a quorum has committed, be it because everyone did, or because someone decided without
  committing itself, for which it took a quorum;
* so everyone has decided.
-/

namespace CommitteeConsensus

/-- There are as many votes as members whom one is from. -/
theorem length_le_of_forall_exists {α : Type} (sender : α → MemberId) {votes : List α}
    {members : List MemberId} (distinct : members.Nodup)
    (h : ∀ i ∈ members, ∃ vote ∈ votes, sender vote = i) : members.length ≤ votes.length := by
  have hsub : members ⊆ votes.map sender := fun i hi => List.mem_map.2 (h i hi)
  have hle := (List.subperm_of_subset distinct hsub).length_le
  rwa [List.length_map] at hle

namespace Assembly

variable {a : Assembly} {k : View} {pasts : MemberId → Past}

/-- A member has sent a commit to a block. -/
def Commits (pasts : MemberId → Past) (view : View) (hash : BlockHash) (i : MemberId) : Prop :=
  ∃ s, (pasts i).Sent (.commit s) ∧ s.content.view = view ∧ s.content.blockHash = hash

namespace Orderly

/-! ## Views and proposals -/

/-- Views above the first are asked for, up to `k`. -/
theorem asked_le (h : a.Orderly k pasts) {vote : Confirmation}
    (hvote : a.Genuine pasts (vote.part .viewChange)) :
    0 < vote.content.view ∧ vote.content.view ≤ k := by
  obtain ⟨view, htaken, hview⟩ := (h.trace hvote.present).timed (c := vote.content)
    (by rw [me_term]; exact hvote.signs)
  obtain ⟨earlier, -, hallows⟩ := h.allowed htaken
  cases hallows with
  | timeout started below =>
    rw [hview]
    exact ⟨Nat.succ_pos _, below⟩

/-- So there is a quorum of requests for no other view. -/
theorem quorum_le (h : a.Orderly k pasts) {i : MemberId} (hi : i ∈ a.present) {view : View}
    (hquorum : a.committee.quorum ≤
      ((pasts i).progress.log.viewChangesFor a.height view).length) : 0 < view ∧ view ≤ k := by
  obtain ⟨m, hm⟩ :=
    List.exists_mem_of_length_pos (Nat.lt_of_lt_of_le a.committee.quorum_pos hquorum)
  obtain ⟨hmem, -, hview⟩ := MessageLog.mem_viewChangesFor.1 hm
  rw [← hview]
  exact h.asked_le ((h.soundLog hi).viewChanges m hmem).1.signed

theorem justified_le (h : a.Orderly k pasts) {view : View} {votes : List Confirmation}
    (hvotes : a.committee.Justified (a.Genuine pasts) a.height view votes) :
    0 < view ∧ view ≤ k := by
  obtain ⟨vote, hvote⟩ :=
    List.exists_mem_of_length_pos (Nat.lt_of_lt_of_le a.committee.quorum_pos hvotes.enough)
  have hasked := hvotes.asked vote hvote
  rw [← hasked.view_eq]
  exact h.asked_le hasked.signed

theorem opening_le (h : a.Orderly k pasts) {j : MemberId} {n : NewView}
    (hn : (a.term j).Vouched (a.genuine pasts) (.newView n)) :
    0 < n.signed.content.view ∧ n.signed.content.view ≤ k :=
  h.justified_le (Term.Opens.justified hn)

theorem observer_eq {i : MemberId} (hi : i ∈ a.present) : (a.term i).observer = false := by
  show (!a.committee.contains (a.term i).me) = false
  rw [me_term, Committee.contains_eq_true.2 (mem_present.1 hi).1]
  rfl

/-- **No one goes beyond view `k`.** -/
theorem view_le (h : a.Orderly k pasts) {i : MemberId} (hi : i ∈ a.present) :
    (pasts i).progress.view ≤ k := by
  rcases (h.trace hi).reached (observer_eq hi) with
    hfirst | ⟨htaken, hview, -⟩ | ⟨-, -, hquorum⟩ | ⟨⟨m, hm, -⟩, -⟩
  · rw [hfirst]
    exact Nat.zero_le k
  · obtain ⟨j, hj⟩ := h.vouched htaken
    rw [← hview]
    exact (h.opening_le hj).2
  · exact (h.quorum_le hi hquorum).2
  · obtain ⟨hmem, -, hview⟩ := MessageLog.mem_viewChangesFor.1 hm
    rw [← hview]
    exact (h.asked_le ((h.soundLog hi).viewChanges m hmem).1.signed).2

section Proposals

variable (skipped : ∀ view < k, a.committee.leader view ∉ a.present)

include skipped

/-- What is proposed is proposed in view `k`, and is what its leader has. -/
theorem leader_holds (h : a.Orderly k pasts) {m : Signed PrePrepareContent}
    (hm : a.committee.Proposed (a.Genuine pasts) a.height m) :
    m.content.view = k ∧ a.committee.leader k ∈ a.present ∧
      Holds pasts (a.committee.leader k) k m.content.blockHash := by
  have hpresent : m.sender ∈ a.present := hm.signed.present
  rcases h.meant hm.signed with hholds | ⟨hzero, hquorum⟩
  · obtain ⟨b, hb, hview, hhash⟩ := hholds
    have hle : m.content.view ≤ k := by
      rw [← hview]
      exact Nat.le_trans ((h.trace hpresent).placed.le b hb) (h.view_le hpresent)
    have hge : ¬m.content.view < k := fun hlt =>
      skipped _ hlt (hm.sender_eq ▸ hpresent)
    have heq : m.content.view = k := Nat.le_antisymm hle (Nat.le_of_not_lt hge)
    have hsender : m.sender = a.committee.leader k := by rw [hm.sender_eq, heq]
    rw [← hsender]
    exact ⟨heq, hpresent, b, hb, hview.trans heq, hhash⟩
  · exact absurd (h.quorum_le hpresent hquorum).1 (Nat.lt_irrefl 0)

/-- **All proposals are the same**, wherever they are held. -/
theorem hash_unique (h : a.Orderly k pasts) {i j : MemberId} (hi : i ∈ a.present)
    (hj : j ∈ a.present) {view view' : View} {hash hash' : BlockHash}
    (hh : Holds pasts i view hash) (hh' : Holds pasts j view' hash') :
    (view = k ∧ view' = k) ∧ hash = hash' := by
  obtain ⟨m, hm, rfl, rfl⟩ := hh
  obtain ⟨m', hm', rfl, rfl⟩ := hh'
  obtain ⟨hview, hleader, hheld⟩ :=
    h.leader_holds skipped ((h.soundLog hi).proposals m hm).proposed
  obtain ⟨hview', -, hheld'⟩ :=
    h.leader_holds skipped ((h.soundLog hj).proposals m' hm').proposed
  exact ⟨⟨hview, hview'⟩, (h.trace hleader).placed.holds_unique hheld hheld'⟩

end Proposals

/-! ## When nothing is left to do -/

/-- A member in view `k`, which is through, has its proposal. -/
theorem exists_holds (h : a.Orderly k pasts) {i : MemberId} (hi : i ∈ a.present)
    (hview : (pasts i).progress.view = k) (hsettled : (pasts i).progress.Settled k) :
    ∃ hash, Holds pasts i k hash := by
  rcases hsettled with hleft | hdone | ⟨m, hm, hmview⟩
  · exact absurd hview (Nat.ne_of_gt hleft)
  · obtain ⟨m, hm, -⟩ := (h.trace hi).standing.decided hdone
    obtain ⟨hmem, -, hmview⟩ := MessageLog.of_prePrepare?_eq_some hm
    exact ⟨m.blockHash, m, hmem, hmview.trans hview, rfl⟩
  · exact ⟨m.blockHash, m, hm, hmview, rfl⟩

section Quiet

variable (quiet : a.Quiescent k pasts)

include quiet

theorem view_eq (h : a.Orderly k pasts) {i : MemberId} (hi : i ∈ a.present) :
    (pasts i).progress.view = k := Nat.le_antisymm (h.view_le hi) (quiet.arrived i hi)

/-- Whoever waits for a block gets it. -/
theorem settled_of_awaited (h : a.Orderly k pasts) {i : MemberId} (hi : i ∈ a.present)
    (hawaited : (pasts i).progress.Awaited k) : (pasts i).progress.Settled k := by
  rcases hawaited with hsettled | ⟨votes, hp⟩
  · exact hsettled
  · obtain ⟨underway, hheard⟩ := (h.served _ hi).heard (observer_eq hi)
    obtain ⟨block, hash, htaken⟩ := quiet.built i hi k (underway.waiting k votes hp)
    exact hheard _ htaken

/-- Whoever has a proposal validated is through with it. -/
theorem settled_of_attended (h : a.Orderly k pasts) {i : MemberId} (hi : i ∈ a.present)
    (hattended : (pasts i).progress.Attended k) : (pasts i).progress.Settled k := by
  rcases hattended with hsettled | hbusy
  · exact hsettled
  · obtain ⟨underway, hheard⟩ := (h.served _ hi).heard (observer_eq hi)
    obtain ⟨-, m, hasked, rfl⟩ := underway.examining k hbusy
    exact hheard _ (quiet.validated i hi m hasked)

variable (verifiable : a.Verifiable) (near : ∀ i ∈ a.present, k ≤ satAdd 0 (a.viewsAhead i))

include verifiable near

/-- **What was sent has its effect.** -/
theorem heeded (h : a.Orderly k pasts) {i j : MemberId} (hi : i ∈ a.present)
    (hj : j ∈ a.present) {recipients : List MemberId} {m : Message}
    (hsent : .send recipients m ∈ (pasts j).requests) (haddressed : i ∈ recipients)
    (hle : m.view ≤ k) : (a.term i).Heeds (pasts i).progress m := by
  have htaken := quiet.delivered j hj recipients m hsent i hi haddressed
  have hvouched := ((h.soundRequests hj).sent recipients m hsent).imp
    (genuine_implies verifiable hi)
  have hheard : (a.term i).Vouched (a.term i).reading m := hvouched.congr rfl rfl
  have hvalid := hheard.findsValid
  exact ((h.served _ hi).heard (observer_eq hi)).2 _ htaken hvalid (Nat.le_trans hle (near i hi))

omit quiet verifiable near in
theorem leads_leader (leader : a.committee.leader k ∈ a.present) :
    (a.term (a.committee.leader k)).leads k = true :=
  Term.leads_iff _ |>.2 ⟨observer_eq leader, (me_term _).symm⟩

variable (leader : a.committee.leader k ∈ a.present)
  (skipped : ∀ view < k, a.committee.leader view ∉ a.present)

include leader skipped

/-- Unless the leader of view `k` is through, everyone has asked it for the view. -/
theorem settled_or_asked (h : a.Orderly k pasts) (hpos : 0 < k) :
    (pasts (a.committee.leader k)).progress.Settled k ∨ ∀ j ∈ a.present,
      ∃ m ∈ (pasts (a.committee.leader k)).progress.log.viewChangesFor a.height k,
        m.sender = j := by
  have hlead := h.view_eq quiet leader
  by_cases hsettled : (pasts (a.committee.leader k)).progress.Settled k
  · exact Or.inl hsettled
  · refine Or.inr fun j hj => ?_
    have hview := h.view_eq quiet hj
    rcases (h.trace hj).reached (observer_eq hj) with
      hfirst | ⟨htaken, hnview, -⟩ | ⟨hleads, hlast, -⟩ | ⟨hfiled, htold⟩
    · exact absurd (hfirst.symm.trans hview) (Nat.ne_of_lt hpos)
    · -- an opening of view `k` shows the proposal that its leader has
      obtain ⟨i, hi⟩ := h.vouched htaken
      obtain ⟨-, -, b, hb, hbview, -⟩ := h.leader_holds skipped (Term.Opens.proposed hi)
      exact absurd (Or.inr (Or.inr ⟨b, hb, hbview⟩)) hsettled
    · -- only the leader takes the view on
      rw [hview] at hleads hlast
      obtain rfl : a.committee.leader k = j := by
        rw [← me_term (a := a) j]
        exact (Term.leads_iff _ |>.1 hleads).2
      have hawaited := (((h.served _ hj).heard (observer_eq hj)).1.claimed k hlast).2
      exact absurd (h.settled_of_awaited quiet hj hawaited) hsettled
    · rw [hview, me_term] at hfiled
      rw [hview, me_term] at htold
      by_cases hjl : a.committee.leader k = j
      · rw [hjl]
        exact hfiled
      · obtain ⟨m, ⟨hmview, hmsender⟩, hsent⟩ := htold hjl
        have hheeds := h.heeded quiet verifiable near leader hj hsent List.mem_cons_self
          (Nat.le_of_eq hmview)
        have hleads : (a.term (a.committee.leader k)).leads m.view = true := by
          rw [hmview]
          exact leads_leader leader
        rcases hheeds hleads with hleft | hdone | ⟨b, hb, hsender⟩
        · exact absurd hlead (Nat.ne_of_gt (hmview ▸ hleft))
        · exact absurd (Or.inr (Or.inl hdone)) hsettled
        · exact ⟨b, hmview ▸ hb, hsender.trans hmsender⟩

/-- **The leader of view `k` has a proposal.** -/
theorem leader_settled (h : a.Orderly k pasts) :
    (pasts (a.committee.leader k)).progress.Settled k := by
  obtain ⟨underway, hheard⟩ := (h.served _ leader).heard (observer_eq leader)
  rcases Nat.eq_zero_or_pos k with rfl | hpos
  · have hasked := (h.served _ leader).builds (leads_leader leader) (quiet.started _ leader)
    obtain ⟨block, hash, htaken⟩ := quiet.built _ leader 0 hasked
    exact hheard _ htaken
  · rcases h.settled_or_asked quiet verifiable near leader skipped hpos with hsettled | hasked
    · exact hsettled
    · by_contra hnot
      have hview := h.view_eq quiet leader
      -- the leader has the requests of a quorum, and does not wait to take the view on
      refine (h.served _ leader).run.atRest.unclaimed k ⟨fun hdone => ?_, leads_leader leader,
        Nat.le_of_eq hview, ?_, ?_⟩
      · exact hnot (Or.inr (Or.inl hdone))
      · rcases hlast : (pasts (a.committee.leader k)).progress.lastNewView with _ | view
        · rfl
        · refine decide_eq_false fun hle => hnot ?_
          obtain ⟨hge, hawaited⟩ := underway.claimed view hlast
          obtain rfl : view = k := Nat.le_antisymm (hview ▸ hge) hle
          exact h.settled_of_awaited quiet leader hawaited
      · exact Nat.le_trans quorum_le_present (length_le_of_forall_exists _ nodup_present hasked)

/-- **Everyone has the proposal of view `k`.** -/
theorem exists_proposal (h : a.Orderly k pasts) :
    ∃ hash, ∀ i ∈ a.present, Holds pasts i k hash := by
  have hsettled := h.leader_settled quiet verifiable near leader skipped
  obtain ⟨hash, hholds⟩ := h.exists_holds leader (h.view_eq quiet leader) hsettled
  refine ⟨hash, fun i hi => ?_⟩
  by_cases hil : i = a.committee.leader k
  · rw [hil]
    exact hholds
  · obtain ⟨m, hm, hmview, -⟩ := id hholds
    have hmem : i ∈ a.committee.others (a.term (a.committee.leader k)).me := by
      rw [me_term]
      exact Committee.mem_others.2 ⟨(mem_present.1 hi).1, hil⟩
    have hattended : (pasts i).progress.Attended k := by
      rcases ((h.trace leader).announced hm).led (by rw [hmview]; exact leads_leader leader) with
        ⟨hzero, hsent⟩ | ⟨n, rfl, hnview, hsent⟩
      · have hheeds := h.heeded quiet verifiable near hi leader hsent hmem (Nat.le_of_eq hmview)
        rw [← hmview, hzero]
        exact hheeds hzero
      · have hopening := h.opening_le (((h.soundRequests leader).sent _ _ hsent))
        have hheeds := h.heeded quiet verifiable near hi leader hsent hmem hopening.2
        rw [← hmview, ← hnview]
        exact hheeds hopening.1
    obtain ⟨hash', hholds'⟩ :=
      h.exists_holds hi (h.view_eq quiet hi) (h.settled_of_attended quiet hi hattended)
    obtain ⟨-, rfl⟩ := h.hash_unique skipped hi leader hholds' hholds
    exact hholds'

/-! ### From the proposal to the decision -/

section Decided

variable {hash : BlockHash} (everyone : ∀ i ∈ a.present, Holds pasts i k hash)

include everyone

omit verifiable near leader skipped in
/-- The proposal of a member is the one of its view. -/
theorem exists_current (h : a.Orderly k pasts) {i : MemberId} (hi : i ∈ a.present) :
    ∃ m, (pasts i).progress.log.prePrepare? a.height (pasts i).progress.view = some m ∧
      m.view = (pasts i).progress.view ∧ m.blockHash = hash := by
  obtain ⟨m, hm, hmview, hmhash⟩ := everyone i hi
  have hplaced := (h.trace hi).placed
  have hcurrent : m.view = (pasts i).progress.view := hmview.trans (h.view_eq quiet hi).symm
  exact ⟨m, (MessageLog.prePrepare?_eq_some_iff hplaced.wellFormed).2
    ⟨hm, hplaced.height m hm, hcurrent⟩, hcurrent, hmhash⟩

/-- Everyone but the leader has voted, and the votes have arrived. -/
theorem voted (h : a.Orderly k pasts) {i j : MemberId} (hi : i ∈ a.present) (hj : j ∈ a.present)
    (hne : j ≠ a.committee.leader k) : (pasts i).progress.phase = .committed ∨
      ∃ s ∈ (pasts i).progress.log.preparesFor a.height k hash, s.sender = j := by
  obtain ⟨m, hm, rfl, rfl⟩ := everyone j hj
  have hfollows : (a.term j).leads m.view = false := by
    rw [← Bool.not_eq_true]
    intro hleads
    have hme := (Term.leads_iff _ |>.1 hleads).2
    rw [me_term] at hme
    exact hne hme.symm
  obtain ⟨hsent, s, hs, hsender⟩ :=
    ((h.trace hj).announced hm).followed (observer_eq hj) hfollows
  rw [me_term] at hsender
  by_cases hij : i = j
  · subst hij
    exact Or.inr ⟨s, hs, hsender⟩
  · have hmem : i ∈ a.committee.others (a.term j).me := by
      rw [me_term]
      exact Committee.mem_others.2 ⟨(mem_present.1 hi).1, hij⟩
    have hheeds := h.heeded quiet verifiable near hi hj hsent hmem (Nat.le_refl m.view)
    rcases hheeds with hleft | hdone | ⟨b, hb, hbview, hbhash⟩ | ⟨b, hb, ⟨hheight, hview⟩, hbsender⟩
    · exact absurd (h.view_eq quiet hi) (Nat.ne_of_gt hleft)
    · exact Or.inl hdone
    · exact absurd (h.hash_unique skipped hi hj ⟨b, hb, rfl, rfl⟩ ⟨m, hm, rfl, rfl⟩).2 hbhash
    · -- the vote that is held is for the same block, since its sender has no other one
      have hvoted := (h.soundLog hi).prepares b hb
      have hholds : Holds pasts b.sender b.content.view b.content.blockHash := h.meant hvoted.signed
      obtain ⟨-, hhash⟩ :=
        h.hash_unique skipped hvoted.signed.present hj hholds ⟨m, hm, rfl, rfl⟩
      exact Or.inr ⟨b, MessageLog.mem_preparesFor.2 ⟨hb, ⟨hheight, hview⟩, hhash⟩,
        hbsender.trans (me_term j)⟩

/-- **Everyone is through with the votes.** -/
theorem through (h : a.Orderly k pasts) {i : MemberId} (hi : i ∈ a.present) :
    (pasts i).progress.phase = .prepared ∨ (pasts i).progress.phase = .committed := by
  obtain ⟨m, hm, hmview, hmhash⟩ := h.exists_current quiet everyone hi
  have hview := h.view_eq quiet hi
  rcases hphase : (pasts i).progress.phase
  · refine absurd ((h.served _ hi).run.atRest.uncommitted hphase m hm) (Nat.not_lt_of_le ?_)
    show _ ≤ ((pasts i).progress.log.prepareSenders a.height (pasts i).progress.view
      m.blockHash).length
    rw [MessageLog.length_prepareSenders, hmhash, hview]
    have hvotes : (a.present.erase (a.committee.leader k)).length ≤
        ((pasts i).progress.log.preparesFor a.height k hash).length := by
      refine length_le_of_forall_exists (·.sender) (nodup_present.erase _)
        fun j hj => ?_
      obtain ⟨hne, hj⟩ := nodup_present.mem_erase_iff.1 hj
      have hvoted := h.voted quiet verifiable near leader skipped everyone hi hj hne
      exact hvoted.resolve_left (by rw [hphase]; simp)
    rw [List.length_erase_of_mem leader] at hvotes
    exact Nat.le_trans (Nat.sub_le_sub_right quorum_le_present 1) hvotes
  · exact Or.inl rfl
  · exact Or.inr rfl
  · obtain ⟨hmem, -, -⟩ := MessageLog.of_prePrepare?_eq_some hm
    exact absurd hmview (Nat.ne_of_lt ((h.trace hi).placed.lt hphase m hmem))

omit quiet verifiable near leader skipped everyone in
/-- A commit that is held was sent by its sender. -/
theorem commits_of_held (h : a.Orderly k pasts) {i : MemberId} (hi : i ∈ a.present)
    {s : Signed CommitContent}
    (hs : s ∈ (pasts i).progress.log.commitsFor a.height k hash) :
    s.sender ∈ a.present ∧ Commits pasts k hash s.sender := by
  obtain ⟨hmem, ⟨-, hview⟩, hhash⟩ := MessageLog.mem_commitsFor.1 hs
  have hgenuine := ((h.soundLog hi).commits s hmem).signed
  refine ⟨hgenuine.present, ?_⟩
  rcases hgenuine.signs with ⟨m, hsent, hc⟩ | ⟨m, -, -, hc⟩
  · rcases m with m | m | m | m | m <;>
      simp only [Message.authored, Signed.part, List.mem_cons, List.not_mem_nil, or_false, or_self,
        reduceCtorEq, Statement.commit.injEq] at hc
    exact ⟨m, hsent, hc ▸ hview, hc ▸ hhash⟩
  · exact absurd hc (by simp [Signed.part])

omit leader in
/-- A commit that was sent has arrived. -/
theorem committed_arrives (h : a.Orderly k pasts) {i j : MemberId} (hi : i ∈ a.present)
    (hj : j ∈ a.present) (hcommits : Commits pasts k hash j) :
    (pasts i).progress.phase = .committed ∨
      ∃ s ∈ (pasts i).progress.log.commitsFor a.height k hash, s.sender = j := by
  obtain ⟨s, hsent, hview, hhash⟩ := hcommits
  by_cases hij : i = j
  · subst hij
    obtain ⟨b, hb, hsender⟩ := (h.trace hi).commit_filed hsent
    rw [hview, hhash] at hb
    exact Or.inr ⟨b, hb, hsender.trans (me_term i)⟩
  · obtain ⟨recipients, hsent⟩ := hsent
    have haddresses := (h.trace hj).addressed hsent
    have hmem : i ∈ recipients := by
      rw [show recipients = a.committee.others (a.term j).me from haddresses.concerns, me_term]
      exact Committee.mem_others.2 ⟨(mem_present.1 hi).1, hij⟩
    have hheeds := h.heeded quiet verifiable near hi hj hsent hmem (Nat.le_of_eq hview)
    rcases hheeds with hleft | hdone | ⟨b, hb, hbview, hbhash⟩ |
      ⟨b, hb, ⟨hheight, hbview⟩, hbsender⟩
    · rw [hview] at hleft
      exact absurd (h.view_eq quiet hi) (Nat.ne_of_gt hleft)
    · exact Or.inl hdone
    · obtain ⟨-, hsame⟩ := h.hash_unique skipped hi hi ⟨b, hb, rfl, rfl⟩ (everyone i hi)
      exact absurd (hsame.trans hhash.symm) hbhash
    · -- the commit that is held is for the same block, since its sender has no other one
      have hcommitted := (h.soundLog hi).commits b hb
      have hbacks : (a.term b.sender).Backs (pasts b.sender).progress.log b.content.view
        b.content.blockHash := h.meant hcommitted.signed
      obtain ⟨-, hsame⟩ :=
        h.hash_unique skipped hcommitted.signed.present hi hbacks.holds (everyone i hi)
      exact Or.inr ⟨b, MessageLog.mem_commitsFor.2 ⟨hb, ⟨hheight, hbview.trans hview⟩, hsame⟩,
        hbsender.trans (haddresses.sender.trans (me_term j))⟩

/-- **A quorum has committed.**  Whoever has not has decided, and it took a quorum. -/
theorem exists_committers (h : a.Orderly k pasts) : ∃ members : List MemberId,
    (members.Nodup ∧ a.committee.quorum ≤ members.length) ∧
      ∀ j ∈ members, j ∈ a.present ∧ Commits pasts k hash j := by
  by_cases hall : ∀ j ∈ a.present, Commits pasts k hash j
  · exact ⟨a.present, ⟨nodup_present, quorum_le_present⟩, fun j hj => ⟨hj, hall j hj⟩⟩
  · obtain ⟨i, hi, hnot⟩ : ∃ i ∈ a.present, ¬Commits pasts k hash i := by
      by_contra hnone
      exact hall fun j hj => by_contra fun hj' => hnone ⟨j, hj, hj'⟩
    obtain ⟨m, hm, -, hmhash⟩ := h.exists_current quiet everyone hi
    have hview := h.view_eq quiet hi
    have hstanding := (h.trace hi).standing
    rcases h.through quiet verifiable near leader skipped everyone hi with hprepared | hdone
    · obtain ⟨m', hm', s, hs, hsender⟩ := hstanding.backed hprepared (observer_eq hi)
      obtain rfl := Option.some.inj (hm.symm.trans hm')
      rw [hmhash, hview] at hs
      have hcommits := (h.commits_of_held hi hs).2
      rw [hsender, me_term] at hcommits
      exact absurd hcommits hnot
    · obtain ⟨m', hm', hquorum⟩ := hstanding.decided hdone
      obtain rfl := Option.some.inj (hm.symm.trans hm')
      rw [hmhash, hview] at hquorum
      refine ⟨((pasts i).progress.log.commitsFor a.height k hash).map (·.sender),
        ⟨MessageLog.nodup_commitsFor (h.trace hi).placed.wellFormed, ?_⟩, fun j hj => ?_⟩
      · rw [List.length_map]
        exact hquorum
      · obtain ⟨s, hs, rfl⟩ := List.mem_map.1 hj
        exact h.commits_of_held hi hs

/-- **Everyone is done.** -/
theorem done (h : a.Orderly k pasts) {i : MemberId} (hi : i ∈ a.present) :
    (pasts i).progress.phase = .committed := by
  obtain ⟨members, ⟨hnodup, hquorum⟩, hcommits⟩ :=
    h.exists_committers quiet verifiable near leader skipped everyone
  obtain ⟨m, hm, -, hmhash⟩ := h.exists_current quiet everyone hi
  by_contra hlive
  refine absurd ((h.served _ hi).run.atRest.undecided hlive m hm) (Nat.not_lt_of_le ?_)
  rw [hmhash, h.view_eq quiet hi]
  refine Nat.le_trans hquorum
    (length_le_of_forall_exists (·.sender) hnodup fun j hj => ?_)
  obtain ⟨hj, hc⟩ := hcommits j hj
  exact (h.committed_arrives quiet verifiable near skipped everyone hi hj hc).resolve_left hlive

end Decided

end Quiet

/-- **No quorum gets stuck.**  Where the leaders of the views below `k` are silent, the leader
of view `k` is up, and votes for view `k` are kept, nothing is left to do only when every
member that is up has decided.  All decisions are of view `k`, and on one block. -/
theorem all_decide (h : a.Orderly k pasts) (quiet : a.Quiescent k pasts)
    (verifiable : a.Verifiable) (near : ∀ i ∈ a.present, k ≤ a.viewsAhead i) (word : k ≤ maxWord)
    (leader : a.committee.leader k ∈ a.present)
    (skipped : ∀ view < k, a.committee.leader view ∉ a.present) :
    ∃ hash, ∀ i ∈ a.present,
      ((pasts i).progress.phase = .committed ∧ (pasts i).progress.view = k) ∧
        (∃ d, .decide d ∈ (pasts i).requests) ∧
          ∀ d, .decide d ∈ (pasts i).requests → d.view = k ∧ d.proof.blockHash = hash := by
  have hnear : ∀ i ∈ a.present, k ≤ satAdd 0 (a.viewsAhead i) := fun i hi =>
    Nat.le_min.2 ⟨by rw [Nat.zero_add]; exact near i hi, word⟩
  obtain ⟨hash, everyone⟩ := h.exists_proposal quiet verifiable hnear leader skipped
  refine ⟨hash, fun i hi => ?_⟩
  have hdone := h.done quiet verifiable hnear leader skipped everyone hi
  refine ⟨⟨hdone, h.view_eq quiet hi⟩, (h.trace hi).exists_decision hdone, fun d hd => ?_⟩
  obtain ⟨⟨hview, -⟩, hhash⟩ :=
    h.hash_unique skipped hi hi ((h.trace hi).decision_holds hd) (everyone i hi)
  exact ⟨hview, hhash⟩

/-- With the first leader silent, everyone has decided in view `1`. -/
theorem all_decide_sample : ∃ hash, ∀ i ∈ sample.present,
    ((samplePasts i).progress.phase = .committed ∧ (samplePasts i).progress.view = 1) ∧
      (∃ d, .decide d ∈ (samplePasts i).requests) ∧
        ∀ d, .decide d ∈ (samplePasts i).requests → d.view = 1 ∧ d.proof.blockHash = hash :=
  all_decide sample_orderly sample_quiescent sample_verifiable (fun _ _ => Nat.le_refl 1)
    (by decide) (by decide) (by decide)

end Orderly

end Assembly

end CommitteeConsensus
