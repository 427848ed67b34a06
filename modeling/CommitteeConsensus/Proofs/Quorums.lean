import CommitteeConsensus.Proofs.Evidence
import Mathlib.Data.Finset.Card

/-!
# Quorums meet

Every certificate names a quorum: distinct members of the committee, as many as decide a
step (`Committee.IsQuorum`).  For a block proof and for the opening of a view these are the
senders of what is inside.  For a prepared proof it takes the leader in as well, whose
proposal is its vote and who is none of the voters.

Two quorums of one committee have more members in common than it tolerates faulty ones
(`IsQuorum.maxFaulty_lt_card_inter`), so whichever members are faulty, one that is not is in
both.
-/

namespace CommitteeConsensus

namespace Committee

/-- Distinct members, and as many as decide a step. -/
structure IsQuorum (c : Committee) (l : List MemberId) : Prop where
  nodup : l.Nodup
  subset : l ⊆ c.members
  enough : c.quorum ≤ l.length

variable {c : Committee} {l l' : List MemberId}

/-! ## What two quorums share -/

/-- Two subsets have in common what they count together beyond the whole. -/
theorem card_add_card_le {α : Type} [DecidableEq α] {whole s t : Finset α} (hs : s ⊆ whole)
    (ht : t ⊆ whole) : s.card + t.card ≤ whole.card + (s ∩ t).card := by
  have hunion := Finset.card_le_card (Finset.union_subset hs ht)
  have hcount := Finset.card_union_add_card_inter s t
  omega

/-- Sets of members that are as large as a quorum share more than are tolerated to be faulty. -/
theorem maxFaulty_lt_card_inter {s t : Finset MemberId} (hs : s ⊆ c.members.toFinset)
    (ht : t ⊆ c.members.toFinset) (enough : c.quorum ≤ s.card) (enough' : c.quorum ≤ t.card) :
    maxFaulty c.size < (s ∩ t).card := by
  have hcount := card_add_card_le hs ht
  have hsize : c.members.toFinset.card ≤ c.size := List.toFinset_card_le _
  have harith := add_maxFaulty_lt_two_quorums c.size_pos
  rw [quorum] at enough enough'
  omega

/-- **Two quorums share more members than a committee tolerates faulty ones.** -/
theorem IsQuorum.maxFaulty_lt_card_inter (h : c.IsQuorum l) (h' : c.IsQuorum l') :
    maxFaulty c.size < (l.toFinset ∩ l'.toFinset).card := by
  have hsubset : ∀ {l : List MemberId}, c.IsQuorum l → l.toFinset ⊆ c.members.toFinset :=
    fun h i hi => List.mem_toFinset.2 (h.subset (List.mem_toFinset.1 hi))
  have henough : ∀ {l : List MemberId}, c.IsQuorum l → c.quorum ≤ l.toFinset.card :=
    fun h => Nat.le_trans h.enough (Nat.le_of_eq (List.toFinset_card_of_nodup h.nodup).symm)
  exact Committee.maxFaulty_lt_card_inter (hsubset h) (hsubset h') (henough h) (henough h')

/-- **Two quorums share a member outside of any set of faulty ones.** -/
theorem IsQuorum.exists_common {faulty : Finset MemberId} (h : c.IsQuorum l)
    (h' : c.IsQuorum l') (few : faulty.card ≤ maxFaulty c.size) :
    ∃ i, (i ∈ l ∧ i ∈ l') ∧ i ∉ faulty := by
  obtain ⟨i, hi, hcorrect⟩ := Finset.exists_mem_notMem_of_card_lt_card
    (Nat.lt_of_le_of_lt few (h.maxFaulty_lt_card_inter h'))
  rw [Finset.mem_inter, List.mem_toFinset, List.mem_toFinset] at hi
  exact ⟨i, hi, hcorrect⟩

/-! ## The quorum of a certificate -/

variable {good : Part → Prop} {height : Height}

/-- The leader and the voters of a prepared proof. -/
theorem Certified.isQuorum {m : Signed PrePrepareContent} {votes : List (Signed PrepareContent)}
    (h : c.Certified good height m votes) : c.IsQuorum (m.sender :: votes.map (·.sender)) := by
  refine ⟨List.nodup_cons.2 ⟨fun hmem => ?_, h.nodup⟩, fun i hi => ?_, ?_⟩
  · -- the leader is none of the voters
    obtain ⟨s, hs, hsender⟩ := List.mem_map.1 hmem
    refine (h.voted s hs).sender_ne ?_
    rw [hsender, (h.agree s hs).1]
    exact h.proposed.sender_eq
  · rcases List.mem_cons.1 hi with rfl | hi
    · rw [h.proposed.sender_eq]
      exact c.leader_mem _
    · obtain ⟨s, hs, rfl⟩ := List.mem_map.1 hi
      exact (h.voted s hs).mem
  · have henough := h.enough
    rw [List.length_cons, List.length_map]
    omega

theorem Final.isQuorum {share : Signature → MemberId → Prop} {view : View} {hash : BlockHash}
    {commits : List (Signed CommitContent)} (h : c.Final good share height view hash commits) :
    c.IsQuorum (commits.map (·.sender)) := by
  refine ⟨h.nodup, fun i hi => ?_, ?_⟩
  · obtain ⟨s, hs, rfl⟩ := List.mem_map.1 hi
    exact (h.committed s hs).mem
  · rw [List.length_map]
    exact h.enough

theorem Justified.isQuorum {view : View} {votes : List Confirmation}
    (h : c.Justified good height view votes) : c.IsQuorum (votes.map (·.sender)) := by
  refine ⟨h.nodup, fun i hi => ?_, ?_⟩
  · obtain ⟨vote, hvote, rfl⟩ := List.mem_map.1 hi
    exact (h.asked vote hvote).mem
  · rw [List.length_map]
    exact h.enough

end Committee

end CommitteeConsensus
