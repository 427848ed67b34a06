import CommitteeConsensus.Proofs.Quorums
import Mathlib.Order.Interval.Finset.Nat

/-!
# What a committee tolerates

All arguments about a committee of `n` members with `f = maxFaulty n` faulty ones rest on two
countings.

* Sets of members are counted against the whole committee.  Two quorums have `f + 1` members in
  common, and two sets of voters, which are a quorum but for the leader that they do not contain,
  have `f` (`maxFaulty_le_card_inter_of_voters`).
* Views are counted round the committee.  In a window of `n` views, wherever it starts, no place
  of the committee comes up twice (`leader_injOn`) and each does once (`exists_leader_eq`).  So
  the leaders of `f + 1` views in a row are as many members, and one of them is not among `f`
  given ones (`exists_leader_notMem`).

Only the second counting asks for distinct members.
-/

namespace CommitteeConsensus

namespace Committee

variable {c : Committee}

/-! ## Sets of voters -/

/-- Sets of members without the leader that are a quorum with it share as many members as are
tolerated to be faulty. -/
theorem maxFaulty_le_card_inter_of_voters {leader : MemberId} {s t : Finset MemberId}
    (member : leader ∈ c.members) (hs : s ⊆ c.members.toFinset.erase leader)
    (ht : t ⊆ c.members.toFinset.erase leader) (enough : c.quorum - 1 ≤ s.card)
    (enough' : c.quorum - 1 ≤ t.card) : maxFaulty c.size ≤ (s ∩ t).card := by
  have hcount := card_add_card_le hs ht
  have herase := Finset.card_erase_add_one (List.mem_toFinset.2 member)
  have hsize : c.members.toFinset.card ≤ c.size := List.toFinset_card_le _
  have harith := add_maxFaulty_lt_two_quorums c.size_pos
  rw [quorum] at enough enough'
  omega

/-! ## Leaders of views in a row -/

/-- In a window as long as the committee, no member leads twice. -/
theorem leader_injOn (distinct : c.members.Nodup) (view : View) :
    Set.InjOn c.leader (Finset.Ico view (view + c.size)) := by
  intro v hv w hw h
  exact Nat.mod_injOn_Ico view c.size hv hw (Fin.mk.inj ((distinct.get_inj_iff).1 h))

/-- In a window as long as the committee, every member leads. -/
theorem exists_leader_eq (view : View) {member : MemberId} (h : member ∈ c.members) :
    ∃ v ∈ Finset.Ico view (view + c.size), c.leader v = member := by
  obtain ⟨i, hi, rfl⟩ := List.getElem_of_mem h
  have hplace : i ∈ (Finset.Ico view (view + c.size)).image (· % c.size) := by
    rw [Nat.image_Ico_mod]
    exact Finset.mem_range.2 hi
  obtain ⟨v, hv, rfl⟩ := Finset.mem_image.1 hplace
  exact ⟨v, hv, rfl⟩

/-- More views in a row than there are faulty members, and no more than there are members, have
a leader that is not faulty. -/
theorem exists_leader_notMem (distinct : c.members.Nodup) (view : View) {faulty : Finset MemberId}
    {f : Nat} (few : faulty.card ≤ f) (enough : f + 1 ≤ c.size) :
    ∃ v ∈ Finset.Ico view (view + (f + 1)), c.leader v ∉ faulty := by
  have hwindow : Finset.Ico view (view + (f + 1)) ⊆ Finset.Ico view (view + c.size) :=
    Finset.Ico_subset_Ico_right (Nat.add_le_add_left enough view)
  have hmore : faulty.card < ((Finset.Ico view (view + (f + 1))).image c.leader).card := by
    rw [Finset.card_image_of_injOn ((leader_injOn distinct view).mono
      (Finset.coe_subset.2 hwindow)), Nat.card_Ico, Nat.add_sub_cancel_left]
    exact Nat.lt_succ_of_le few
  obtain ⟨i, hi, hcorrect⟩ := Finset.exists_mem_notMem_of_card_lt_card hmore
  obtain ⟨v, hv, rfl⟩ := Finset.mem_image.1 hi
  exact ⟨v, hv, hcorrect⟩

/-! ## The bounds together -/

/-- **A committee of any size bears its faulty members.**  Let `f` be `maxFaulty` of its size.

* A quorum has more than twice `f` members, and the committee has as many.
* Two sets of members as large as a quorum share `f + 1` of them.
* Two sets without a given member that are as large as a quorum but for one share `f` members.
* Of as many views in a row as there are members, each member leads exactly one.  Of one view in a
  row more than a set may have members, and no more than the committee has, one has a leader
  outside of the set.  The first of these views may be any. -/
theorem bears_faults (c : Committee) (distinct : c.members.Nodup) :
    (quorumOf c.size = .ok c.quorum ∧ 2 * maxFaulty c.size + 1 ≤ c.quorum ∧
      c.quorum ≤ c.size) ∧
    (∀ s t : Finset MemberId, s ⊆ c.members.toFinset → t ⊆ c.members.toFinset →
      c.quorum ≤ s.card → c.quorum ≤ t.card → maxFaulty c.size + 1 ≤ (s ∩ t).card) ∧
    (∀ leader ∈ c.members, ∀ s t : Finset MemberId, s ⊆ c.members.toFinset.erase leader →
      t ⊆ c.members.toFinset.erase leader → c.quorum - 1 ≤ s.card → c.quorum - 1 ≤ t.card →
        maxFaulty c.size ≤ (s ∩ t).card) ∧
    ∀ view : View,
      (∀ member ∈ c.members, ∃! v, (view ≤ v ∧ v < view + c.size) ∧
        leaderOf c.members v = .ok member) ∧
      ∀ (faulty : Finset MemberId) (f : Nat), faulty.card ≤ f → f + 1 ≤ c.size →
        ∃ v leader, (view ≤ v ∧ v < view + (f + 1)) ∧
          leaderOf c.members v = .ok leader ∧ leader ∉ faulty := by
  refine ⟨⟨quorumOf_size c, two_mul_maxFaulty_lt_quorumSize c.size_pos, quorumSize_le _⟩,
    fun s t hs ht henough henough' => maxFaulty_lt_card_inter hs ht henough henough',
    fun leader hleader s t hs ht henough henough' =>
      maxFaulty_le_card_inter_of_voters hleader hs ht henough henough',
    fun view => ⟨fun member hmember => ?_, fun faulty f hfew henough => ?_⟩⟩
  · obtain ⟨v, hv, rfl⟩ := exists_leader_eq view hmember
    refine ⟨v, ⟨Finset.mem_Ico.1 hv, leaderOf_members c v⟩, ?_⟩
    rintro w ⟨hw, hleader⟩
    rw [leaderOf_members] at hleader
    exact leader_injOn distinct view (Finset.mem_coe.2 (Finset.mem_Ico.2 hw)) hv
      (Except.ok.inj hleader)
  · obtain ⟨v, hv, hcorrect⟩ := exists_leader_notMem distinct view hfew henough
    exact ⟨v, c.leader v, Finset.mem_Ico.1 hv, leaderOf_members c v, hcorrect⟩

/-- Seven members, in no order. -/
def septet : Committee := ⟨[7, 3, 5, 9, 1, 8, 2], by decide⟩

/-- Each bound is met exactly: by two quorums, by two sets of voters beside the leader `7`, and in
the last window of seven 64-bit views, whose first leaders are `5`, `9` and `1`. -/
theorem bears_faults_septet :
    (septet.members.Nodup ∧ quorumOf septet.size = .ok 5 ∧ maxFaulty septet.size = 2) ∧
      3 ≤ (({7, 3, 5, 9, 1} : Finset MemberId) ∩ {5, 9, 1, 8, 2}).card ∧
      2 ≤ (({3, 5, 9, 1} : Finset MemberId) ∩ {9, 1, 8, 2}).card ∧
      (∃! v, (2 ^ 64 - 7 ≤ v ∧ v < 2 ^ 64 - 7 + septet.size) ∧
        leaderOf septet.members v = .ok 7) ∧
      ∃ v leader, (2 ^ 64 - 7 ≤ v ∧ v < 2 ^ 64 - 7 + (2 + 1)) ∧
        leaderOf septet.members v = .ok leader ∧ leader ∉ ({5, 9} : Finset MemberId) := by
  have hdistinct : septet.members.Nodup := by decide
  obtain ⟨⟨hquorum, -⟩, hquorums, hvoters, hviews⟩ := bears_faults septet hdistinct
  obtain ⟨hleads, hcorrect⟩ := hviews (2 ^ 64 - 7)
  refine ⟨⟨hdistinct, hquorum, by decide⟩, ?_, ?_, hleads 7 (by decide), ?_⟩
  · exact hquorums _ _ (by decide) (by decide) (by decide) (by decide)
  · exact hvoters 7 (by decide) _ _ (by decide) (by decide) (by decide) (by decide)
  · exact hcorrect {5, 9} 2 (by decide) (by decide)

end Committee

end CommitteeConsensus
