import CommitteeConsensus.Proofs.Agreement
import CommitteeConsensus.Proofs.Discipline

/-!
# What a leader proposes

A leader signs proposals in two ways.  In the first view it broadcasts the block that its
host built, unless it has a proposal for that view.  And it opens a view with a block,
which it either takes from the requests for that view or has its host build.  In the
second way nobody looks whether the view has a proposal, and for views above the first
there is no need to: no proposal of such a view is the leader's own, unless the leader has
taken the view on, and a view is taken on once (`Standing.led`).

The first view is different.  It is there without being opened, but a request for it is
like any other, and if a quorum asks for it, it is opened after all.  So a leader that has
proposed a block may sign another one for the same view (`doubledPast`).  It does not file
the second one; but what it has sent it has sent.

This is all there is to it.  Two proposals that a member signs for one view are for the same
block, unless it is the first view and a quorum of other members asked for that; and then
there are two of them, of which one was sent as a plain proposal and the other in an
opening (`Run.proposals_agree`).  No term ever asks for the first view.  So as long as few
members are faulty, no member that is a term signs two blocks for one view
(`Assembly.Reachable.proposals_unique`).
-/

namespace CommitteeConsensus

namespace Past

/-- A proposal was signed, and sent by itself or in the opening of a view. -/
def Proposes (past : Past) (c : PrePrepareContent) : Prop :=
  ∃ m, past.Sent m ∧ Statement.prePrepare c ∈ m.authored

theorem Proposes.cases {past : Past} {c : PrePrepareContent} (h : past.Proposes c) :
    (∃ m, past.Sent (.prePrepare m) ∧ m.signed.content = c) ∨
      ∃ n, past.Sent (.newView n) ∧ n.prePrepare.signed.content = c := by
  obtain ⟨m, hm, hc⟩ := h
  rcases m with m | s | s | m | n <;>
    simp only [Message.authored, List.mem_cons, List.not_mem_nil, or_false, or_self, reduceCtorEq,
      false_or, Statement.prePrepare.injEq] at hc
  · exact Or.inl ⟨m, hm, hc.symm⟩
  · exact Or.inr ⟨n, hm, hc.symm⟩

end Past

namespace Term

variable {t : Term} {past : Past} {c c' : PrePrepareContent}

/-! ## Requests for the first view -/

/-- A quorum of distinct members, none of which is the member itself, asked for the first
view. -/
def AskedAnew (t : Term) (past : Past) : Prop :=
  ∃ asked : List ViewChange, t.committee.quorum ≤ asked.length ∧ (asked.map (·.sender)).Nodup ∧
    ∀ m ∈ asked, (m.view = 0 ∧ .message (.viewChange m) ∈ past.taken) ∧
      m.sender ∈ t.committee.members ∧ m.sender ≠ t.me

/-- A request of another member that is filed was taken in. -/
theorem Trace.taken_of_viewChange (h : t.Trace past) {m : ViewChange}
    (hm : m ∈ past.progress.log.viewChanges) (other : m.sender ≠ t.me) :
    .message (.viewChange m) ∈ past.taken := by
  induction h with
  | fresh => exact absurd hm List.not_mem_nil
  | act trace permits rest act ih =>
    rcases act.viewChanges hm with hold | ⟨⟨rfl, -⟩, -⟩ | rfl
    · exact List.mem_append_left _ (ih hold)
    · exact absurd rfl other
    · exact List.mem_append_right _ List.mem_cons_self
  | consequence trace consequence ih => exact ih (consequence.viewChanges_eq ▸ hm)

/-- Whoever asks for the first view is another member. -/
theorem Trace.askedAnew (h : t.Trace past)
    (quorum : t.committee.quorum ≤ (past.progress.log.viewChangesFor t.height 0).length) :
    t.AskedAnew past := by
  refine ⟨_, quorum, MessageLog.nodup_viewChangesFor h.placed.wellFormed, fun m hm => ?_⟩
  obtain ⟨hmem, -, hview⟩ := MessageLog.mem_viewChangesFor.1 hm
  obtain ⟨hmember, hreached⟩ := h.standing.asked m hmem
  have hother : m.sender ≠ t.me := by
    intro hme
    exact absurd hview (Nat.ne_of_gt (hreached hme).1)
  exact ⟨⟨hview, h.taken_of_viewChange hmem hother⟩, hmember, hother⟩

/-! ## Two proposals of one view -/

/-- A proposal that is signed is filed, unless the first view is opened again. -/
theorem Trace.holds_of_proposes (h : t.Trace past) (hc : past.Proposes c) :
    past.progress.log.Holds c.view c.blockHash ∨
      c.view = 0 ∧ t.committee.quorum ≤ (past.progress.log.viewChangesFor t.height 0).length := by
  obtain ⟨m, hm, hmem⟩ := hc
  exact h.meant (s := .prePrepare c) (Or.inl ⟨m, hm, hmem⟩)

/-- Two blocks are proposed in one view only if it is the first one, and a quorum asked
for it. -/
theorem Trace.blockHash_eq_or (h : t.Trace past) (hc : past.Proposes c) (hc' : past.Proposes c')
    (view : c.view = c'.view) : c.blockHash = c'.blockHash ∨
      c.view = 0 ∧ t.committee.quorum ≤ (past.progress.log.viewChangesFor t.height 0).length := by
  rcases h.holds_of_proposes hc with hholds | hanew
  · rcases h.holds_of_proposes hc' with hholds' | ⟨hzero, hquorum⟩
    · rw [← view] at hholds'
      exact Or.inl (h.placed.holds_unique hholds hholds')
    · exact Or.inr ⟨view.trans hzero, hquorum⟩
  · exact Or.inr hanew

/-! ### The messages that carry them -/

/-- The proposal in an opening is of the view that is opened. -/
theorem Trace.view_of_opening (h : t.Trace past) {n : NewView} (hn : past.Sent (.newView n)) :
    n.prePrepare.view = n.signed.content.view := by
  obtain ⟨recipients, hn⟩ := hn
  -- what is sound under any reading is well-formed
  have htrusts : t.Trusts (signing fun _ => True) past :=
    trusts_signing (fun _ _ _ _ _ _ => trivial) fun _ _ => trivial
  have hopens : t.Opens (signing fun _ => True) n := (h.sound htrusts).2.sent recipients _ hn
  exact hopens.view_eq

/-- Messages of one kind and view are the same. -/
theorem Trace.eq_of_slot (h : t.Trace past) {m m' : Message} (hm : past.Sent m)
    (hm' : past.Sent m') (slot : m.slot = m'.slot) : m = m' :=
  List.inj_on_of_nodup_map h.record.distinct (Past.mem_messages.2 hm) (Past.mem_messages.2 hm') slot

/-- Two proposals of one view that differ were sent in messages of different kinds. -/
theorem Trace.plain_and_opening (h : t.Trace past) (hc : past.Proposes c) (hc' : past.Proposes c')
    (view : c.view = c'.view) (differ : c ≠ c') :
    ∃ m n, (past.Sent (.prePrepare m) ∧ past.Sent (.newView n)) ∧
      (m.signed.content = c ∧ n.prePrepare.signed.content = c' ∨
        m.signed.content = c' ∧ n.prePrepare.signed.content = c) := by
  rcases hc.cases with ⟨m, hm, rfl⟩ | ⟨n, hn, rfl⟩ <;>
    rcases hc'.cases with ⟨m', hm', rfl⟩ | ⟨n', hn', rfl⟩
  · have hsame : Message.prePrepare m = .prePrepare m' :=
      h.eq_of_slot hm hm' (Prod.ext rfl view)
    rw [Message.prePrepare.inj hsame] at differ
    exact absurd rfl differ
  · exact ⟨m, n', ⟨hm, hn'⟩, Or.inl ⟨rfl, rfl⟩⟩
  · exact ⟨m', n, ⟨hm', hn⟩, Or.inr ⟨rfl, rfl⟩⟩
  · have hopened : n.signed.content.view = n'.signed.content.view := by
      rw [← h.view_of_opening hn, ← h.view_of_opening hn']
      exact view
    have hsame : Message.newView n = .newView n' :=
      h.eq_of_slot hn hn' (Prod.ext rfl hopened)
    rw [Message.newView.inj hsame] at differ
    exact absurd rfl differ

/-! ## Main results -/

/-- **A leader proposes one block for a view**, unless a quorum of other members asked it to
open the first view.  In that case one of the two proposals was sent as a plain one, and
the other in the opening of the view. -/
theorem Run.proposals_agree (run : t.Run past) (hc : past.Proposes c) (hc' : past.Proposes c')
    (view : c.view = c'.view) : c.blockHash = c'.blockHash ∨
      (c.view = 0 ∧ t.AskedAnew past) ∧
        ∃ m n, (past.Sent (.prePrepare m) ∧ past.Sent (.newView n)) ∧
          (m.signed.content = c ∧ n.prePrepare.signed.content = c' ∨
            m.signed.content = c' ∧ n.prePrepare.signed.content = c) := by
  by_cases hsame : c.blockHash = c'.blockHash
  · exact Or.inl hsame
  · right
    have hdiffer : c ≠ c' := by
      rintro rfl
      exact hsame rfl
    rcases run.trace.blockHash_eq_or hc hc' view with heq | ⟨hzero, hquorum⟩
    · exact absurd heq hsame
    · exact ⟨⟨hzero, run.trace.askedAnew hquorum⟩,
        run.trace.plain_and_opening hc hc' view hdiffer⟩

/-- A block that is not `Assembly.sampleBlock`, with its hash. -/
def otherBlock : Block × BlockHash := (⟨1, [8]⟩, Assembly.plainHash ⟨1, [8]⟩)

/-- What the leader of the first view is given: the block that it asked for, requests of all
others for the first view, and another block. -/
def doublingScript : List Stimulus :=
  [.start, .event (.proposalBuilt 0 (some Assembly.sampleBlock)),
    .message (.viewChange (Assembly.requestBy 1 0)),
    .message (.viewChange (Assembly.requestBy 2 0)),
    .message (.viewChange (Assembly.requestBy 3 0)),
    .event (.proposalBuilt 0 (some otherBlock))]

/-- The leader of the first view after that. -/
def doubledPast : Past := (Assembly.sample.term 0).play doublingScript

/-- The opening of the first view with the other block. -/
def doublingOpening : NewView :=
  (Assembly.sample.term 0).opening 0 otherBlock.1 otherBlock.2
    ([1, 2, 3].map fun i => (Assembly.requestBy i 0).signed)

/-- The leader asked for both blocks, and has sent both. -/
theorem doubled :
    (doubledPast.taken = doublingScript ∧ doubledPast.requests.count (.buildProposal 0) = 2) ∧
      Request.send [1, 2, 3] (.prePrepare (Assembly.proposalBy 0 0)) ∈ doubledPast.requests ∧
        Request.send [1, 2, 3] (.newView doublingOpening) ∈ doubledPast.requests := by
  decide +kernel

/-- **A leader may sign two blocks for the first view.**  The host did its work and answered
each of the two requests to build a block, and no message was the leader's own. -/
theorem not_proposals_unique :
    (Assembly.sample.term 0).Served doubledPast ∧
      (doubledPast.taken = doublingScript ∧ doubledPast.requests.count (.buildProposal 0) = 2) ∧
        ∃ c c' : PrePrepareContent, (doubledPast.Proposes c ∧ doubledPast.Proposes c') ∧
          (c.view = 0 ∧ c'.view = 0) ∧ c.blockHash ≠ c'.blockHash := by
  obtain ⟨hscript, hplain, hopening⟩ := doubled
  refine ⟨served_play _, hscript, (Assembly.proposalBy 0 0).signed.content,
    doublingOpening.prePrepare.signed.content, ⟨?_, ?_⟩, ⟨rfl, rfl⟩, by decide +kernel⟩
  · exact ⟨_, ⟨_, hplain⟩, List.mem_cons_self⟩
  · exact ⟨_, ⟨_, hopening⟩, List.mem_cons_of_mem _ List.mem_cons_self⟩

/-- The leader was asked to open the first view by a quorum. -/
theorem proposals_agree_sample :
    (∃ c c', (doubledPast.Proposes c ∧ doubledPast.Proposes c') ∧ c.view = c'.view ∧
      c.blockHash ≠ c'.blockHash) ∧ (Assembly.sample.term 0).AskedAnew doubledPast := by
  obtain ⟨-, hplain, hopening⟩ := doubled
  have hrun : (Assembly.sample.term 0).Run doubledPast := run_play _
  have hc : doubledPast.Proposes (Assembly.proposalBy 0 0).signed.content :=
    ⟨_, ⟨_, hplain⟩, List.mem_cons_self⟩
  have hc' : doubledPast.Proposes doublingOpening.prePrepare.signed.content :=
    ⟨_, ⟨_, hopening⟩, List.mem_cons_of_mem _ List.mem_cons_self⟩
  have hdiffer : (Assembly.proposalBy 0 0).signed.content.blockHash ≠
      doublingOpening.prePrepare.signed.content.blockHash := by
    decide +kernel
  refine ⟨⟨_, _, ⟨hc, hc'⟩, rfl, hdiffer⟩, ?_⟩
  rcases Run.proposals_agree hrun hc hc' rfl with hsame | ⟨⟨-, hasked⟩, -⟩
  · exact absurd hsame hdiffer
  · exact hasked

end Term

namespace Assembly

variable {a : Assembly} {pasts : MemberId → Past}

/-- **As long as few members are faulty, no correct member signs two blocks for one view.** -/
theorem Reachable.proposals_unique (h : a.Reachable pasts) (i : MemberId) {c c' : PrePrepareContent}
    (hc : (pasts i).Proposes c) (hc' : (pasts i).Proposes c') (view : c.view = c'.view) :
    c.blockHash = c'.blockHash := by
  rcases (h.run i).trace.blockHash_eq_or hc hc' view with hsame | ⟨-, hquorum⟩
  · exact hsame
  · exact absurd hquorum (h.not_quorum_zero i)

end Assembly

end CommitteeConsensus
