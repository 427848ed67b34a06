import CommitteeConsensus.Proofs.Standing

/-!
# What a member's signature means

A member that signs something has a reason in its log, and the reason stays there.
Whoever votes holds the proposal it votes for, and so does whoever proposes; a commit
has the votes of a quorum behind it.  The log holds one proposal for each view, so a
member never speaks for two blocks in one view.

The one statement about the past is the request for a view: its proof covers every
view in which the member saw a quorum of votes (`Term.Covers`).  It stays true, because
in views that were left nothing is filed any more.

A leader may propose two blocks in the first view, if a quorum asks for that view.  No
member ever does, so the exception is void as soon as most members are themselves
terms.
-/

namespace CommitteeConsensus

/-- A proposal with this hash is filed for a view. -/
def MessageLog.Holds (log : MessageLog) (view : View) (hash : BlockHash) : Prop :=
  ∃ m ∈ log.prePrepares, m.view = view ∧ m.blockHash = hash

theorem MessageLog.Grows.holds {log log' : MessageLog} (h : log.Grows log') {view : View}
    {hash : BlockHash} (hholds : log.Holds view hash) : log'.Holds view hash := by
  obtain ⟨m, hm, hview⟩ := hholds
  exact ⟨m, h.prePrepares.subset hm, hview⟩

namespace Term

/-- A member holds one proposal for each view. -/
theorem Placed.holds_unique {t : Term} {p : Progress} (h : t.Placed p) {view : View}
    {hash hash' : BlockHash} (hh : p.log.Holds view hash) (hh' : p.log.Holds view hash') :
    hash = hash' := by
  obtain ⟨m, hm, hview, rfl⟩ := hh
  obtain ⟨m', hm', hview', rfl⟩ := hh'
  have hkey : MessageLog.prePrepareKey m = MessageLog.prePrepareKey m' := by
    rw [MessageLog.prePrepareKey, MessageLog.prePrepareKey, h.height m hm, h.height m' hm', hview,
      hview']
  rw [List.inj_on_of_nodup_map h.wellFormed.prePrepares hm hm' hkey]

/-- A proposal is filed together with the votes of a quorum. -/
structure Backs (t : Term) (log : MessageLog) (view : View) (hash : BlockHash) : Prop where
  holds : log.Holds view hash
  votes : t.committee.quorum - 1 ≤ (log.preparesFor t.height view hash).length

theorem Backs.mono {t : Term} {log log' : MessageLog} {view : View} {hash : BlockHash}
    (h : t.Backs log view hash) (grows : log.Grows log') : t.Backs log' view hash :=
  ⟨grows.holds h.holds, Nat.le_trans h.votes grows.preparesFor.length_le⟩

/-- The proof in a request for a view is at least as high as any lower view in which a
quorum voted. -/
def Covers (t : Term) (log : MessageLog) (c : ViewChangeContent) : Prop :=
  ∀ view hash, view < c.view → t.Backs log view hash →
    ∃ proof m, c.preparedProof = some proof ∧ proof.prePrepare = some m ∧ view ≤ m.content.view

/-- What a member signs when it moves from one progress to another. -/
inductive Speech (t : Term) (p q : Progress) : Statement → Prop where
  | propose {view : View} {hash : BlockHash} (leads : t.leads view = true)
    (filed : q.log.Holds view hash ∨
      view = 0 ∧ t.committee.quorum ≤ (q.log.viewChangesFor t.height 0).length) :
    Speech t p q (.prePrepare ⟨t.height, view, hash⟩)
  | vote {view : View} {hash : BlockHash} (filed : q.log.Holds view hash) :
    Speech t p q (.prepare ⟨t.height, view, hash⟩)
  | commit {view : View} {hash : BlockHash} {share : Signature}
    (backs : t.Backs p.log view hash) :
    Speech t p q (.commit ⟨t.height, view, hash, share⟩)
  | ask (moved : q = t.elapsed p) : Speech t p q (.viewChange (t.nextRequest p).signed.content)
  | opening {c : NewViewContent} : Speech t p q (.newView c)

variable {t : Term} {p q : Progress} {rs : List Request} {stimulus : Stimulus}

/-! ## Speaking -/

theorem holds_install {m : PrePrepare} (vacant : ∀ b ∈ p.log.prePrepares, b.view ≠ m.view) :
    (p.install m).progress.log.Holds m.view m.blockHash := by
  rw [Progress.install]
  split
  · next hnone =>
    refine absurd (MessageLog.prePrepare?_eq_none_iff.2 fun b hb hkey => ?_)
      (MessageLog.storePrePrepare?_eq_none_iff.1 hnone)
    exact vacant b hb hkey.2
  · next log hlog => exact ⟨m, (MessageLog.mem_storePrePrepare? hlog).2 (Or.inl rfl), rfl, rfl⟩

/-- A leader that opens a view files the proposal, unless the first view is opened again. -/
theorem speech_opening {p₀ p : Progress} {view : View} {block : Block} {hash : BlockHash}
    {votes : List Confirmation} (leads : t.leads view = true)
    (vacant : view = 0 ∧ t.committee.quorum ≤ (p.log.viewChangesFor t.height 0).length ∨
      ∀ m ∈ p.log.prePrepares, m.view ≠ view) :
    ∀ s ∈ (Message.newView (t.opening view block hash votes)).authored,
      t.Speech p₀ (p.install (t.keys.prePrepare t.height view block hash)).progress s := by
  intro s hs
  simp only [Message.authored, List.mem_cons, List.not_mem_nil, or_false] at hs
  rcases hs with rfl | rfl
  · exact .opening
  · refine .propose leads ?_
    rcases vacant with ⟨hzero, hquorum⟩ | hvacant
    · exact Or.inr ⟨hzero, Nat.le_trans hquorum
        (grows_install p _).viewChangesFor.length_le⟩
    · exact Or.inl (holds_install (m := t.keys.prePrepare t.height view block hash) hvacant)

/-- What is sent in an act. -/
theorem Act.speech (h : t.Act stimulus p rs q) (standing : t.Standing p)
    {recipients : List MemberId} {m : Message} (hm : .send recipients m ∈ rs) :
    ∀ s ∈ m.authored, t.Speech p q s := by
  cases h with
  | ignore | release | keepPrepare | keepCommit | keepViewChange =>
    exact absurd hm List.not_mem_nil
  | start => rcases mem_start hm with h | ⟨-, h⟩ <;> exact absurd h (by simp)
  | examine => exact absurd (List.mem_singleton.1 hm) (by simp)
  | follow => simp at hm
  | @approve _ b log live view validating stored =>
    rcases List.mem_cons.1 hm with hm | hm
    · exact absurd hm (by simp)
    · obtain ⟨-, hm⟩ := mem_voteFor hm
      obtain ⟨-, rfl⟩ := Request.send.inj hm
      intro s hs
      rw [List.mem_singleton.1 hs]
      refine .vote ((grows_voteFor _ b).holds ⟨b, ?_, rfl, rfl⟩)
      exact (MessageLog.mem_storePrePrepare? stored).2 (Or.inl rfl)
  | @propose _ block hash live leads pending view vacant =>
    rcases List.mem_cons.1 hm with hm | hm
    · obtain ⟨-, rfl⟩ := Request.send.inj hm
      intro s hs
      rw [List.mem_singleton.1 hs]
      refine .propose leads (Or.inl ?_)
      rw [Progress.install]
      split
      · next hnone => exact absurd vacant (MessageLog.storePrePrepare?_eq_none_iff.1 hnone)
      · next log hlog => exact ⟨_, (MessageLog.mem_storePrePrepare? hlog).2 (Or.inl rfl), rfl, rfl⟩
    · exact absurd (mem_install hm) (by simp)
  | @openPending _ block hash votes live leads pending =>
    rcases List.mem_cons.1 hm with hm | hm
    · obtain ⟨-, rfl⟩ := Request.send.inj hm
      exact speech_opening leads (standing.pending _ votes pending).2
    · exact absurd (mem_install hm) (by simp)
  | watch => exact absurd (List.mem_singleton.1 hm) (by simp)
  | elapse =>
    rcases List.mem_cons.1 hm with hm | hm
    · exact absurd hm (by simp)
    · split at hm
      · exact absurd hm List.not_mem_nil
      · obtain ⟨-, rfl⟩ := Request.send.inj (List.mem_singleton.1 hm)
        intro s hs
        rw [List.mem_singleton.1 hs]
        exact .ask rfl

/-- What is sent in a consequence. -/
theorem Consequence.speech (h : t.Consequence p rs q) (standing : t.Standing p)
    {recipients : List MemberId} {m : Message} (hm : .send recipients m ∈ rs) :
    ∀ s ∈ m.authored, t.Speech p q s := by
  cases h with
  | @repropose view block hash claims obliged =>
    rcases List.mem_append.1 hm with hm | hm
    · exact absurd (mem_arming hm) (by simp)
    · rcases List.mem_cons.1 hm with hm | hm
      · obtain ⟨-, rfl⟩ := Request.send.inj hm
        refine speech_opening claims.leads ?_
        rw [Progress.log_claim]
        exact standing.vacant claims
      · exact absurd (mem_install hm) (by simp)
  | await =>
    rcases List.mem_append.1 hm with hm | hm
    · exact absurd (mem_arming hm) (by simp)
    · exact absurd (List.mem_singleton.1 hm) (by simp)
  | @commit b phase proposal quorum =>
    obtain ⟨-, hm⟩ := mem_commitTo hm
    obtain ⟨-, rfl⟩ := Request.send.inj hm
    intro s hs
    rw [List.mem_singleton.1 hs]
    obtain ⟨hmem, -, hview⟩ := MessageLog.of_prePrepare?_eq_some proposal
    rw [MessageLog.length_prepareSenders] at quorum
    exact .commit ⟨⟨b, hmem, hview, rfl⟩, quorum⟩
  | decide => simp at hm

/-- Requests for a view are taken in, or are the own ones. -/
theorem Act.viewChanges (h : t.Act stimulus p rs q) {m : ViewChange}
    (hm : m ∈ q.log.viewChanges) :
    m ∈ p.log.viewChanges ∨ ((m = t.nextRequest p ∧ q = t.elapsed p) ∧
      stimulus = .event (.electionTimeout p.view)) ∨ stimulus = .message (.viewChange m) := by
  cases h with
  | ignore | start | examine | release => exact Or.inl hm
  | follow | watch =>
    left
    rwa [← p.log_reach]
  | approve live view validating stored =>
    rw [viewChanges_voteFor] at hm
    obtain ⟨-, rfl⟩ := MessageLog.storePrePrepare?_eq_some.1 stored
    exact Or.inl hm
  | propose =>
    rw [viewChanges_install] at hm
    exact Or.inl hm
  | openPending =>
    rw [viewChanges_install] at hm
    exact Or.inl hm
  | elapse =>
    rcases MessageLog.mem_withViewChange hm with rfl | hm
    · exact Or.inr (Or.inl ⟨⟨rfl, rfl⟩, rfl⟩)
    · exact Or.inl hm
  | keepPrepare =>
    rw [MessageLog.viewChanges_withPrepare] at hm
    exact Or.inl hm
  | keepCommit =>
    rw [MessageLog.viewChanges_withCommit] at hm
    exact Or.inl hm
  | keepViewChange live current near leads admits stored =>
    rw [MessageLog.storeViewChange?_eq_some stored] at hm
    rcases MessageLog.mem_withViewChange hm with rfl | hm
    · exact Or.inr (Or.inr rfl)
    · exact Or.inl hm

/-- What is signed after an act was signed before, or is said in the act. -/
theorem Act.signs {past : Past} (h : t.Act stimulus past.progress rs q)
    (permits : t.Permits past stimulus) (standing : t.Standing past.progress) {s : Statement}
    (hs : (past.acted stimulus rs q).Signs t.me s) :
    past.Signs t.me s ∨ t.Speech past.progress q s := by
  rcases hs with ⟨m, ⟨recipients, hm⟩, hs⟩ | ⟨m, hm, hme, rfl⟩
  · rcases List.mem_append.1 hm with hm | hm
    · exact Or.inl (Or.inl ⟨m, ⟨recipients, hm⟩, hs⟩)
    · exact Or.inr (h.speech standing hm s hs)
  · rcases h.viewChanges hm with hm | ⟨⟨rfl, hmoved⟩, -⟩ | rfl
    · exact Or.inl (Or.inr ⟨m, hm, hme, rfl⟩)
    · exact Or.inr (.ask hmoved)
    · exact absurd hme permits.2

theorem Consequence.signs {past : Past} (h : t.Consequence past.progress rs q)
    (standing : t.Standing past.progress) {s : Statement}
    (hs : (past.settled rs q).Signs t.me s) :
    past.Signs t.me s ∨ t.Speech past.progress q s := by
  rcases hs with ⟨m, ⟨recipients, hm⟩, hs⟩ | ⟨m, hm, hme, rfl⟩
  · rcases List.mem_append.1 hm with hm | hm
    · exact Or.inl (Or.inl ⟨m, ⟨recipients, hm⟩, hs⟩)
    · exact Or.inr (h.speech standing hm s hs)
  · exact Or.inl (Or.inr ⟨m, h.viewChanges_eq ▸ hm, hme, rfl⟩)

/-! ## Meaning -/

/-- What a signed statement says about the log of its sender. -/
def Meant (t : Term) (p : Progress) : Statement → Prop
  | .prePrepare c => p.log.Holds c.view c.blockHash ∨
    c.view = 0 ∧ t.committee.quorum ≤ (p.log.viewChangesFor t.height 0).length
  | .prepare c => p.log.Holds c.view c.blockHash
  | .commit c => t.Backs p.log c.view c.blockHash
  | .viewChange c => (0 < c.view ∧ c.view ≤ p.view) ∧ t.Covers p.log c
  | .newView _ => True

/-- What is said is meant. -/
theorem Speech.meant {s : Statement} (h : t.Speech p q s) (hgrows : p.log.Grows q.log)
    (placed : t.Placed p) : t.Meant q s := by
  cases h with
  | propose _ filed => exact filed
  | vote filed => exact filed
  | commit backs => exact backs.mono hgrows
  | ask moved =>
    subst moved
    refine ⟨⟨Nat.succ_pos _, Nat.le_of_eq (p.view_reach (Nat.le_succ _)).symm⟩, ?_⟩
    rintro view hash - ⟨⟨m, hm, rfl, rfl⟩, hvotes⟩
    rw [elapsed, MessageLog.prePrepares_withViewChange] at hm
    rw [elapsed, MessageLog.preparesFor, MessageLog.prepares_withViewChange] at hvotes
    rcases hprepared : p.log.prepared? t.height t.committee.quorum with _ | proof
    · exact absurd hvotes (Nat.not_le_of_lt
        (MessageLog.prepared?_eq_none hprepared hm (placed.height m hm)))
    · obtain ⟨-, -, hhighest⟩ := MessageLog.prepared?_eq_some placed.wellFormed hprepared
      refine ⟨⟨some proof.prePrepare.signed, proof.prepares⟩, proof.prePrepare.signed, ?_, rfl,
        hhighest m hm (placed.height m hm) hvotes⟩
      show (p.log.prepared? t.height t.committee.quorum).map _ = _
      rw [hprepared]
      rfl
  | opening => trivial

/-- What is meant stays so as long as nothing is filed in views that were left. -/
theorem Meant.mono {s : Statement} (h : t.Meant p s) (hgrows : p.log.Grows q.log)
    (hview : p.view ≤ q.view)
    (hfiled : ∀ b ∈ q.log.prePrepares, b ∈ p.log.prePrepares ∨ b.view = q.view)
    (hvotes : ∀ view hash, view < p.view →
      q.log.preparesFor t.height view hash = p.log.preparesFor t.height view hash) :
    t.Meant q s := by
  rcases s with c | c | c | c | c
  · exact h.imp hgrows.holds (And.imp_right fun hq =>
      Nat.le_trans hq hgrows.viewChangesFor.length_le)
  · exact hgrows.holds h
  · exact Backs.mono h hgrows
  · obtain ⟨⟨hpos, hle⟩, hcovers⟩ := h
    refine ⟨⟨hpos, Nat.le_trans hle hview⟩, fun view hash hlt hbacks => ?_⟩
    have hleft : view < p.view := Nat.lt_of_lt_of_le hlt hle
    refine hcovers view hash hlt ⟨?_, hvotes view hash hleft ▸ hbacks.votes⟩
    obtain ⟨m, hm, hmview, hmhash⟩ := hbacks.holds
    rcases hfiled m hm with hold | hnew
    · exact ⟨m, hold, hmview, hmhash⟩
    · have hlt' : q.view < p.view := hnew ▸ hmview ▸ hleft
      exact absurd hview (Nat.not_le_of_lt hlt')
  · trivial

/-- **What a member signs, it means**, then and ever after. -/
theorem Trace.meant {past : Past} (h : t.Trace past) {s : Statement}
    (hs : past.Signs t.me s) : t.Meant past.progress s := by
  induction h with
  | fresh =>
    rcases hs with ⟨m, ⟨recipients, hm⟩, -⟩ | ⟨m, hm, -⟩
    · exact absurd hm List.not_mem_nil
    · exact absurd hm List.not_mem_nil
  | act trace permits rest act ih =>
    rcases act.signs permits trace.standing hs with hs | hspeech
    · exact (ih hs).mono act.grows act.view_le
        (fun b hb => (act.filed hb).imp_right fun hnew => hnew.1.1)
        fun _ _ hlt => act.preparesFor_below hlt
    · exact hspeech.meant act.grows trace.placed
  | consequence trace consequence ih =>
    rcases consequence.signs trace.standing hs with hs | hspeech
    · exact (ih hs).mono consequence.grows consequence.view_le
        (fun b hb => (consequence.filed hb).imp_right fun hnew => hnew.1.1)
        fun _ _ _ => consequence.preparesFor_eq
    · exact hspeech.meant consequence.grows trace.placed

end Term

end CommitteeConsensus
