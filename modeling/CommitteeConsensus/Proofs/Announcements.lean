import CommitteeConsensus.Proofs.Conduct
import CommitteeConsensus.Proofs.Decisions
import CommitteeConsensus.Proofs.Diligence

/-!
# What a member tells the others

A member keeps nothing to itself that the others need.  The proposal that a leader files,
it has sent; whoever files the proposal of another has voted for it, and whoever commits
has filed the commit that it sends.  Whoever decides says so, and whoever is in a view
came there in one of three ways, two of which the leader of the view knows of
(`Term.Reached`).

A message goes to all others, except for a request for a view, which goes to the leader
of that view (`Trace.addressed`), and only when a timer ran out (`Trace.timed`).
-/

namespace CommitteeConsensus

namespace Term

variable {t : Term} {p q : Progress} {rs : List Request} {stimulus : Stimulus} {past : Past}
  {d : Decision}

/-! ## Who is told -/

/-- Who a message is for. -/
def Concerns (t : Term) (recipients : List MemberId) : Message → Prop
  | .viewChange m => recipients = [t.committee.leader m.view]
  | _ => recipients = t.committee.others t.me

/-- A message is the member's own, of its height, and goes to those whom it concerns, but
never to the member itself. -/
structure Addresses (t : Term) (recipients : List MemberId) (m : Message) : Prop where
  height : m.height = t.height
  sender : m.sender = t.me
  concerns : t.Concerns recipients m
  not_mem : t.me ∉ recipients

theorem me_not_mem_others : t.me ∉ t.committee.others t.me := by
  rw [Committee.mem_others]
  exact fun h => h.2 rfl

/-- An act sends no commit, and a request for a view only when the time is up. -/
theorem Act.sends (h : t.Act stimulus p rs q) {recipients : List MemberId} {m : Message}
    (hm : .send recipients m ∈ rs) : t.Addresses recipients m ∧ (∀ s, m ≠ .commit s) ∧
      ∀ b, m = .viewChange b → b = t.nextRequest p ∧
        stimulus = .event (.electionTimeout p.view) := by
  cases h with
  | ignore | release | keepPrepare | keepCommit | keepViewChange =>
    exact absurd hm List.not_mem_nil
  | start => rcases mem_start hm with h | ⟨-, h⟩ <;> exact absurd h (by simp)
  | examine => exact absurd (List.mem_singleton.1 hm) (by simp)
  | follow => simp at hm
  | approve =>
    rcases List.mem_cons.1 hm with hm | hm
    · exact absurd hm (by simp)
    · obtain ⟨-, hm⟩ := mem_voteFor hm
      obtain ⟨rfl, rfl⟩ := Request.send.inj hm
      exact ⟨⟨rfl, rfl, rfl, me_not_mem_others⟩, by simp, by simp⟩
  | propose | openPending =>
    rcases List.mem_cons.1 hm with hm | hm
    · obtain ⟨rfl, rfl⟩ := Request.send.inj hm
      exact ⟨⟨rfl, rfl, rfl, me_not_mem_others⟩, by simp, by simp⟩
    · exact absurd (mem_install hm) (by simp)
  | watch => exact absurd (List.mem_singleton.1 hm) (by simp)
  | elapse =>
    rcases List.mem_cons.1 hm with hm | hm
    · exact absurd hm (by simp)
    · split at hm
      · exact absurd hm List.not_mem_nil
      · next hother =>
        obtain ⟨rfl, rfl⟩ := Request.send.inj (List.mem_singleton.1 hm)
        exact ⟨⟨rfl, rfl, rfl, fun hme => hother (List.mem_singleton.1 hme).symm⟩, by simp,
          fun b hb => ⟨(Message.viewChange.inj hb).symm, rfl⟩⟩

/-- A commit that is sent is filed, and no consequence asks for a view. -/
theorem Consequence.sends (h : t.Consequence p rs q) {recipients : List MemberId} {m : Message}
    (hm : .send recipients m ∈ rs) : t.Addresses recipients m ∧ (∀ b, m ≠ .viewChange b) ∧
      ∀ s, m = .commit s → ∃ b ∈ q.log.commitsFor t.height s.content.view s.content.blockHash,
        b.sender = t.me := by
  cases h with
  | repropose =>
    rcases List.mem_append.1 hm with hm | hm
    · exact absurd (mem_arming hm) (by simp)
    · rcases List.mem_cons.1 hm with hm | hm
      · obtain ⟨rfl, rfl⟩ := Request.send.inj hm
        exact ⟨⟨rfl, rfl, rfl, me_not_mem_others⟩, by simp, by simp⟩
      · exact absurd (mem_install hm) (by simp)
  | await =>
    rcases List.mem_append.1 hm with hm | hm
    · exact absurd (mem_arming hm) (by simp)
    · exact absurd (List.mem_singleton.1 hm) (by simp)
  | @commit m phase proposal quorum =>
    rcases t.commitTo_cases { p with phase := .prepared } m.blockHash with hquiet | ⟨-, hcommit⟩
    · rw [hquiet] at hm
      exact absurd hm List.not_mem_nil
    · rw [hcommit] at hm ⊢
      obtain ⟨rfl, rfl⟩ := Request.send.inj (List.mem_singleton.1 hm)
      refine ⟨⟨rfl, rfl, rfl, me_not_mem_others⟩, by simp, fun s hs => ?_⟩
      obtain rfl := Message.commit.inj hs
      exact MessageLog.exists_commitsFor_withCommit p.log
        (t.keys.commit t.height p.view m.blockHash t.seed)
  | decide => simp at hm

theorem Trace.addressed (h : t.Trace past) {recipients : List MemberId} {m : Message}
    (hm : .send recipients m ∈ past.requests) : t.Addresses recipients m := by
  induction h with
  | fresh => exact absurd hm List.not_mem_nil
  | act _ _ _ act ih =>
    rcases List.mem_append.1 hm with hold | hnew
    · exact ih hold
    · exact (act.sends hnew).1
  | consequence _ consequence ih =>
    rcases List.mem_append.1 hm with hold | hnew
    · exact ih hold
    · exact (consequence.sends hnew).1

/-- A commit that was sent is filed. -/
theorem Trace.commit_filed (h : t.Trace past) {s : Signed CommitContent}
    (hs : past.Sent (.commit s)) :
    ∃ b ∈ past.progress.log.commitsFor t.height s.content.view s.content.blockHash,
      b.sender = t.me := by
  obtain ⟨recipients, hm⟩ := hs
  induction h with
  | fresh => exact absurd hm List.not_mem_nil
  | act _ _ _ act ih =>
    rcases List.mem_append.1 hm with hold | hnew
    · obtain ⟨b, hb, hsender⟩ := ih hold
      exact ⟨b, act.grows.commitsFor.subset hb, hsender⟩
    · exact absurd rfl ((act.sends hnew).2.1 s)
  | consequence _ consequence ih =>
    rcases List.mem_append.1 hm with hold | hnew
    · obtain ⟨b, hb, hsender⟩ := ih hold
      exact ⟨b, consequence.grows.commitsFor.subset hb, hsender⟩
    · exact (consequence.sends hnew).2.2 s rfl

/-- **Only a timer makes a member ask for a view**, and it asks for the next one. -/
theorem Trace.timed (h : t.Trace past) {c : ViewChangeContent}
    (hs : past.Signs t.me (.viewChange c)) :
    ∃ view, .event (.electionTimeout view) ∈ past.taken ∧ c.view = view + 1 := by
  have hown : (∃ b, past.Sent (.viewChange b) ∧ b.signed.content = c) ∨
      ∃ b ∈ past.progress.log.viewChanges, b.sender = t.me ∧ b.signed.content = c := by
    rcases hs with ⟨m, hm, hc⟩ | ⟨b, hb, hme, hc⟩
    · rcases m with m | m | m | m | m <;>
        simp only [Message.authored, List.mem_cons, List.not_mem_nil, or_false, or_self,
          reduceCtorEq, Statement.viewChange.injEq] at hc
      exact Or.inl ⟨m, hm, hc.symm⟩
    · exact Or.inr ⟨b, hb, hme, (Statement.viewChange.inj hc).symm⟩
  clear hs
  induction h with
  | fresh =>
    rcases hown with ⟨b, ⟨recipients, hm⟩, -⟩ | ⟨b, hb, -⟩
    · exact absurd hm List.not_mem_nil
    · exact absurd hb List.not_mem_nil
  | @act past stimulus rs q trace permits rest act ih =>
    have hold : ((∃ b, past.Sent (.viewChange b) ∧ b.signed.content = c) ∨
        ∃ b ∈ past.progress.log.viewChanges, b.sender = t.me ∧ b.signed.content = c) →
          ∃ view, .event (.electionTimeout view) ∈ past.taken ++ [stimulus] ∧ c.view = view + 1 :=
      fun h => (ih h).imp fun view hv => ⟨List.mem_append_left _ hv.1, hv.2⟩
    rcases hown with ⟨b, ⟨recipients, hm⟩, rfl⟩ | ⟨b, hb, hme, rfl⟩
    · rcases List.mem_append.1 hm with hm | hm
      · exact hold (Or.inl ⟨b, ⟨recipients, hm⟩, rfl⟩)
      · obtain ⟨rfl, rfl⟩ := (act.sends hm).2.2 b rfl
        exact ⟨_, List.mem_append_right _ List.mem_cons_self, rfl⟩
    · rcases act.viewChanges hb with hb | ⟨⟨rfl, -⟩, rfl⟩ | rfl
      · exact hold (Or.inr ⟨b, hb, hme, rfl⟩)
      · exact ⟨_, List.mem_append_right _ List.mem_cons_self, rfl⟩
      · exact absurd hme permits.2
  | consequence trace consequence ih =>
    rcases hown with ⟨b, ⟨recipients, hm⟩, rfl⟩ | ⟨b, hb, hme, rfl⟩
    · rcases List.mem_append.1 hm with hm | hm
      · exact ih (Or.inl ⟨b, ⟨recipients, hm⟩, rfl⟩)
      · exact absurd rfl ((consequence.sends hm).2.1 b)
    · exact ih (Or.inr ⟨b, consequence.viewChanges_eq ▸ hb, hme, rfl⟩)

/-! ## Proposals -/

/-- What a member that has the proposal of a view has told the others: its leader has
proposed it, and any other member has voted for it. -/
structure Announced (t : Term) (past : Past) (m : PrePrepare) : Prop where
  led : t.leads m.view = true → (m.view = 0 ∧ t.broadcast (.prePrepare m) ∈ past.requests) ∨
    ∃ n, n.prePrepare = m ∧ n.signed.content.view = m.view ∧
      t.broadcast (.newView n) ∈ past.requests
  followed : t.observer = false → t.leads m.view = false →
    t.broadcast (.prepare (t.keys.prepare t.height m.view m.blockHash)) ∈ past.requests ∧
      ∃ s ∈ past.progress.log.preparesFor t.height m.view m.blockHash, s.sender = t.me

theorem Announced.before {later : Past} {m : PrePrepare} (h : t.Announced past m)
    (hb : past.Before later) : t.Announced later m where
  led hleads := (h.led hleads).imp (And.imp_right fun hr => hb.requests hr)
    fun ⟨n, hn, hview, hr⟩ => ⟨n, hn, hview, hb.requests hr⟩
  followed member hfollows := (h.followed member hfollows).imp (fun hr => hb.requests hr)
    fun ⟨s, hs, hsender⟩ => ⟨s, hb.log.preparesFor.subset hs, hsender⟩

/-- A proposal of the own is announced by the message that carries it. -/
theorem announced_of_leads {later : Past} {m : PrePrepare} (leads : t.leads m.view = true)
    (led : (m.view = 0 ∧ t.broadcast (.prePrepare m) ∈ later.requests) ∨
      ∃ n, n.prePrepare = m ∧ n.signed.content.view = m.view ∧
        t.broadcast (.newView n) ∈ later.requests) :
    t.Announced later m :=
  ⟨fun _ => led, fun _ hfollows => absurd (leads.symm.trans hfollows) (by simp)⟩

theorem Act.announced (h : t.Act stimulus past.progress rs q) (trace : t.Trace past)
    (permits : t.Permits past stimulus) {m : PrePrepare} (hm : m ∈ q.log.prePrepares) :
    m ∈ past.progress.log.prePrepares ∨ t.Announced (past.acted stimulus rs q) m := by
  have hasked : rs ⊆ (past.acted stimulus rs q).requests := List.subset_append_right _ _
  have hprogress : (past.acted stimulus rs q).progress = q := rfl
  generalize past.acted stimulus rs q = later at hasked hprogress ⊢
  generalize hp : past.progress = p at h
  cases h with
  | ignore | start | examine | release => exact Or.inl hm
  | follow | watch =>
    left
    rwa [← p.log_reach]
  | @approve _ b log live view validating stored =>
    rw [prePrepares_voteFor] at hm
    rcases (MessageLog.mem_storePrePrepare? stored).1 hm with rfl | hold
    · obtain ⟨hadm, hother⟩ := trace.examined permits
      obtain ⟨⟨-, hproposed⟩, -⟩ := admitsProposal_iff.1 hadm
      refine Or.inr ⟨fun hleads => ?_, fun member hfollows => ⟨hasked ?_, ?_⟩⟩
      · exact absurd (hproposed.sender_eq.trans (t.leads_iff.1 hleads).2) hother
      · rw [voteFor, if_neg (by rw [member, hfollows]; simp)]
        exact List.mem_cons_of_mem _ List.mem_cons_self
      · rw [hprogress, voteFor, if_neg (by rw [member, hfollows]; simp)]
        exact MessageLog.exists_preparesFor_withPrepare log
          (t.keys.prepare t.height m.view m.blockHash)
    · exact Or.inl hold
  | propose live leads pending view =>
    refine (install_filed hm).imp_right ?_
    rintro ⟨rfl, -⟩
    exact announced_of_leads leads (Or.inl ⟨view, hasked List.mem_cons_self⟩)
  | openPending live leads =>
    refine (install_filed hm).imp_right ?_
    rintro ⟨rfl, -⟩
    exact announced_of_leads leads (Or.inr ⟨_, rfl, rfl, hasked List.mem_cons_self⟩)
  | elapse =>
    rw [elapsed, MessageLog.prePrepares_withViewChange] at hm
    exact Or.inl hm
  | keepPrepare =>
    rw [MessageLog.prePrepares_withPrepare] at hm
    exact Or.inl hm
  | keepCommit =>
    rw [MessageLog.prePrepares_withCommit] at hm
    exact Or.inl hm
  | keepViewChange live current near leads admits stored =>
    rw [MessageLog.storeViewChange?_eq_some stored, MessageLog.prePrepares_withViewChange] at hm
    exact Or.inl hm

theorem Consequence.announced (h : t.Consequence past.progress rs q) {m : PrePrepare}
    (hm : m ∈ q.log.prePrepares) :
    m ∈ past.progress.log.prePrepares ∨ t.Announced (past.settled rs q) m := by
  have hasked : rs ⊆ (past.settled rs q).requests := List.subset_append_right _ _
  generalize past.settled rs q = later at hasked ⊢
  generalize past.progress = p at h
  cases h with
  | @repropose view block hash claims =>
    refine (install_filed hm).imp ?_ ?_
    · rw [Progress.log_claim]
      exact id
    · rintro ⟨rfl, -⟩
      exact announced_of_leads claims.leads
        (Or.inr ⟨_, rfl, rfl, hasked (List.mem_append_right _ List.mem_cons_self)⟩)
  | @await view =>
    left
    rwa [← p.log_claim view]
  | commit =>
    rw [prePrepares_commitTo] at hm
    exact Or.inl hm
  | decide => exact Or.inl hm

/-- **A member that has a proposal has told so.** -/
theorem Trace.announced (h : t.Trace past) {m : PrePrepare}
    (hm : m ∈ past.progress.log.prePrepares) : t.Announced past m := by
  induction h with
  | fresh => exact absurd hm List.not_mem_nil
  | act trace permits _ act ih =>
    exact (act.announced trace permits hm).elim (fun hold => (ih hold).before act.before) id
  | consequence _ consequence ih =>
    exact (consequence.announced hm).elim (fun hold => (ih hold).before consequence.before) id

/-! ## Views -/

/-- How a member came to its view. -/
inductive Reached (t : Term) (past : Past) : Prop where
  | first (view : past.progress.view = 0)
  /-- Its leader had opened it. -/
  | followed {n : NewView} (taken : .message (.newView n) ∈ past.taken)
    (view : n.signed.content.view = past.progress.view) (admits : t.admitsNewView n = true)
  /-- The member took it on as its leader. -/
  | led (leads : t.leads past.progress.view = true)
    (last : past.progress.lastNewView = some past.progress.view)
    (quorum : t.committee.quorum ≤
      (past.progress.log.viewChangesFor t.height past.progress.view).length)
  /-- The member asked for it, and told its leader. -/
  | asked (filed : ∃ m ∈ past.progress.log.viewChangesFor t.height past.progress.view,
      m.sender = t.me)
    (told : t.committee.leader past.progress.view ≠ t.me →
      ∃ m, (m.view = past.progress.view ∧ m.sender = t.me) ∧
        .send [t.committee.leader past.progress.view] (.viewChange m) ∈ past.requests)

/-- In the same view nothing changes about it. -/
theorem Reached.before {later : Past} (h : t.Reached past) (hb : past.Before later)
    (hview : later.progress.view = past.progress.view)
    (hlast : later.progress.lastNewView = past.progress.lastNewView) : t.Reached later := by
  rcases h with hfirst | ⟨htaken, hn, hadm⟩ | ⟨hleads, hl, hquorum⟩ | ⟨⟨m, hm, hme⟩, htold⟩
  · exact .first (hview.trans hfirst)
  · exact .followed (hb.taken htaken) (hn.trans hview.symm) hadm
  · refine .led (hview ▸ hleads) (hlast.trans (hview ▸ hl)) ?_
    rw [hview]
    exact Nat.le_trans hquorum hb.log.viewChangesFor.length_le
  · refine .asked ⟨m, ?_, hme⟩ ?_
    · rw [hview]
      exact hb.log.viewChangesFor.subset hm
    · rw [hview]
      intro hne
      obtain ⟨b, hkey, hsent⟩ := htold hne
      exact ⟨b, hkey, hb.requests hsent⟩

theorem Act.reached (h : t.Act stimulus past.progress rs q) (member : t.observer = false)
    (reached : t.Reached past) : t.Reached (past.acted stimulus rs q) := by
  have hbefore := h.before
  have hlast := h.lastNewView_eq
  have hsame : q.view = past.progress.view → t.Reached (past.acted stimulus rs q) :=
    fun hview => reached.before hbefore hview hlast
  have htaken : stimulus ∈ (past.acted stimulus rs q).taken :=
    List.mem_append_right _ List.mem_cons_self
  have hasked : rs ⊆ (past.acted stimulus rs q).requests := List.subset_append_right _ _
  have hprogress : (past.acted stimulus rs q).progress = q := rfl
  generalize past.acted stimulus rs q = later at hsame htaken hasked hprogress ⊢
  generalize past.progress = p at h hsame
  cases h with
  | ignore | start | examine | release | keepPrepare | keepCommit | keepViewChange =>
    exact hsame rfl
  | @follow _ n live view idle admits =>
    have hle : p.view ≤ n.signed.content.view :=
      view.elim Nat.le_of_lt fun heq => Nat.le_of_eq heq.1
    refine .followed htaken ?_ admits
    rw [hprogress]
    exact (p.view_reach hle).symm
  | approve => exact hsame (t.view_voteFor _ _)
  | propose => exact hsame (view_install _)
  | openPending => exact hsame (view_install _)
  | watch live observer => exact absurd (member.symm.trans observer) (by simp)
  | elapse =>
    have hview : (t.elapsed p).view = p.view + 1 := p.view_reach (Nat.le_succ _)
    refine .asked ?_ ?_
    · rw [hprogress, hview]
      exact MessageLog.exists_viewChangesFor_withViewChange p.log (t.nextRequest p)
    · rw [hprogress, hview]
      intro hne
      refine ⟨t.nextRequest p, ⟨rfl, rfl⟩, hasked (List.mem_cons_of_mem _ ?_)⟩
      rw [if_neg hne]
      exact List.mem_cons_self

theorem Consequence.reached (h : t.Consequence past.progress rs q) (reached : t.Reached past) :
    t.Reached (past.settled rs q) := by
  have hbefore := h.before
  have hrequests := h.viewChanges_eq
  have hsame : q.view = past.progress.view → q.lastNewView = past.progress.lastNewView →
      t.Reached (past.settled rs q) := fun hview hlast => reached.before hbefore hview hlast
  have hprogress : (past.settled rs q).progress = q := rfl
  generalize past.settled rs q = later at hsame hprogress ⊢
  generalize past.progress = p at h hsame hrequests
  have hled : ∀ view, t.Claims p view → q.view = view → q.lastNewView = some view →
      t.Reached later := by
    intro view claims hview hlast
    refine .led ?_ ?_ ?_ <;> rw [hprogress, hview]
    · exact claims.leads
    · exact hlast
    · rw [MessageLog.viewChangesFor, hrequests]
      exact claims.quorum
  cases h with
  | @repropose view block hash claims =>
    obtain ⟨log, phase, hshape⟩ :=
      install_shape (p.claim view) (t.keys.prePrepare t.height view block hash)
    refine hled view claims ?_ ?_ <;> rw [hshape]
    · exact p.view_claim claims.le
    · exact p.lastNewView_claim
  | @await view claims => exact hled view claims (p.view_claim claims.le) p.lastNewView_claim
  | commit => exact hsame (t.view_commitTo _ _) (t.lastNewView_commitTo _ _)
  | decide => exact hsame rfl rfl

/-- **How a member came to its view.** -/
theorem Trace.reached (h : t.Trace past) (member : t.observer = false) : t.Reached past := by
  induction h with
  | fresh => exact .first rfl
  | act _ _ _ act ih => exact act.reached member ih
  | consequence _ consequence ih => exact consequence.reached ih

/-! ## Decisions -/

/-- No input ends the height by itself. -/
theorem Act.live (h : t.Act stimulus p rs q) (hphase : p.phase ≠ .committed) :
    q.phase ≠ .committed := by
  cases h with
  | ignore | start | examine | release | keepPrepare | keepCommit | keepViewChange => exact hphase
  | follow | watch | elapse => exact p.reach_live hphase
  | approve =>
    rw [phase_voteFor]
    simp
  | @propose _ block hash =>
    rw [Progress.install]
    split
    · exact hphase
    · simp [Step.ask]
  | @openPending _ block hash =>
    rw [Progress.install]
    split
    · exact hphase
    · simp [Step.ask]

/-- **A member that is through has decided.** -/
theorem Trace.exists_decision (h : t.Trace past) (hphase : past.progress.phase = .committed) :
    ∃ d, .decide d ∈ past.requests := by
  induction h with
  | fresh => exact absurd hphase (by simp [Past.fresh, Progress.initial])
  | @act past stimulus rs q trace permits rest act ih =>
    by_cases hdone : past.progress.phase = .committed
    · exact (ih hdone).imp fun d hd => List.mem_append_left _ hd
    · exact absurd hphase (act.live hdone)
  | @consequence past rs q trace consequence ih =>
    by_cases hdone : past.progress.phase = .committed
    · exact (ih hdone).imp fun d hd => List.mem_append_left _ hd
    · replace hphase : q.phase = .committed := hphase
      generalize past.progress = p at consequence hdone
      cases consequence with
      | @repropose view block hash claims =>
        rw [Progress.install] at hphase
        split at hphase
        · exact absurd hphase (p.claim_live hdone)
        · exact absurd hphase (by simp [Step.ask])
      | @await view => exact absurd hphase (p.claim_live hdone)
      | commit =>
        rw [phase_commitTo] at hphase
        exact absurd hphase (by simp)
      | decide => exact ⟨_, List.mem_append_right _ (List.mem_cons_of_mem _ List.mem_cons_self)⟩

/-- A member decides the proposal that it has for a view. -/
theorem Trace.decision_holds (h : t.Trace past) (hd : .decide d ∈ past.requests) :
    past.progress.log.Holds d.view d.proof.blockHash := by
  induction h with
  | fresh => exact absurd hd List.not_mem_nil
  | act _ _ _ act ih =>
    rcases List.mem_append.1 hd with hd | hd
    · exact act.grows.holds (ih hd)
    · exact absurd hd act.not_decides
  | consequence _ consequence ih =>
    rcases List.mem_append.1 hd with hd | hd
    · exact consequence.grows.holds (ih hd)
    · obtain ⟨m, proposal, -, rfl⟩ := consequence.decides hd
      obtain ⟨hmem, -, hview⟩ := MessageLog.of_prePrepare?_eq_some proposal
      exact consequence.grows.holds ⟨m, hmem, hview, rfl⟩

end Term

end CommitteeConsensus
