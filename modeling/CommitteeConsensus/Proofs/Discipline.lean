import CommitteeConsensus.Proofs.Playback
import CommitteeConsensus.Proofs.Announcements
import CommitteeConsensus.Proofs.Vigilance

/-!
# A member speaks once, and in its role

A member does not keep a list of what it has sent.  Still it sends no two messages of one
kind in one view, and that over any run: whatever is given to it, in whatever order, and
however often the host repeats itself.  What stands in for the list is the rest of its
state.  For each kind of message and each view there is a condition on the progress under
which the right to send such a message is spent (`Progress.Spent`):

* a PrePrepare or a Prepare, once the view has a proposal;
* a Commit, once the view has a proposal and the member is through with the votes;
* a ViewChange, once the view was reached;
* a NewView, once the view was taken on and no block is awaited for it.

A right that is spent stays spent (`Placed.spent_mono`), because of the few things that no step
undoes (`Progress.Furthers`).  And whatever an act or a consequence sends, it sends by a
right that was not spent before and is spent after (`Utters`).  So the messages of a run
are distinct in kind and view.  That their views ascend comes along with it: a message is
of the view that the member is in.

With what was proved about the meaning of a message (`Trace.meant`), a vote and a commit of
one view are for one block, and the roles are those of the protocol: only the leader of a
view proposes in it or opens it, everyone else votes, and an observer is silent
(`Run.disciplined`).
-/

namespace CommitteeConsensus

/-! ## What is said -/

/-- The message that a request is to send. -/
def Request.message? : Request → Option Message
  | .send _ m => some m
  | _ => none

/-- The messages that are sent by a list of requests, in order. -/
def uttered (rs : List Request) : List Message := rs.filterMap Request.message?

/-- The kind and the view of a message. -/
def Message.slot (m : Message) : MessageKind × View := (m.kind, m.view)

/-- The messages that were sent, in order. -/
def Past.messages (past : Past) : List Message := uttered past.requests

section Uttered

variable {rs rs' : List Request} {m : Message}

theorem mem_uttered : m ∈ uttered rs ↔ ∃ recipients, .send recipients m ∈ rs := by
  rw [uttered, List.mem_filterMap]
  constructor
  · rintro ⟨r, hr, hm⟩
    cases r with
    | send recipients b =>
      obtain rfl := Option.some.inj hm
      exact ⟨recipients, hr⟩
    | _ => exact absurd hm (by simp [Request.message?])
  · rintro ⟨recipients, hr⟩
    exact ⟨_, hr, rfl⟩

theorem Past.mem_messages {past : Past} : m ∈ past.messages ↔ past.Sent m := mem_uttered

theorem uttered_append : uttered (rs ++ rs') = uttered rs ++ uttered rs' := List.filterMap_append

theorem uttered_broadcast (t : Term) : uttered (t.broadcast m :: rs) = m :: uttered rs := rfl

/-- Requests none of which sends anything. -/
theorem uttered_eq_nil (h : ∀ r ∈ rs, r.message? = none) : uttered rs = [] :=
  List.filterMap_eq_nil_iff.2 h

end Uttered

/-! ## What no step undoes -/

/-- A view has a proposal. -/
def MessageLog.Proposed (log : MessageLog) (view : View) : Prop :=
  ∃ b ∈ log.prePrepares, b.view = view

namespace Progress

/-- The right to send a message of a kind in a view is spent. -/
def Spent (p : Progress) : MessageKind → View → Prop
  | .prePrepare, view | .prepare, view => p.log.Proposed view
  | .commit, view => p.log.Proposed view ∧ (view = p.view → p.phase ≠ .collectingPrePrepare)
  | .viewChange, view => view ≤ p.view
  | .newView, view => p.lastNewView.any (view ≤ ·) = true ∧
    ∀ votes, p.pendingNewView ≠ some (view, votes)

/-- What stays as it is from one progress to the next: views are not left for lower ones,
nothing is lost from the log, votes are not collected again for a proposal that has them,
what was taken on stays so, and a block is awaited only for a view that was not. -/
structure Furthers (p q : Progress) : Prop where
  view : p.view ≤ q.view
  log : p.log.Grows q.log
  phase : q.view = p.view → q.phase = .collectingPrePrepare →
    p.phase = .collectingPrePrepare ∨ ¬p.log.Proposed p.view
  last : ∀ view, p.lastNewView.any (view ≤ ·) = true → q.lastNewView.any (view ≤ ·) = true
  pending : ∀ view votes, q.pendingNewView = some (view, votes) →
    p.pendingNewView = some (view, votes) ∨ p.lastNewView.any (view ≤ ·) = false

theorem Furthers.trans {p q r : Progress} (h : p.Furthers q) (h' : q.Furthers r) :
    p.Furthers r := by
  refine ⟨Nat.le_trans h.view h'.view, h.log.trans h'.log, fun hview hphase => ?_,
    fun view hview => h'.last view (h.last view hview), fun view votes hp => ?_⟩
  · have hsame : q.view = p.view := Nat.le_antisymm (hview ▸ h'.view) h.view
    rcases h'.phase (hview.trans hsame.symm) hphase with hcollecting | hvacant
    · exact h.phase hsame hcollecting
    · rw [hsame] at hvacant
      refine Or.inr fun ⟨b, hb, hbview⟩ => ?_
      exact hvacant ⟨b, h.log.prePrepares.subset hb, hbview⟩
  · rcases h'.pending view votes hp with hold | huntaken
    · exact h.pending view votes hold
    · right
      by_contra htaken
      rw [h.last view (by simpa using htaken)] at huntaken
      exact absurd huntaken (by simp)

end Progress

namespace Term

variable {t : Term} {p q : Progress} {rs : List Request} {stimulus : Stimulus} {past : Past}
  {step : Step}

/-- **What is spent stays spent.** -/
theorem Placed.spent_mono (placed : t.Placed p) (furthers : p.Furthers q) {kind : MessageKind}
    {view : View} (h : p.Spent kind view) : q.Spent kind view := by
  have hproposed : p.log.Proposed view → q.log.Proposed view := fun ⟨b, hb, hview⟩ =>
    ⟨b, furthers.log.prePrepares.subset hb, hview⟩
  cases kind with
  | prePrepare | prepare => exact hproposed h
  | commit =>
    obtain ⟨hfiled, hthrough⟩ := h
    refine ⟨hproposed hfiled, fun hview hphase => ?_⟩
    obtain ⟨b, hb, hbview⟩ := hfiled
    have hle : view ≤ p.view := hbview ▸ placed.le b hb
    have heq : view = p.view := Nat.le_antisymm hle (hview ▸ furthers.view)
    rcases furthers.phase (hview.symm.trans heq) hphase with hcollecting | hvacant
    · exact hthrough heq hcollecting
    · exact hvacant ⟨b, hb, hbview.trans heq⟩
  | viewChange => exact Nat.le_trans h furthers.view
  | newView =>
    obtain ⟨htaken, hfree⟩ := h
    refine ⟨furthers.last view htaken, fun votes hp => ?_⟩
    rcases furthers.pending view votes hp with hold | huntaken
    · exact hfree votes hold
    · rw [htaken] at huntaken
      exact absurd huntaken (by simp)

/-! ### Steps that keep to it -/

/-- A view whose proposal can be filed has none. -/
theorem Placed.not_proposed (placed : t.Placed p) {m : PrePrepare} {log : MessageLog}
    (stored : p.log.storePrePrepare? m = some log) (height : m.height = t.height) :
    ¬p.log.Proposed m.view := by
  rintro ⟨b, hb, hview⟩
  exact (MessageLog.storePrePrepare?_eq_some.1 stored).1 b hb
    ⟨height.trans (placed.height b hb).symm, hview.symm⟩

/-- To install the proposal of the current view leaves the phase as it is, unless there was
none. -/
theorem furthers_install (placed : t.Placed p) {m : PrePrepare} (height : m.height = t.height)
    (view : m.view = p.view) : p.Furthers (p.install m).progress := by
  rw [Progress.install]
  split
  · exact ⟨Nat.le_refl _, MessageLog.Grows.refl _, fun _ hphase => Or.inl hphase, fun _ hw => hw,
      fun _ _ hp => Or.inl hp⟩
  · next log hlog =>
    have hvacant := placed.not_proposed hlog height
    rw [view] at hvacant
    exact ⟨Nat.le_refl _, MessageLog.grows_storePrePrepare? hlog, fun _ _ => Or.inr hvacant,
      fun _ hw => hw, fun _ _ hp => Or.inl hp⟩

/-- In a view that is new no votes are collected yet, and no block is awaited. -/
theorem furthers_reach (p : Progress) (view : View) : p.Furthers (p.reach view) := by
  by_cases hlt : p.view < view
  · rw [p.reach_of_lt hlt]
    exact ⟨Nat.le_of_lt hlt, MessageLog.Grows.refl _, fun _ hphase => absurd hphase (by simp),
      fun _ hw => hw, fun _ _ hp => absurd hp (by simp)⟩
  · rw [p.reach_of_not_lt hlt]
    exact ⟨Nat.le_refl _, MessageLog.Grows.refl _, fun _ hphase => Or.inl hphase, fun _ hw => hw,
      fun _ _ hp => Or.inl hp⟩

/-- A view that is taken on is higher than those that were. -/
theorem Claims.furthers {view : View} (claims : t.Claims p view) : p.Furthers (p.claim view) := by
  have hlast : p.Furthers { p with lastNewView := some view } := by
    refine ⟨Nat.le_refl _, MessageLog.Grows.refl _, fun _ hphase => Or.inl hphase, fun w hw => ?_,
      fun _ _ hp => Or.inl hp⟩
    have hun := claims.unclaimed
    rcases hlast : p.lastNewView with _ | last
    · rw [hlast] at hw
      exact absurd hw (by simp)
    · rw [hlast] at hw hun
      simp only [Option.any_some, decide_eq_true_eq, decide_eq_false_iff_not, Nat.not_le] at hw hun
      exact decide_eq_true (Nat.le_trans hw (Nat.le_of_lt hun))
  exact hlast.trans (furthers_reach _ view)

theorem Act.furthers (h : t.Act stimulus past.progress rs q) (trace : t.Trace past)
    (permits : t.Permits past stimulus) : past.progress.Furthers q := by
  have hplaced := trace.placed
  refine ⟨h.view_le, h.grows, fun hview hphase => ?_, fun view hview => ?_,
    fun view votes hp => Or.inl (h.waits hp)⟩
  · generalize past.progress = p at h hplaced hview ⊢
    cases h with
    | ignore | start | examine | release | keepPrepare | keepCommit | keepViewChange =>
      exact Or.inl hphase
    | follow | watch | elapse => exact (furthers_reach p _).phase hview hphase
    | @approve _ m log live view validating stored =>
      right
      rw [← view]
      exact hplaced.not_proposed stored (trace.validated permits m true rfl)
    | propose => exact (furthers_install hplaced rfl rfl).phase hview hphase
    | openPending =>
      exact (furthers_install (hplaced.idle p.validating none) rfl rfl).phase hview hphase
  · rw [h.lastNewView_eq]
    exact hview

theorem Consequence.furthers (h : t.Consequence p rs q) (placed : t.Placed p) : p.Furthers q := by
  cases h with
  | @repropose view block hash claims =>
    exact claims.furthers.trans
      (furthers_install (placed.claim view) rfl (p.view_claim claims.le).symm)
  | @await view claims =>
    have hclaim := claims.furthers
    refine ⟨hclaim.view, hclaim.log, hclaim.phase, hclaim.last, fun w votes hp => ?_⟩
    obtain ⟨rfl, -⟩ := Prod.mk.inj (Option.some.inj hp)
    exact Or.inr claims.unclaimed
  | @commit m phase =>
    have hgrows := grows_commitTo (t := t) { p with phase := .prepared } m.blockHash
    obtain ⟨log, hshape⟩ := t.commitTo_shape { p with phase := .prepared } m.blockHash
    rw [hshape] at hgrows ⊢
    exact ⟨Nat.le_refl _, hgrows, fun _ _ => Or.inl phase, fun _ hw => hw,
      fun _ _ hp => Or.inl hp⟩
  | decide =>
    exact ⟨Nat.le_refl _, MessageLog.Grows.refl _, fun _ hphase => absurd hphase (by simp),
      fun _ hw => hw, fun _ _ hp => Or.inl hp⟩

/-! ## What a step says -/

/-- Who may send a message: the leader of a view proposes and opens, and everyone else
votes.  A plain proposal is of the first view. -/
def InRole (t : Term) : Message → Prop
  | .prePrepare m => t.leads m.view = true ∧ m.view = 0
  | .prepare s => t.leads s.content.view = false
  | .newView n => t.leads n.signed.content.view = true
  | _ => True

/-- A message is sent in moving from one progress to another.  It is of the view that the
member is in then, and takes a right that was not spent before. -/
structure Utters (t : Term) (p q : Progress) (m : Message) : Prop where
  member : t.observer = false
  role : t.InRole m
  view : m.view = q.view
  fresh : ¬p.Spent m.kind m.view
  spent : q.Spent m.kind m.view

/-- A step says nothing, or one thing. -/
def Speaks (t : Term) (p : Progress) (rs : List Request) (q : Progress) : Prop :=
  uttered rs = [] ∨ ∃ m, uttered rs = [m] ∧ t.Utters p q m

theorem uttered_install (p : Progress) (m : PrePrepare) : uttered (p.install m).requests = [] := by
  refine uttered_eq_nil fun r hr => ?_
  rw [mem_install hr]
  rfl

theorem uttered_arming (p : Progress) (view : View) : uttered (arming p view) = [] := by
  refine uttered_eq_nil fun r hr => ?_
  rw [mem_arming hr]
  rfl

theorem uttered_start (p : Progress) : uttered (t.start p).requests = [] := by
  refine uttered_eq_nil fun r hr => ?_
  rcases mem_start hr with rfl | ⟨-, rfl⟩ <;> rfl

theorem member_of_leads {view : View} (leads : t.leads view = true) : t.observer = false :=
  (t.leads_iff.1 leads).1

theorem Act.speaks (h : t.Act stimulus past.progress rs q) (trace : t.Trace past)
    (permits : t.Permits past stimulus) : t.Speaks past.progress rs q := by
  have hplaced := trace.placed
  have hstanding := trace.standing
  generalize past.progress = p at h hplaced hstanding ⊢
  cases h with
  | ignore | examine | follow | release | watch | keepPrepare | keepCommit | keepViewChange =>
    exact Or.inl rfl
  | start => exact Or.inl (uttered_start _)
  | @approve _ m log live view validating stored =>
    rcases t.voteFor_cases { p with validating := none, log, phase := .collectingPrePrepare } m with
      hquiet | ⟨⟨member, follows⟩, hvote⟩
    · rw [hquiet]
      exact Or.inl rfl
    · rw [hvote]
      refine Or.inr ⟨_, rfl, member, follows, view, ?_, ?_⟩
      · exact hplaced.not_proposed stored (trace.validated permits m true rfl)
      · refine ⟨m, ?_, rfl⟩
        show m ∈ (log.withPrepare _).prePrepares
        rw [MessageLog.prePrepares_withPrepare]
        exact (MessageLog.mem_storePrePrepare? stored).2 (Or.inl rfl)
  | @propose _ block hash live leads pending view vacant =>
    have hvacant : ¬p.log.Proposed p.view := by
      rintro ⟨b, hb, hbview⟩
      exact MessageLog.prePrepare?_eq_none_iff.1 vacant b hb ⟨hplaced.height b hb, hbview⟩
    refine Or.inr ⟨.prePrepare (t.keys.prePrepare t.height p.view block hash), ?_,
      member_of_leads leads, ⟨leads, view⟩, (view_install _).symm, hvacant, ?_⟩
    · rw [uttered_broadcast, uttered_install]
    · obtain ⟨b, hb, hbview, -⟩ := holds_install (p := p)
        (m := t.keys.prePrepare t.height p.view block hash) fun b hb hbview =>
          hvacant ⟨b, hb, hbview⟩
      exact ⟨b, hb, hbview⟩
  | @openPending _ block hash votes live leads pending =>
    obtain ⟨⟨-, -, htaken⟩, -⟩ := hstanding.pending _ votes pending
    obtain ⟨log, phase, hshape⟩ := install_shape { p with pendingNewView := none }
      (t.keys.prePrepare t.height p.view block hash)
    refine Or.inr ⟨.newView (t.opening p.view block hash votes), ?_, member_of_leads leads, leads,
      (view_install (p := { p with pendingNewView := none }) _).symm,
      fun hspent => hspent.2 votes pending, ?_⟩
    · rw [uttered_broadcast, uttered_install]
    · rw [hshape]
      exact ⟨htaken, fun _ hp => absurd hp (by simp)⟩
  | elapse live member =>
    by_cases hleader : t.committee.leader (p.view + 1) = t.me
    · rw [if_pos hleader]
      exact Or.inl rfl
    · rw [if_neg hleader]
      have hview : (t.elapsed p).view = p.view + 1 := p.view_reach (Nat.le_succ _)
      exact Or.inr ⟨.viewChange (t.nextRequest p), rfl, member, trivial, hview.symm,
        Nat.not_succ_le_self _, Nat.le_of_eq hview.symm⟩

theorem Consequence.speaks (h : t.Consequence p rs q) (standing : t.Standing p)
    (placed : t.Placed p) : t.Speaks p rs q := by
  cases h with
  | @repropose view block hash claims =>
    have hfresh : ¬p.Spent .newView view := by
      intro hspent
      have htaken := hspent.1
      rw [claims.unclaimed] at htaken
      exact absurd htaken (by simp)
    obtain ⟨log, phase, hshape⟩ :=
      install_shape (p.claim view) (t.keys.prePrepare t.height view block hash)
    have hspent : (p.claim view).Spent .newView view := by
      refine ⟨?_, (standing.claim placed claims).2⟩
      rw [Progress.lastNewView_claim]
      exact decide_eq_true (Nat.le_refl view)
    refine Or.inr ⟨.newView (t.opening view block hash
      ((p.log.viewChangesFor t.height view).map (·.signed))), ?_, member_of_leads claims.leads,
      claims.leads, ?_, hfresh, ?_⟩
    · rw [uttered_append, uttered_arming, uttered_broadcast, uttered_install, List.nil_append]
    · rw [view_install]
      exact (p.view_claim claims.le).symm
    · rw [hshape]
      exact hspent
  | await =>
    left
    rw [uttered_append, uttered_arming]
    rfl
  | @commit m phase proposal =>
    obtain ⟨hmem, -, hview⟩ := MessageLog.of_prePrepare?_eq_some proposal
    rcases t.commitTo_cases { p with phase := .prepared } m.blockHash with
      hquiet | ⟨member, hcommit⟩
    · rw [hquiet]
      exact Or.inl rfl
    · rw [hcommit]
      refine Or.inr ⟨_, rfl, member, trivial, rfl, fun hspent => hspent.2 rfl phase,
        ⟨m, ?_, hview⟩, fun _ => by simp [Step.ask]⟩
      show m ∈ (p.log.withCommit _).prePrepares
      rw [MessageLog.prePrepares_withCommit]
      exact hmem
  | decide => exact Or.inl rfl

/-! ## The record of a run -/

/-- What holds of all that a member has said so far. -/
structure Record (t : Term) (p : Progress) (said : List Message) : Prop where
  role : ∀ m ∈ said, t.observer = false ∧ t.InRole m
  spent : ∀ m ∈ said, p.Spent m.kind m.view
  reached : ∀ m ∈ said, m.view ≤ p.view
  distinct : (said.map Message.slot).Nodup
  ascending : (said.map Message.view).Pairwise (· ≤ ·)

/-- A step adds to the record what it says. -/
theorem Record.speaks {said : List Message} (h : t.Record p said) (furthers : p.Furthers q)
    (placed : t.Placed p) (speaks : t.Speaks p rs q) : t.Record q (said ++ uttered rs) := by
  have hspent : ∀ m ∈ said, q.Spent m.kind m.view := fun m hm =>
    placed.spent_mono furthers (h.spent m hm)
  have hreached : ∀ m ∈ said, m.view ≤ q.view := fun m hm =>
    Nat.le_trans (h.reached m hm) furthers.view
  rcases speaks with hsilent | ⟨m, hspeaks, hutters⟩
  · rw [hsilent, List.append_nil]
    exact ⟨h.role, hspent, hreached, h.distinct, h.ascending⟩
  · rw [hspeaks]
    refine ⟨fun b hb => ?_, fun b hb => ?_, fun b hb => ?_, ?_, ?_⟩
    · rcases List.mem_append.1 hb with hb | hb
      · exact h.role b hb
      · rw [List.mem_singleton.1 hb]
        exact ⟨hutters.member, hutters.role⟩
    · rcases List.mem_append.1 hb with hb | hb
      · exact hspent b hb
      · rw [List.mem_singleton.1 hb]
        exact hutters.spent
    · rcases List.mem_append.1 hb with hb | hb
      · exact hreached b hb
      · rw [List.mem_singleton.1 hb]
        exact Nat.le_of_eq hutters.view
    · rw [List.map_append, List.map_singleton]
      refine List.Nodup.append h.distinct (List.nodup_singleton _) ?_
      intro slot hold hnew
      obtain ⟨b, hb, rfl⟩ := List.mem_map.1 hold
      -- a message of the same slot would have spent the right
      obtain ⟨hkind, hview⟩ := Prod.mk.inj (List.mem_singleton.1 hnew)
      have hfresh := hutters.fresh
      rw [← hkind, ← hview] at hfresh
      exact hfresh (h.spent b hb)
    · rw [List.map_append, List.map_singleton, List.pairwise_append]
      refine ⟨h.ascending, List.pairwise_singleton _ _, fun v hv w hw => ?_⟩
      obtain ⟨b, hb, rfl⟩ := List.mem_map.1 hv
      rw [List.mem_singleton.1 hw, hutters.view]
      exact hreached b hb

theorem Trace.record (h : t.Trace past) : t.Record past.progress past.messages := by
  induction h with
  | fresh =>
    exact ⟨fun m hm => absurd hm List.not_mem_nil, fun m hm => absurd hm List.not_mem_nil,
      fun m hm => absurd hm List.not_mem_nil, List.nodup_nil, List.Pairwise.nil⟩
  | act trace permits rest act ih =>
    rw [Past.messages, Past.acted, uttered_append]
    exact ih.speaks (act.furthers trace permits) trace.placed (act.speaks trace permits)
  | consequence trace consequence ih =>
    rw [Past.messages, Past.settled, uttered_append]
    exact ih.speaks (consequence.furthers trace.placed) trace.placed
      (consequence.speaks trace.standing trace.placed)

/-- Only the leader of a view asks for a block to propose in it. -/
theorem Trace.leads_of_builds (h : t.Trace past) {view : View}
    (hv : .buildProposal view ∈ past.requests) : t.leads view = true := by
  induction h with
  | fresh => exact absurd hv List.not_mem_nil
  | act _ _ _ act ih =>
    rcases List.mem_append.1 hv with hold | hnew
    · exact ih hold
    · exact (act.builds hnew).2.2
  | consequence _ consequence ih =>
    rcases List.mem_append.1 hv with hold | hnew
    · exact ih hold
    · exact (consequence.builds hnew).2.2

/-! ## The view that a message is sent in -/

/-- What is said is of the view that the step leads to. -/
theorem Speaks.view (h : t.Speaks p rs q) {recipients : List MemberId} {m : Message}
    (hm : .send recipients m ∈ rs) : m.view = q.view := by
  have hmem : m ∈ uttered rs := mem_uttered.2 ⟨recipients, hm⟩
  rcases h with hsilent | ⟨b, hspeaks, hutters⟩
  · rw [hsilent] at hmem
    exact absurd hmem List.not_mem_nil
  · rw [hspeaks] at hmem
    rw [List.mem_singleton.1 hmem]
    exact hutters.view

/-- As long as no request goes unnoticed, consequences are drawn in the same view. -/
theorem Noticed.same_view (h : t.Noticed p) (placed : t.Placed p) (hc : t.Consequences p rs q) :
    q.view = p.view := by
  induction hc with
  | none p => rfl
  | more first _ ih =>
    rw [ih (first.noticed placed (Or.inl h)) (first.placed placed)]
    cases first with
    | repropose claims | await claims => exact absurd claims h.not_claims
    | commit => exact t.view_commitTo _ _
    | decide => rfl

/-- After a consequence has said something, the view does not change any more. -/
theorem Consequences.view_of_sent (hc : t.Consequences p rs q) (trace : t.Trace past)
    (hp : past.progress = p) (noticed : t.Noticed p ∨ t.Noticing p) {recipients : List MemberId}
    {m : Message} (hm : .send recipients m ∈ rs) : m.view = q.view := by
  induction hc generalizing past with
  | none p => exact absurd hm List.not_mem_nil
  | @more p p' q rs rs' first rest ih =>
    subst hp
    have hnoticed := first.noticed trace.placed noticed
    rcases List.mem_append.1 hm with hm | hm
    · rw [hnoticed.same_view (first.placed trace.placed) rest]
      exact (first.speaks trace.standing trace.placed).view hm
    · exact ih (trace.consequence first) rfl (Or.inl hnoticed) hm

/-- **A message is of the view that the member is in**, once it is through with the input
that made it speak. -/
theorem Run.view_of_sent (run : t.Run past) (permits : t.Permits past stimulus)
    (react : t.react past.progress stimulus = .ok step) {recipients : List MemberId}
    {m : Message} (hm : .send recipients m ∈ step.requests) : m.view = step.progress.view := by
  obtain ⟨⟨p, rs, rs', hact, hc, hrs⟩, -⟩ := react_cases (run.trace.validated permits) react
  have htrace := run.trace.act permits run.atRest hact
  have hnoticed := hact.noticed run.trace.placed run.atRest run.noticed
  rw [hrs] at hm
  rcases List.mem_append.1 hm with hm | hm
  · rcases hnoticed with hnoticed | ⟨-, hsilent⟩
    · rw [hnoticed.same_view htrace.placed hc]
      exact (hact.speaks run.trace permits).view hm
    · exact absurd hm (hsilent recipients m)
  · exact hc.view_of_sent htrace rfl (hnoticed.imp_right And.left) hm

/-! ## Main result -/

/-- The proposal that a member holds for a view. -/
theorem Placed.prePrepare?_of_holds (placed : t.Placed p) {view : View} {hash : BlockHash}
    (holds : p.log.Holds view hash) :
    ∃ b, p.log.prePrepare? t.height view = some b ∧ b.blockHash = hash := by
  obtain ⟨b, hb, hview, hhash⟩ := holds
  exact ⟨b, (MessageLog.prePrepare?_eq_some_iff placed.wellFormed).2
    ⟨hb, placed.height b hb, hview⟩, hhash⟩

/-- A member that does not equivocate, and speaks in its role only. -/
structure Disciplined (t : Term) (past : Past) : Prop where
  /-- There is at most one plain proposal. -/
  proposes_once : (past.messages.filter fun m => m.kind = .prePrepare).length ≤ 1
  /-- There is at most one message of each kind in each view. -/
  speaks_once : (past.messages.map Message.slot).Nodup
  /-- A vote is for the proposal that is stored for its view. -/
  votes : ∀ s, past.Sent (.prepare s) →
    ∃ b, past.progress.log.prePrepare? t.height s.content.view = some b ∧
      b.blockHash = s.content.blockHash
  /-- A commit is for the proposal that is stored for its view. -/
  commits : ∀ s, past.Sent (.commit s) →
    ∃ b, past.progress.log.prePrepare? t.height s.content.view = some b ∧
      b.blockHash = s.content.blockHash
  /-- A vote and a commit of one view are for one block. -/
  agree : ∀ s c, past.Sent (.prepare s) → past.Sent (.commit c) →
    s.content.view = c.content.view → s.content.blockHash = c.content.blockHash
  follows : ∀ s, past.Sent (.prepare s) → t.leads s.content.view = false
  proposes : ∀ m, past.Sent (.prePrepare m) → t.leads m.view = true
  opens : ∀ n, past.Sent (.newView n) → t.leads n.signed.content.view = true
  own : ∀ m, past.Sent m → m.height = t.height ∧ m.sender = t.me
  /-- The views of the messages ascend. -/
  ascending : (past.messages.map Message.view).Pairwise (· ≤ ·)
  observes : t.observer = true → past.messages = [] ∧ ∀ view, .buildProposal view ∉ past.requests

/-- All plain proposals are of the first view, so there is at most one. -/
theorem Record.proposes_once {said : List Message} (h : t.Record p said) :
    (said.filter fun m => m.kind = .prePrepare).length ≤ 1 := by
  have hslots : ∀ slot ∈ (said.filter fun m => m.kind = .prePrepare).map Message.slot,
      slot = (.prePrepare, 0) := by
    intro slot hslot
    obtain ⟨m, hm, rfl⟩ := List.mem_map.1 hslot
    obtain ⟨hmem, hkind⟩ := List.mem_filter.1 hm
    obtain ⟨-, hrole⟩ := h.role m hmem
    rcases m with m | s | s | m | n
    · exact Prod.ext rfl hrole.2
    all_goals exact absurd hkind (by simp [Message.kind])
  have hnodup := h.distinct.sublist ((List.filter_sublist (p := fun m : Message =>
    decide (m.kind = .prePrepare)) (l := said)).map Message.slot)
  have hrep := List.eq_replicate_of_mem hslots
  rw [hrep, List.nodup_replicate] at hnodup
  rwa [List.length_map] at hnodup

/-- **A member speaks once, and in its role.**  Over a whole run it sends at most one plain
proposal and at most one message of each kind in each view; a vote and a commit of one
view are for the proposal that is stored for it; only the leader of a view proposes in it
or opens it, and the leader does not vote; every message is the member's own, of its
height, and of the view that the member is in when it is through with the input at hand,
so that the views of its messages ascend; and an observer is silent. -/
theorem Run.disciplined (run : t.Run past) : t.Disciplined past ∧
    ∀ {stimulus : Stimulus} {step : Step}, t.Permits past stimulus →
      t.react past.progress stimulus = .ok step →
        ∀ recipients m, .send recipients m ∈ step.requests → m.view = step.progress.view := by
  have hplaced := run.trace.placed
  have hrecord := run.trace.record
  have hrole : ∀ {m}, past.Sent m → t.observer = false ∧ t.InRole m := fun hm =>
    hrecord.role _ (Past.mem_messages.2 hm)
  have hvote : ∀ {s}, past.Sent (.prepare s) →
      past.progress.log.Holds s.content.view s.content.blockHash := fun hs =>
    run.trace.meant (Or.inl ⟨_, hs, List.mem_cons_self⟩)
  have hcommit : ∀ {s}, past.Sent (.commit s) →
      past.progress.log.Holds s.content.view s.content.blockHash := fun {s} hs =>
    Backs.holds (run.trace.meant (s := .commit s.content) (Or.inl ⟨_, hs, List.mem_cons_self⟩))
  refine ⟨⟨hrecord.proposes_once, hrecord.distinct, ?_, ?_, ?_, ?_, ?_, ?_, ?_, hrecord.ascending,
    ?_⟩, fun permits react recipients m hm => run.view_of_sent permits react hm⟩
  · intro s hs
    exact hplaced.prePrepare?_of_holds (hvote hs)
  · intro s hs
    exact hplaced.prePrepare?_of_holds (hcommit hs)
  · intro s c hs hc hview
    have hholds := hvote hs
    rw [hview] at hholds
    exact hplaced.holds_unique hholds (hcommit hc)
  · intro s hs
    exact (hrole hs).2
  · intro m hm
    exact (hrole hm).2.1
  · intro n hn
    exact (hrole hn).2
  · rintro m ⟨recipients, hm⟩
    exact ⟨(run.trace.addressed hm).height, (run.trace.addressed hm).sender⟩
  · intro observer
    refine ⟨List.eq_nil_iff_forall_not_mem.2 fun m hm => ?_, fun view hview => ?_⟩
    · obtain ⟨hmember, -⟩ := hrecord.role m hm
      exact absurd (observer.symm.trans hmember) (by simp)
    · have hmember := member_of_leads (run.trace.leads_of_builds hview)
      exact absurd (observer.symm.trans hmember) (by simp)

/-- The second member has voted for a block and committed to it in the first view, and has
opened the second view with it.  There a quorum voted for it again. -/
def outspokenPast : Past :=
  (Assembly.sample.term 1).play [.message (.prePrepare (Assembly.proposalBy 0 0)),
    .event (.validationFinished (Assembly.proposalBy 0 0) true), .message (Assembly.voteBy 2 0),
    .event (.electionTimeout 0), .message (.viewChange (Assembly.requestBy 2 1)),
    .message (.viewChange (Assembly.requestBy 3 1)), .message (Assembly.voteBy 2 1),
    .message (Assembly.voteBy 3 1)]

/-- The second member has said something of almost every kind, and asks for a third view. -/
theorem disciplined_sample :
    outspokenPast.messages.map Message.slot =
        [(.prepare, 0), (.commit, 0), (.newView, 1), (.commit, 1)] ∧
      (Assembly.sample.term 1).Disciplined outspokenPast ∧
        ∃ step, (Assembly.sample.term 1).react outspokenPast.progress
            (.event (.electionTimeout 1)) = .ok step ∧
          .send [2] (.viewChange ((Assembly.sample.term 1).nextRequest outspokenPast.progress)) ∈
              step.requests ∧
            ∀ recipients m, .send recipients m ∈ step.requests → m.view = step.progress.view := by
  have hrun : (Assembly.sample.term 1).Run outspokenPast := run_play _
  have hpermits : (Assembly.sample.term 1).Permits outspokenPast (.event (.electionTimeout 1)) :=
    trivial
  obtain ⟨step, hreact, hasks⟩ : ∃ step, (Assembly.sample.term 1).react outspokenPast.progress
      (.event (.electionTimeout 1)) = .ok step ∧ .send [2] (.viewChange
        ((Assembly.sample.term 1).nextRequest outspokenPast.progress)) ∈ step.requests := by
    decide +kernel
  obtain ⟨hdisciplined, hviews⟩ := Run.disciplined hrun
  exact ⟨by decide +kernel, hdisciplined, step, hreact, hasks, hviews hpermits hreact⟩

end Term

end CommitteeConsensus
