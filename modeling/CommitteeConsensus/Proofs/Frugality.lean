import CommitteeConsensus.Proofs.Discipline
import Mathlib.Data.List.ProdSigma

/-!
# A log that cannot be flooded

Whoever can send messages can send many of them, for any view and for any number of blocks.  The
log itself would keep a vote for each block.  That it does not fill up is the work of the
handlers: they keep nothing of a view that is too far ahead, and nothing of a sender they have
something of already.

Two things are in the way of a simple invariant.  The window of the views moves along with the
view of the member, and the member files its own votes without any of these checks.  So a message
that is counted is reduced to its *slot*, its view and its sender (`MessageLog.slots`).  A step
takes at most one slot, and one that is free (`Term.Takes`).  For the messages of others this was
checked.  For its own it holds because a member that has filed one has spent the right to send
it, and sends only what it has a right to (`Progress.Spent`).

With what is known of everything that is filed (`Trace.sound`), a log holds at most one vote and
one commit of each member in each view, and views above the window not at all
(`Run.log_clean`).
-/

namespace CommitteeConsensus

/-! ## Slots -/

section Filing

variable {α β : Type} {sameKey before : α → α → Bool}

/-- To file a message is to add it, or to do nothing. -/
theorem map_filed (f : α → β) (a : α) (held : List α) :
    (filed sameKey before a held).map f = held.map f ∨
      ((filed sameKey before a held).map f).Perm (f a :: held.map f) := by
  rw [filed]
  rcases hfiled : fileFirst? sameKey before a held with _ | l
  · exact Or.inl rfl
  · obtain ⟨-, rfl⟩ := fileFirst?_eq_some.1 hfiled
    exact Or.inr ((perm_placeBefore a held).map f)

end Filing

namespace MessageLog

/-- The views and the senders of the messages of a kind that are counted. -/
def slots (log : MessageLog) : MessageKind → List (View × MemberId)
  | .prepare => log.prepares.map fun s => (s.content.view, s.sender)
  | .commit => log.commits.map fun s => (s.content.view, s.sender)
  | .viewChange => log.viewChanges.map fun m => (m.view, m.sender)
  | .prePrepare | .newView => []

/-- Of all slots, at most this one is taken. -/
def Takes (log log' : MessageLog) (kind : MessageKind) (slot : View × MemberId) : Prop :=
  ∀ kind', log'.slots kind' = log.slots kind' ∨
    kind' = kind ∧ (log'.slots kind').Perm (slot :: log.slots kind')

variable {log log' : MessageLog}

theorem slots_congr (prepares : log'.prepares = log.prepares) (commits : log'.commits = log.commits)
    (viewChanges : log'.viewChanges = log.viewChanges) (kind : MessageKind) :
    log'.slots kind = log.slots kind := by
  cases kind with
  | prePrepare | newView => rfl
  | prepare => rw [slots, slots, prepares]
  | commit => rw [slots, slots, commits]
  | viewChange => rw [slots, slots, viewChanges]

theorem slots_storePrePrepare? {m : PrePrepare} (h : log.storePrePrepare? m = some log')
    (kind : MessageKind) : log'.slots kind = log.slots kind := by
  obtain ⟨-, rfl⟩ := storePrePrepare?_eq_some.1 h
  exact slots_congr rfl rfl rfl kind

theorem takes_withPrepare (log : MessageLog) (s : Signed PrepareContent) :
    log.Takes (log.withPrepare s) .prepare (s.content.view, s.sender) := by
  intro kind
  rw [withPrepare_eq]
  cases kind with
  | prepare => exact (map_filed _ s log.prepares).imp_right fun hperm => ⟨rfl, hperm⟩
  | _ => exact Or.inl rfl

theorem takes_withCommit (log : MessageLog) (s : Signed CommitContent) :
    log.Takes (log.withCommit s) .commit (s.content.view, s.sender) := by
  intro kind
  rw [withCommit_eq]
  cases kind with
  | commit => exact (map_filed _ s log.commits).imp_right fun hperm => ⟨rfl, hperm⟩
  | _ => exact Or.inl rfl

theorem takes_withViewChange (log : MessageLog) (m : ViewChange) :
    log.Takes (log.withViewChange m) .viewChange (m.view, m.sender) := by
  intro kind
  rw [withViewChange_eq]
  cases kind with
  | viewChange => exact (map_filed _ m log.viewChanges).imp_right fun hperm => ⟨rfl, hperm⟩
  | _ => exact Or.inl rfl

section Free

variable {h : Height} {v : View} {i : MemberId}

theorem prepare_slot_free (heights : ∀ b ∈ log.prepares, b.content.height = h)
    (first : log.hasPrepareFrom h v i = false) : (v, i) ∉ log.slots .prepare := by
  intro htaken
  obtain ⟨b, hb, hslot⟩ := List.mem_map.1 htaken
  obtain ⟨hview, hsender⟩ := Prod.mk.inj hslot
  refine List.any_eq_false.1 first b hb ?_
  simp [heights b hb, hview, hsender]

theorem commit_slot_free (heights : ∀ b ∈ log.commits, b.content.height = h)
    (first : log.hasCommitFrom h v i = false) : (v, i) ∉ log.slots .commit := by
  intro htaken
  obtain ⟨b, hb, hslot⟩ := List.mem_map.1 htaken
  obtain ⟨hview, hsender⟩ := Prod.mk.inj hslot
  refine List.any_eq_false.1 first b hb ?_
  simp [heights b hb, hview, hsender]

theorem viewChange_slot_free {m : ViewChange} (heights : ∀ b ∈ log.viewChanges, b.height = m.height)
    (stored : log.storeViewChange? m = some log') : (m.view, m.sender) ∉ log.slots .viewChange := by
  intro htaken
  obtain ⟨b, hb, hslot⟩ := List.mem_map.1 htaken
  obtain ⟨hview, hsender⟩ := Prod.mk.inj hslot
  refine viewChangeKey_free stored (List.mem_map.2 ⟨b, hb, ?_⟩)
  rw [viewChangeKey, viewChangeKey, heights b hb, hview, hsender]

end Free

end MessageLog

namespace Term

variable {t : Term} {p q : Progress} {rs : List Request} {stimulus : Stimulus} {past : Past}
  {view : View}

/-! ## What a step takes -/

/-- The highest view of which something is kept. -/
def horizon (t : Term) (p : Progress) : View := max p.view (satAdd p.view t.viewsAhead)

theorem horizon_mono (t : Term) (h : p.view ≤ q.view) : t.horizon p ≤ t.horizon q :=
  Nat.max_le.2 ⟨Nat.le_trans h (Nat.le_max_left _ _),
    Nat.le_trans (satAdd_le_satAdd t.viewsAhead h) (Nat.le_max_right _ _)⟩

theorem le_horizon_of_le (t : Term) (h : view ≤ p.view) : view ≤ t.horizon p :=
  Nat.le_trans h (Nat.le_max_left _ _)

theorem le_horizon_of_near (h : t.tooFarAhead p view = false) : view ≤ t.horizon p :=
  Nat.le_trans (Nat.le_of_not_lt (of_decide_eq_false h)) (Nat.le_max_right _ _)

/-- A message is taken into the log: nothing else is, there was none of its slot, its view is
within the window, and if it is the member's own, then the right to it is spent. -/
structure Filing (t : Term) (p q : Progress) (kind : MessageKind) (slot : View × MemberId) :
    Prop where
  takes : p.log.Takes q.log kind slot
  free : slot ∉ p.log.slots kind
  near : slot.1 ≤ t.horizon q
  own : slot.2 = t.me → q.Spent kind slot.1

/-- A step takes nothing, or one message. -/
def Takes (t : Term) (p q : Progress) : Prop :=
  (∀ kind, q.log.slots kind = p.log.slots kind) ∨ ∃ kind slot, t.Filing p q kind slot

/-- **Every slot is taken once**, none of them is beyond the window, and the member's own are
those it has spent. -/
structure Frugal (t : Term) (p : Progress) : Prop where
  once : ∀ kind, (p.log.slots kind).Nodup
  near : ∀ kind, ∀ slot ∈ p.log.slots kind, slot.1 ≤ t.horizon p
  own : ∀ kind, ∀ slot ∈ p.log.slots kind, slot.2 = t.me → p.Spent kind slot.1

theorem Takes.of_log_eq (h : q.log = p.log) : t.Takes p q :=
  Or.inl fun kind => congrArg (MessageLog.slots · kind) h

theorem slots_install (p : Progress) (m : PrePrepare) (kind : MessageKind) :
    (p.install m).progress.log.slots kind = p.log.slots kind := by
  rw [Progress.install]
  split
  · rfl
  · next log stored => exact MessageLog.slots_storePrePrepare? stored kind

theorem Act.takes (h : t.Act stimulus past.progress rs q) (trace : t.Trace past)
    (permits : t.Permits past stimulus) (frugal : t.Frugal past.progress) :
    t.Takes past.progress q := by
  have hplaced := trace.placed
  -- the log is of one height, so the handlers' questions about a sender are questions about slots
  have hheight : ∀ m, past.progress.log.Files m → m.height = t.height :=
    fun _ filed => trace.height_of_files filed
  generalize past.progress = p at h hplaced hheight frugal ⊢
  cases h with
  | ignore | start | examine | release => exact .of_log_eq rfl
  | follow | watch => exact .of_log_eq (p.log_reach _)
  | @approve _ m log live view validating stored =>
    have hvacant := hplaced.not_proposed stored (trace.validated permits m true rfl)
    have hslots := MessageLog.slots_storePrePrepare? stored
    rcases t.voteFor_cases { p with validating := none, log, phase := .collectingPrePrepare } m with
      hquiet | ⟨-, hvote⟩
    · rw [hquiet]
      exact Or.inl hslots
    · rw [hvote]
      -- an own vote of this view would have gone along with a proposal
      refine Or.inr ⟨.prepare, (m.view, t.me), fun kind => ?_, fun htaken => ?_, ?_, fun _ => ?_⟩
      · rw [← hslots kind]
        exact MessageLog.takes_withPrepare log _ kind
      · exact hvacant (frugal.own .prepare _ htaken rfl)
      · exact t.le_horizon_of_le (Nat.le_of_eq view)
      · refine ⟨m, ?_, rfl⟩
        show m ∈ (log.withPrepare _).prePrepares
        rw [MessageLog.prePrepares_withPrepare]
        exact (MessageLog.mem_storePrePrepare? stored).2 (Or.inl rfl)
  | propose => exact Or.inl (slots_install p _)
  | openPending => exact Or.inl (slots_install { p with pendingNewView := none } _)
  | elapse live member =>
    have hview : (t.elapsed p).view = p.view + 1 := p.view_reach (Nat.le_succ _)
    refine Or.inr ⟨.viewChange, (p.view + 1, t.me), MessageLog.takes_withViewChange p.log _,
      fun htaken => ?_, t.le_horizon_of_le (Nat.le_of_eq hview.symm),
      fun _ => Nat.le_of_eq hview.symm⟩
    exact Nat.not_succ_le_self _ (frugal.own .viewChange _ htaken rfl)
  | @keepPrepare _ s live mem height current near sender fits verifies first =>
    have hfree := MessageLog.prepare_slot_free (fun b hb => hheight (.prepare b) hb) first
    exact Or.inr ⟨.prepare, (s.content.view, s.sender), MessageLog.takes_withPrepare p.log s,
      hfree, le_horizon_of_near near, fun heq => absurd heq permits.2⟩
  | @keepCommit _ s live mem height current near fits verifies share first =>
    have hfree := MessageLog.commit_slot_free (fun b hb => hheight (.commit b) hb) first
    exact Or.inr ⟨.commit, (s.content.view, s.sender), MessageLog.takes_withCommit p.log s,
      hfree, le_horizon_of_near near, fun heq => absurd heq permits.2⟩
  | @keepViewChange _ m log live current near leads admits stored =>
    have hfree := MessageLog.viewChange_slot_free
      (fun b hb => (hheight (.viewChange b) hb).trans permits.1.symm) stored
    refine Or.inr ⟨.viewChange, (m.view, m.sender), ?_, hfree, le_horizon_of_near near,
      fun heq => absurd heq permits.2⟩
    rw [MessageLog.storeViewChange?_eq_some stored]
    exact MessageLog.takes_withViewChange p.log m

theorem Consequence.takes (h : t.Consequence p rs q) (frugal : t.Frugal p) : t.Takes p q := by
  cases h with
  | @repropose view block hash claims =>
    left
    intro kind
    rw [slots_install, p.log_claim]
  | @await view => exact .of_log_eq (p.log_claim view)
  | @commit m phase proposal =>
    obtain ⟨hmem, -, hview⟩ := MessageLog.of_prePrepare?_eq_some proposal
    rcases t.commitTo_cases { p with phase := .prepared } m.blockHash with hquiet | ⟨-, hcommit⟩
    · rw [hquiet]
      exact .of_log_eq rfl
    · rw [hcommit]
      refine Or.inr ⟨.commit, (p.view, t.me), MessageLog.takes_withCommit p.log _,
        fun htaken => (frugal.own .commit _ htaken rfl).2 rfl phase,
        t.le_horizon_of_le (Nat.le_refl p.view), fun _ => ⟨⟨m, ?_, hview⟩, fun _ => ?_⟩⟩
      · show m ∈ (p.log.withCommit _).prePrepares
        rw [MessageLog.prePrepares_withCommit]
        exact hmem
      · simp [Step.ask]
  | decide => exact .of_log_eq rfl

/-! ## What is in the log of a run -/

/-- The slots after a step are those before it, but for one that was free. -/
theorem Takes.slots (takes : t.Takes p q) (kind : MessageKind) :
    ((p.log.slots kind).Nodup → (q.log.slots kind).Nodup) ∧
      ∀ slot ∈ q.log.slots kind, slot ∈ p.log.slots kind ∨
        slot.1 ≤ t.horizon q ∧ (slot.2 = t.me → q.Spent kind slot.1) := by
  have hcases : q.log.slots kind = p.log.slots kind ∨
      ∃ new, (q.log.slots kind).Perm (new :: p.log.slots kind) ∧ t.Filing p q kind new := by
    rcases takes with hnone | ⟨kind', new, hfiling⟩
    · exact Or.inl (hnone kind)
    · exact (hfiling.takes kind).imp_right fun ⟨heq, hperm⟩ => ⟨new, hperm, heq ▸ hfiling⟩
  rcases hcases with hsame | ⟨new, hperm, hfiling⟩
  · rw [hsame]
    exact ⟨id, fun slot hslot => Or.inl hslot⟩
  · refine ⟨fun hnodup => hperm.nodup_iff.2 (List.nodup_cons.2 ⟨hfiling.free, hnodup⟩),
      fun slot hslot => ?_⟩
    rcases List.mem_cons.1 (hperm.mem_iff.1 hslot) with rfl | hold
    · exact Or.inr ⟨hfiling.near, hfiling.own⟩
    · exact Or.inl hold

/-- **A step keeps the log frugal.**  What was in the log stays within the window, and spent. -/
theorem Frugal.takes (frugal : t.Frugal p) (placed : t.Placed p) (furthers : p.Furthers q)
    (takes : t.Takes p q) : t.Frugal q where
  once kind := (takes.slots kind).1 (frugal.once kind)
  near kind slot hslot := by
    rcases (takes.slots kind).2 slot hslot with hold | ⟨hnear, -⟩
    · exact Nat.le_trans (frugal.near kind slot hold) (t.horizon_mono furthers.view)
    · exact hnear
  own kind slot hslot hme := by
    rcases (takes.slots kind).2 slot hslot with hold | ⟨-, hown⟩
    · exact placed.spent_mono furthers (frugal.own kind slot hold hme)
    · exact hown hme

theorem frugal_fresh : t.Frugal Past.fresh.progress := by
  have hempty : ∀ kind, Past.fresh.progress.log.slots kind = [] := by
    intro kind
    cases kind <;> rfl
  refine ⟨fun kind => ?_, fun kind slot hslot => ?_, fun kind slot hslot => ?_⟩
  · rw [hempty]
    exact List.nodup_nil
  · rw [hempty] at hslot
    exact absurd hslot List.not_mem_nil
  · rw [hempty] at hslot
    exact absurd hslot List.not_mem_nil

theorem Trace.frugal (h : t.Trace past) : t.Frugal past.progress := by
  induction h with
  | fresh => exact frugal_fresh
  | act trace permits rest act ih =>
    exact ih.takes trace.placed (act.furthers trace permits) (act.takes trace permits ih)
  | consequence trace consequence ih =>
    exact ih.takes trace.placed (consequence.furthers trace.placed) (consequence.takes ih)

/-- A request for a view that an act files is the member's own, or was checked. -/
theorem Act.admitted (h : t.Act stimulus p rs q) {m : ViewChange} (hm : m ∈ q.log.viewChanges) :
    m ∈ p.log.viewChanges ∨ m.sender = t.me ∨
      t.leads m.view = true ∧ t.admitsViewChange m = true := by
  rcases h.viewChanges hm with hold | ⟨⟨rfl, -⟩, -⟩ | rfl
  · exact Or.inl hold
  · exact Or.inr (Or.inl rfl)
  · cases h with
    | ignore => exact Or.inl hm
    | keepViewChange live current near leads admits => exact Or.inr (Or.inr ⟨leads, admits⟩)

theorem Trace.admitted (h : t.Trace past) {m : ViewChange}
    (hm : m ∈ past.progress.log.viewChanges) (other : m.sender ≠ t.me) :
    t.leads m.view = true ∧ t.admitsViewChange m = true := by
  induction h with
  | fresh => exact absurd hm List.not_mem_nil
  | act trace permits rest act ih =>
    rcases act.admitted hm with hold | hme | hchecked
    · exact ih hold
    · exact absurd hme other
    · exact hchecked
  | consequence trace consequence ih => exact ih (consequence.viewChanges_eq ▸ hm)

/-! ## Main result -/

/-- A message may be counted: it is of the height, by a member, and of a view in the window. -/
structure Countable (t : Term) (p : Progress) (height : Height) (view : View)
    (sender : MemberId) : Prop where
  height : height = t.height
  member : sender ∈ t.committee.members
  near : view ≤ satAdd p.view t.viewsAhead

/-- **A log that is clean.**  What is counted may be counted and verifies, and there is nothing
to be gained by sending more of it. -/
structure CleanLog (t : Term) (p : Progress) : Prop where
  prepares : ∀ s ∈ p.log.prepares,
    t.Countable p s.content.height s.content.view s.sender ∧ s.verifies t.keys = true
  commits : ∀ s ∈ p.log.commits,
    t.Countable p s.content.height s.content.view s.sender ∧ s.verifies t.keys = true
  viewChanges : ∀ m ∈ p.log.viewChanges,
    t.Countable p m.height m.view m.sender ∧ m.signed.verifies t.keys = true
  /-- For each view and sender there is at most one message of each kind, whatever block it is
  for. -/
  once : ∀ kind, (p.log.slots kind).Nodup
  /-- So there are not more of them than views in the window for each member. -/
  bounded : ∀ kind, (p.log.slots kind).length ≤
    (satAdd p.view t.viewsAhead + 1) * t.committee.members.length
  followers : ∀ s ∈ p.log.prepares, s.sender ≠ t.committee.leader s.content.view
  shares : ∀ s ∈ p.log.commits,
    t.keys.verifySeed t.height t.seed s.content.seedShare s.sender = true
  /-- The requests of others are for views that the member leads, and a proof that claims
  something comes with its block. -/
  requests : ∀ m ∈ p.log.viewChanges, m.sender ≠ t.me →
    t.leads m.view = true ∧ t.committee.acceptsVote t.keys t.height m.view m.signed = true ∧
      ∀ proof, m.signed.content.preparedProof = some proof →
        ¬(proof.prePrepare = none ∧ proof.prepares = []) →
          ∃ hash block, proof.blockHash = some hash ∧ m.block = some block ∧ t.Fits block hash

/-- What the keys of the member say of evidence, and nothing about blocks. -/
theorem trusts_of_honest (honest : t.keys.Honest) (past : Past) :
    t.Trusts { t.reading with fits := fun _ _ => True } past where
  received _ _ _ _ _ hverified := hverified
  own statement _ := honest.sign statement.bytes
  shares _ _ hshare := hshare
  ownShare := honest.signSeed t.height t.seed
  admitted _ _ _ _ _ _ := trivial
  built _ _ _ _ := trivial

/-- A proof that is accepted and claims something has a block, and the request brings it. -/
theorem brings_of_admits {m : ViewChange} (admits : t.admitsViewChange m = true)
    {proof : PreparedProof} (hproof : m.signed.content.preparedProof = some proof)
    (claims : ¬(proof.prePrepare = none ∧ proof.prepares = [])) :
    ∃ hash block, proof.blockHash = some hash ∧ m.block = some block ∧ t.Fits block hash := by
  obtain ⟨hasked, hbrings⟩ := admitsViewChange_iff.1 admits
  rcases hasked.proves proof hproof with hvacuous | ⟨proposal, hproposal, -⟩
  · exact absurd hvacuous claims
  · have hhash : proof.blockHash = some proposal.content.blockHash := by
      rw [PreparedProof.blockHash, hproposal]
      rfl
    obtain ⟨block, hblock, hfits⟩ := hbrings proposal.content.blockHash (by
      rw [hproof]
      exact hhash)
    exact ⟨_, block, hhash, hblock, hfits⟩

/-- The window ends where a sum that stops at the largest word does, as long as the view is a
word itself. -/
theorem Frugal.near_of_word (frugal : t.Frugal p) (word : p.view ≤ maxWord) {kind : MessageKind}
    {slot : View × MemberId} (hslot : slot ∈ p.log.slots kind) :
    slot.1 ≤ satAdd p.view t.viewsAhead :=
  Nat.le_trans (frugal.near kind slot hslot)
    (Nat.max_le.2 ⟨le_satAdd t.viewsAhead word, Nat.le_refl _⟩)

/-- The slots are taken by members. -/
theorem SoundLog.member_of_slot {r : Reading} (sound : t.SoundLog r p) {kind : MessageKind}
    {slot : View × MemberId} (hslot : slot ∈ p.log.slots kind) :
    slot.2 ∈ t.committee.members := by
  cases kind with
  | prePrepare | newView => exact absurd hslot List.not_mem_nil
  | prepare =>
    obtain ⟨s, hs, rfl⟩ := List.mem_map.1 hslot
    exact (sound.prepares s hs).mem
  | commit =>
    obtain ⟨s, hs, rfl⟩ := List.mem_map.1 hslot
    exact (sound.commits s hs).mem
  | viewChange =>
    obtain ⟨m, hm, rfl⟩ := List.mem_map.1 hslot
    exact (sound.viewChanges m hm).1.mem

/-- The slots are distinct pairs of a view in the window and a member. -/
theorem Frugal.length_slots_le {r : Reading} (frugal : t.Frugal p) (sound : t.SoundLog r p)
    (word : p.view ≤ maxWord) (kind : MessageKind) : (p.log.slots kind).length ≤
      (satAdd p.view t.viewsAhead + 1) * t.committee.members.length := by
  have hsub : p.log.slots kind ⊆
      List.range (satAdd p.view t.viewsAhead + 1) ×ˢ t.committee.members := by
    intro slot hslot
    have hview : slot.1 < satAdd p.view t.viewsAhead + 1 :=
      Nat.lt_succ_of_le (frugal.near_of_word word hslot)
    exact List.mem_product.2 ⟨List.mem_range.2 hview, sound.member_of_slot hslot⟩
  have hle := (List.subperm_of_subset (frugal.once kind) hsub).length_le
  rwa [List.length_product, List.length_range] at hle

/-- **A log cannot be flooded.**  Whatever a term on an empty log is given, as long as it is of
its height and not in its own name: what it has stored of votes, commits and requests for a view
is by members and verifies, and none of it is above the window of the views.  For each view and
sender there is one vote and one commit at most, over all blocks, and so there is a bound on all
of it.  No vote is by the leader of its view, every commit has a valid share of the seed, and a
request of another member was accepted with its proof, for a view that the member leads, and has
the block of the proof with it.

Views are words, and the window ends with the largest one. -/
theorem Run.log_clean (run : t.Run past) (honest : t.keys.Honest)
    (word : past.progress.view ≤ maxWord) : t.CleanLog past.progress := by
  have hfrugal := run.trace.frugal
  have hsound := (run.trace.sound (trusts_of_honest honest past)).1
  refine ⟨fun s hs => ?_, fun s hs => ?_, fun m hm => ?_, hfrugal.once,
    hfrugal.length_slots_le hsound word, fun s hs => (hsound.prepares s hs).sender_ne,
    fun s hs => (hsound.commits s hs).share, fun m hm other => ?_⟩
  · have hvoted := hsound.prepares s hs
    have hslot : (s.content.view, s.sender) ∈ past.progress.log.slots .prepare :=
      List.mem_map.2 ⟨s, hs, rfl⟩
    exact ⟨⟨hvoted.height_eq, hvoted.mem, hfrugal.near_of_word word hslot⟩, hvoted.signed⟩
  · have hcommitted := hsound.commits s hs
    have hslot : (s.content.view, s.sender) ∈ past.progress.log.slots .commit :=
      List.mem_map.2 ⟨s, hs, rfl⟩
    exact ⟨⟨hcommitted.height_eq, hcommitted.mem, hfrugal.near_of_word word hslot⟩,
      hcommitted.signed⟩
  · have hasked := (hsound.viewChanges m hm).1
    have hslot : (m.view, m.sender) ∈ past.progress.log.slots .viewChange :=
      List.mem_map.2 ⟨m, hm, rfl⟩
    exact ⟨⟨hasked.height_eq, hasked.mem, hfrugal.near_of_word word hslot⟩, hasked.signed⟩
  · obtain ⟨hleads, hadmits⟩ := run.trace.admitted hm other
    exact ⟨hleads, (Committee.acceptsVote_iff t.keys).2 (admitsViewChange_iff.1 hadmits).1,
      fun proof hproof claims => brings_of_admits hadmits hproof claims⟩

/-- A request of member `2` for view `1`, with proof that the block was prepared in view `0`. -/
def provenRequest : ViewChange :=
  (Assembly.plainKeys 2).viewChange 1 1 (some ⟨Assembly.proposalBy 0 0,
    [(Assembly.plainKeys 2).prepare 1 0 Assembly.sampleBlock.2,
      (Assembly.plainKeys 3).prepare 1 0 Assembly.sampleBlock.2]⟩)

/-- The second member is given votes of member `2` for two blocks of view `1` and one of a view
too far ahead, a vote of nobody in the committee and one that is not signed, two commits of
member `3`, and three requests for a view of member `2`. -/
def floodedPast : Past :=
  (Assembly.sample.term 1).play [.message (.prePrepare (Assembly.proposalBy 0 0)),
    .event (.validationFinished (Assembly.proposalBy 0 0) true), .message (Assembly.voteBy 2 1),
    .message (.prepare ((Assembly.plainKeys 2).prepare 1 1 Digest.zero)),
    .message (Assembly.voteBy 2 2), .message (Assembly.voteBy 7 0),
    .message (.prepare ⟨⟨1, 0, Assembly.sampleBlock.2⟩, 3, []⟩),
    .message (.commit ((Assembly.plainKeys 3).commit 1 1 Assembly.sampleBlock.2 0)),
    .message (.commit ((Assembly.plainKeys 3).commit 1 1 Digest.zero 0)),
    .message (.viewChange provenRequest), .message (.viewChange (Assembly.requestBy 2 1)),
    .message (.viewChange (Assembly.requestBy 2 5))]

/-- Besides the own vote, the first message of each kind is all that is kept. -/
theorem log_clean_flooded :
    ((Assembly.sample.term 1).Run floodedPast ∧ floodedPast.progress.view ≤ maxWord) ∧
      floodedPast.progress.log.slots .prepare = [(0, 1), (1, 2)] ∧
        floodedPast.progress.log.slots .commit = [(1, 3)] ∧
          floodedPast.progress.log.viewChanges = [provenRequest] ∧
            (Assembly.sample.term 1).CleanLog floodedPast.progress := by
  have hrun : (Assembly.sample.term 1).Run floodedPast := run_play _
  have hword : floodedPast.progress.view ≤ maxWord := by decide +kernel
  exact ⟨⟨hrun, hword⟩, by decide +kernel, by decide +kernel, by decide +kernel,
    Run.log_clean hrun (Assembly.plainKeys_honest 1) hword⟩

end Term

end CommitteeConsensus
