import CommitteeConsensus.Proofs.Orderly
import CommitteeConsensus.Proofs.Passage
import CommitteeConsensus.Proofs.Upkeep

/-!
# A decision takes every member along

What one member decided, another one takes over: its controller is given the block, its
proof and the proof of the block before, and goes on after that height.  Here it is
shown that it does go on, whatever it was doing.

A call may end early, and on the way from one height to the next a controller has no active
term.  It gets one as soon as the host names the committee; so what is said of a call that
starts a height is either that the active height is above a floor, or that such a height is
about to be started (`Controller.HeadsAbove`).  This holds at every move, and at the end only the
former is left, however the call ended.

That it does not end early takes more of the controller, namely that its filter and its term
are in step, and room for as many heights as it has cached messages for
(`Controller.sync_takes_over`).
-/

namespace CommitteeConsensus

namespace Controller

variable {moment : Moment} {height floor : Height} {c c' : Controller} {a a' : Agenda}
  {es : List Effect}

/-! ## Above a floor -/

/-- The host names a committee for every height above this one. -/
def NamesCommitteesAbove (floor : Height) (moment : Moment) : Prop :=
  ∀ height seed, floor < height →
    ∃ members, moment.committeeOf height seed = .ok members ∧ members ≠ []

theorem NamesCommitteesAbove.names (h : NamesCommitteesAbove floor moment)
    (habove : floor < height) (seed : Seed) : ∃ committee, moment.Names height seed committee := by
  obtain ⟨members, hmembers, hne⟩ := h height seed habove
  exact ⟨⟨members, hne⟩, members, hmembers, dif_neg hne⟩

/-- The height of the active term is above this one. -/
def IsAbove (floor : Height) (c : Controller) : Prop :=
  ∃ height, c.height? = some height ∧ floor < height

/-- The active height is above a floor, or such a height is about to be started. -/
def HeadsAbove (floor : Height) (c : Controller) (a : Agenda) : Prop :=
  c.IsAbove floor ∨ ∃ next, a = .start next ∧ floor < next ∧ c.checkStart next = .ok ()

theorem checkStart_of_lt {c : Controller} (h : ∀ current, c.height? = some current →
    current < height) : c.checkStart height = .ok () := by
  rw [checkStart]
  rcases hc : c.height? with _ | current
  · rfl
  · exact if_pos (h current hc)

theorem lt_of_checkStart {c : Controller} {current : Height} (hc : c.height? = some current)
    (h : c.checkStart height = .ok ()) : current < height := by
  simp only [checkStart, hc] at h
  split at h
  · assumption
  · exact absurd h (by simp)

/-- A height that is started on the way is above the floor. -/
theorem HeadsAbove.lt_of_start (h : c.HeadsAbove floor (.start height))
    (check : c.checkStart height = .ok ()) : floor < height := by
  rcases h with ⟨current, hcurrent, hlt⟩ | ⟨next, hnext, hlt, -⟩
  · exact Nat.lt_trans hlt (lt_of_checkStart hcurrent check)
  · rw [Agenda.start.inj hnext]
    exact hlt

/-- Whatever is not the start of a height is done above the floor. -/
theorem HeadsAbove.isAbove (h : c.HeadsAbove floor a) (other : ∀ next, a ≠ .start next) :
    c.IsAbove floor :=
  h.resolve_right fun ⟨next, hnext, _⟩ => other next hnext

/-- Every move heads on: the active height stays as it is, unless a height is started. -/
theorem Move.headsAbove (move : Move moment c a es c' a') (h : c.HeadsAbove floor a) :
    c'.HeadsAbove floor a' := by
  refine Or.inl ?_
  cases move with
  | begin | sift | adopt | commit | succeed => exact h.isAbove fun _ => by simp
  | skip skips => cases skips <;> exact h.isAbove fun _ => by simp
  | @react t p _ metrics stimulus messages s stage gives =>
    obtain ⟨current, hcurrent, hlt⟩ := h.isAbove fun _ hstart => by subst hstart; cases gives
    rw [height?_of_stage stage] at hcurrent
    exact ⟨t.height, height?_followed _ _ _ _, Option.some.inj hcurrent ▸ hlt⟩
  | start check => exact ⟨_, height?_begun _ _ _ _, h.lt_of_start check⟩

/-- An early end leaves the controller above the floor as well, since the host names the
committees there. -/
theorem Halt.isAbove (names : NamesCommitteesAbove floor moment) {reason : Stop}
    (halt : Halt moment c a es c' reason) (h : c.HeadsAbove floor a) : c'.IsAbove floor := by
  cases halt with
  | sift | sync | succeed => exact h.isAbove fun _ => by simp
  | react stage gives => exact h.isAbove fun _ hstart => by subst hstart; cases gives
  | @check height fault refused =>
    refine h.resolve_right fun ⟨next, hnext, _, allowed⟩ => ?_
    rw [← Agenda.start.inj hnext, refused] at allowed
    exact absurd allowed (by simp)
  | committee check asks =>
    obtain ⟨committee, hnames⟩ := names.names (h.lt_of_start check) (c.leave _).seed
    rw [committee_run_of_names hnames] at asks
    exact absurd asks (by simp)
  | filter check => exact ⟨_, height?_begun _ _ _ _, h.lt_of_start check⟩

/-- A call that starts a height above the floor leads above it, however it ends. -/
theorem Course.isAbove (names : NamesCommitteesAbove floor moment) {o : Outcome Unit}
    (h : Course moment c (.start height) o) (habove : floor < height)
    (check : c.checkStart height = .ok ()) : o.controller.IsAbove floor := by
  have hkept := @Course.induct moment (fun _ c a => c.HeadsAbove floor a)
    (fun move heads => move.headsAbove heads) c (.start height) o h []
    (Or.inr ⟨height, rfl, habove, check⟩)
  rcases hkept with ⟨-, hend⟩ | ⟨c', a', body, tail, reason, -, -, hheads, hhalt⟩
  · exact hend.isAbove fun _ => by simp
  · exact hhalt.isAbove names hheads

/-! ## Taking a block over -/

section Sync

variable {block : Block} {proof : BlockProof} {previous : Option BlockProof}
  {committee : Committee} {current : Height}

/-- **A valid block is taken over.**  A controller at its height or below is given a block with a
proof that holds for the committee of the height.  It takes the block as its tip and goes on to a
higher height; and unless it is out of step, or heights run out, the call goes on to its end. -/
theorem sync_takes_over (names : NamesCommitteesAbove proof.height moment)
    (hcurrent : c.height? = some current) (hle : current ≤ proof.height)
    (hlast : proof.height < maxWord)
    (hmatches : c.capabilities.matchesHash proof.height block proof.blockHash = true)
    (hnames : moment.Names proof.height ((previous.map (·.nextSeed)).getD 0) committee)
    (haccepts : committee.acceptsBlockProof c.capabilities.keys proof
      ((previous.map (·.nextSeed)).getD 0) = true) :
    let o := (sync block proof previous).run moment c
    o.controller.IsAbove proof.height ∧
      (c.InStep → proof.height + c.admission.stocked.length + 2 < maxWord → o.result = .ok ()) := by
  intro o
  have hnot : c.height?.any (proof.height < ·) = false := by
    rw [hcurrent]
    simpa using hle
  have hrun : o = _ := sync_run_of_accepts hnot hmatches hnames haccepts
  rw [nextHeight_of_lt hlast] at hrun
  let taken : Controller := { c with tip := some ⟨block, proof⟩ }
  have hcheck : taken.checkStart (proof.height + 1) = .ok () := by
    refine checkStart_of_lt fun height hheight => ?_
    have heq : height = current := Option.some.inj (hheight.symm.trans hcurrent)
    rw [heq]
    exact Nat.lt_succ_of_le hle
  have hcourse : Course moment taken (.start (proof.height + 1))
    ((setHeight (proof.height + 1)).run moment taken) := course_setHeight
  rw [hrun]
  refine ⟨hcourse.isAbove names (Nat.lt_succ_self _) hcheck, fun inStep room => ?_⟩
  have hlevel : c.admission.height = current := inStep.level current hcurrent
  refine hcourse.ok_of_start ⟨inStep.tidy.congr rfl rfl, inStep.level⟩ hcheck ?_ ?_
    (fun height seed above _ => names.names above seed) fun k hk => ?_
  · show c.admission.height ≤ _
    rw [hlevel]
    exact Nat.le_succ_of_le hle
  · exact Nat.lt_of_le_of_lt (Nat.add_le_add (Nat.le_add_right _ _) (Nat.le_succ 1)) room
  -- what was cached decides how far a call may go on
  · have hup : k ≤ proof.height + 1 + c.admission.stocked.length + 1 := hcourse.le_of_startedIn hk
    rw [Nat.add_right_comm proof.height 1] at hup
    exact Nat.lt_of_le_of_lt hup room

end Sync

end Controller

namespace Term

variable {t : Term} {past : Past} {d : Decision}

/-- A controller that checks blocks and proofs as a term does, with a host that draws the
same committee and one for every height after. -/
structure Follows (t : Term) (moment : Moment) (c : Controller) : Prop where
  matchesHash : c.capabilities.matchesHash = t.capabilities.matchesHash
  transfers : t.keys.Transfers c.capabilities.keys
  aggregate : ∀ shares,
    c.capabilities.keys.aggregate t.height shares = t.keys.aggregate t.height shares
  committee : moment.committeeOf t.height t.seed = .ok t.committee.members
  committees : Controller.NamesCommitteesAbove t.height moment

/-- A host that draws the committee of the term draws that of the decision. -/
theorem Follows.names {moment : Moment} {c : Controller} (h : t.Follows moment c) :
    moment.Names t.height t.seed t.committee :=
  ⟨t.committee.members, h.committee, dif_neg t.committee.nonempty⟩

/-- **Every decision certifies itself.**  Height, view, block and proof of a decision agree,
the proof holds a quorum of commits and is accepted, and so it takes along every
controller that is not beyond its height.  The call goes on to its end if the controller is in
step, as it is between calls (`Serves.inStep`), and if the heights that it has cached messages
for do not reach the last one. -/
theorem Run.decision_certifies_itself (run : t.Run past) (honest : t.keys.Honest)
    (built : t.BuildsFitting past) (hd : .decide d ∈ past.requests) :
    ((d.height = t.height ∧ d.proof.height = d.height ∧ d.proof.view = d.view) ∧
        t.Fits d.block d.proof.blockHash) ∧
      (d.proof.commits.length = t.committee.quorum ∧
        t.committee.acceptsBlockProof t.keys d.proof t.seed = true) ∧
      ∀ (moment : Moment) (c : Controller) (current : Height) (previous : Option BlockProof),
        t.Follows moment c → c.height? = some current → current ≤ d.height →
        d.height < maxWord → (previous.map (·.nextSeed)).getD 0 = t.seed →
          let o := (Controller.sync d.block d.proof previous).run moment c
          (∃ height, o.controller.height? = some height ∧ d.height < height) ∧
            (c.InStep → d.height + c.admission.stocked.length + 2 < maxWord →
              o.result = .ok ()) := by
  have hcertifies := run.trace.certifies ((Peer.refl t).trusts honest built) hd
  have hheight : d.proof.height = d.height := hcertifies.proofHeight.trans hcertifies.height.symm
  refine ⟨⟨⟨hcertifies.height, hheight, hcertifies.view⟩, hcertifies.fits⟩,
    ⟨hcertifies.length, hcertifies.acceptsBlockProof (.refl _) fun _ => rfl⟩, ?_⟩
  intro moment c current previous follows hcurrent hle hlast hseed
  have hmatches : c.capabilities.matchesHash d.proof.height d.block d.proof.blockHash = true := by
    rw [follows.matchesHash, hcertifies.proofHeight]
    exact hcertifies.fits.2
  have hnames : moment.Names d.proof.height ((previous.map (·.nextSeed)).getD 0) t.committee := by
    rw [hseed, hcertifies.proofHeight]
    exact follows.names
  have haccepts := hcertifies.acceptsBlockProof follows.transfers follows.aggregate
  have hnamed : Controller.NamesCommitteesAbove d.proof.height moment := by
    rw [hcertifies.proofHeight]
    exact follows.committees
  rw [← hheight] at hle hlast ⊢
  exact Controller.sync_takes_over hnamed hcurrent hle hlast hmatches hnames
    (hseed.symm ▸ haccepts)

end Term

namespace Service

/-- Member `3` was called to start height `1`, and has not heard of anything since. -/
def unawares : Service :=
  (fresh .standard (Assembly.sample.capabilities 3)).call ⟨0, fun _ _ => .ok [0, 1, 2, 3]⟩
    (.start 1)

theorem unawares_serves : Serves .standard (Assembly.sample.capabilities 3) .anything unawares :=
  .call .fresh (Serves.alive_of_result (.ok ()) rfl (by simp)) trivial

theorem unawares_inStep : unawares.controller.InStep :=
  unawares_serves.inStep (Serves.alive_of_result (.ok ()) (by decide +kernel) (by simp))

end Service

namespace Term

/-- A member that has not heard of anything takes over a block that was decided after a view
change. -/
theorem decision_certifies_itself_sample : ∃ d, .decide d ∈ (Assembly.samplePasts 2).requests ∧
    d.proof.commits.length = 3 ∧
      let o := (Controller.sync d.block d.proof none).run ⟨0, fun _ _ => .ok [0, 1, 2, 3]⟩
        Service.unawares.controller
      (∃ height, o.controller.height? = some height ∧ 1 < height) ∧ o.result = .ok () := by
  have hpresent : 2 ∈ Assembly.sample.present := by decide
  obtain ⟨d, hd⟩ := Assembly.sample_decides hpresent
  obtain ⟨⟨⟨hheight, -, -⟩, -⟩, ⟨hlength, -⟩, hsync⟩ :=
    Run.decision_certifies_itself (t := Assembly.sample.term 2)
      (Assembly.sample_orderly.served _ hpresent).run (Assembly.plainKeys_honest 2)
      (Assembly.sample_orderly.buildsFitting hpresent) hd
  have hone : d.height = 1 := hheight
  rw [hone] at hsync
  obtain ⟨habove, hok⟩ := hsync ⟨0, fun _ _ => .ok [0, 1, 2, 3]⟩ Service.unawares.controller 1 none
    ⟨rfl, Assembly.plainKeys_transfers 2 3, fun _ => rfl, rfl,
      fun _ _ _ => ⟨_, rfl, List.cons_ne_nil _ _⟩⟩ rfl (Nat.le_refl 1) (by decide) rfl
  exact ⟨d, hd, hlength, habove, hok Service.unawares_inStep (by decide +kernel)⟩

end Term

end CommitteeConsensus
