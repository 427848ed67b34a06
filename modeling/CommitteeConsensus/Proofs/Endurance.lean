import CommitteeConsensus.Proofs.Adoption
import CommitteeConsensus.Proofs.Redelivery
import CommitteeConsensus.Proofs.Upkeep

/-!
# No input breaks a promise

A member takes in what anyone sends it, and within it some parts rely on others: the term
takes messages of its height only, heights are started upwards, the filter follows and never goes
back, a view that waits for its block is the current one, requests are executed for an active
term, and a sender over its limit has a message to evict.  Each of these promises is checked
where it is relied on, and a check that fails is the end of the member (`Stop.broken`).  If a
remote peer could bring it about, it could bring the member down.

It cannot, whatever is sent and in whatever order (`BoundedLives.endure`).  What is left to ask
is what nobody within the member can see to: that a committee has members, and that heights and
views do not run out (`Life.Bounds`).  The numbers of arrivals are unbounded here, so that nothing
has to be asked of them.

A call can end early in seven places (`Controller.Halt`).  That a promise holds at each of them
is no matter of one part.  The filter passes on, and releases, what is of the height that is
current then; the term is of that height, because both are started together; and what is due to
a term is what its caller may give it (`Situation`), so that the term survives it
(`Term.Run.react_ok`).  `Controller.Sturdy` puts together what is needed of all parts.  Every
move keeps it, and where it holds only the host can fail.
-/

namespace CommitteeConsensus

/-! ## What is asked of the world -/

/-- Every committee that the host names has members. -/
def Moment.Populated (moment : Moment) : Prop :=
  ∀ height seed members, moment.committeeOf height seed = .ok members → members ≠ []

/-- What happens to a member stays within bounds: committees have members, the heights that are
started, and those after blocks that are taken over from the network, are below the largest one,
and so is the view that the member is in. -/
structure Life.Bounds (life : Life) (moment : Moment) (happening : Happening) : Prop where
  populated : moment.Populated
  starts : ∀ height ∈ startedIn (life.session.step moment happening).effects, height < maxWord
  syncs : ∀ block proof previous, happening = .input (.sync block proof previous) →
    life.session.controller.Adopts moment block proof previous → proof.height + 1 < maxWord
  views : ∀ view ∈ life.session.controller.view?, view < maxWord

/-- The lives in which all that happens stays within bounds. -/
inductive BoundedLives (config : Config) (capabilities : Capabilities) (first : Height) :
    Life → Prop where
  | unborn : BoundedLives config capabilities first (.unborn config capabilities)
  | next {life : Life} {moment : Moment} {happening : Happening}
    (lives : BoundedLives config capabilities first life)
    (allows : life.Allows first happening) (bounds : life.Bounds moment happening) :
    BoundedLives config capabilities first (life.after moment happening)

theorem Promise.kept_nothing (tasks : List Task) (happening : Happening) :
    Promise.nothing.Kept tasks happening := by
  match happening with
  | .input (.message _) | .input (.sync _ _ _) | .input .triggerElection => trivial
  | .answer _ (.proposal _ _) => exact fun _ _ _ => trivial
  | .answer _ .valid | .answer _ (.failed _) => trivial
  | .start _ | .timer | .attend | .inputsClosed | .shutdown => trivial

theorem BoundedLives.lives {config : Config} {capabilities : Capabilities} {first : Height}
    {life : Life} (h : BoundedLives config capabilities first life) :
    Lives config capabilities first .nothing life := by
  induction h with
  | unborn => exact .unborn
  | @next life moment happening _ allows _ ih =>
    exact .next ih allows (Promise.kept_nothing _ happening)

/-- A host whose committees have members fails by its own error, if it fails. -/
theorem Moment.Populated.failed {moment : Moment} (populated : moment.Populated) {height : Height}
    {seed : Seed} {c : Controller} {reason : Stop}
    (asks : ((Activity.committee height seed).run moment c).result = .error reason) :
    ∃ error, reason = .failed error := by
  rcases hmembers : moment.committeeOf height seed with error | members
  · simp only [Activity.run, Activity.committee, hmembers] at asks
    exact ⟨error, (Except.error.inj asks).symm⟩
  · have hsome : Committee.ofList? members = some ⟨members, populated _ _ _ hmembers⟩ :=
      dif_neg (populated _ _ _ hmembers)
    simp only [Activity.run, Activity.committee, hmembers, hsome] at asks
    exact absurd asks (by simp)

/-- There is a height after the one on the agenda, and a view after the one that may be left. -/
def Agenda.Roomy (moment : Moment) (c : Controller) : Agenda → Prop
  | .heed (.input (.sync block proof previous)) =>
    c.Adopts moment block proof previous → proof.height + 1 < maxWord
  | .heed (.input .triggerElection) | .heed (.late _) => ∀ view ∈ c.view?, view < maxWord
  | .succeed height => height < maxWord
  | _ => True

namespace Controller

variable {first : Height} {capabilities : Capabilities} {moments : List Moment} {moment : Moment}
  {c c' : Controller} {a a' : Agenda} {es : List Effect} {reason : Stop} {height : Height}

/-! ## Sturdy controllers -/

/-- All parts of a controller fit together, and there is room above. -/
structure Sturdy (first : Height) (capabilities : Capabilities) (moments : List Moment)
    (moment : Moment) (c : Controller) (a : Agenda) : Prop where
  lineage : ∃ es tasks events, Lineage .nothing first moments es c a tasks events
  inStep : c.InStep
  capabilities : c.capabilities = capabilities
  below : c.admission.height < maxWord
  room : a.Roomy moment c

/-- The filter stays below the largest height. -/
theorem Move.below (move : Move moment c a es c' a') (h : c.admission.height < maxWord) :
    c'.admission.height < maxWord := by
  cases move with
  | begin | skip | adopt | commit | succeed => exact h
  | sift offer => exact (Admission.offered_of_offer offer).height.symm ▸ h
  | @react t p _ metrics stimulus messages s =>
    rw [admission_followed c _ t s]
    exact h
  | start check names free =>
    show Admission.height (Admission.Release.admission _) < maxWord
    rw [(Admission.freed_of_setHeight free).height_eq]
    exact (Admission.bounds_of_setHeight free).2

/-- **Every move keeps a controller sturdy.** -/
theorem Sturdy.move (h : Sturdy first capabilities moments moment c a) (now : moment ∈ moments)
    (move : Move moment c a es c' a') : Sturdy first capabilities moments moment c' a' := by
  obtain ⟨body, tasks, events, hlineage⟩ := h.lineage
  refine ⟨⟨_, _, _, hlineage.move now move⟩, move.inStep h.inStep,
    (congrArg Prod.snd move.setting).trans h.capabilities, move.below h.below, ?_⟩
  cases move with
  | begin | sift | skip | succeed | start => trivial
  | react => cases Step.decision? _ <;> trivial
  | adopt current fits names accepts =>
    exact Nat.lt_of_succ_lt (h.room (adopts_iff.2 ⟨current, fits, _, names, accepts⟩))
  | @commit d =>
    -- what is decided is of the height of the term, and that is the height of the filter
    obtain ⟨t, past, situation, -⟩ := hlineage
    have hheight := (situation.certifies situation.fits).1
    have hlevel := h.inStep.level t.height (height?_of_stage situation.stage)
    show d.height < maxWord
    rw [hheight, ← hlevel]
    exact h.below

/-- Starting a height above stops only at the host. -/
theorem failed_of_start (check : c.checkStart height = .ok ())
    (up : c.admission.height ≤ height) (populated : moment.Populated)
    (halt : Halt moment c (.start height) es c' reason)
    (room : ∀ k ∈ startedIn es, k < maxWord) : ∃ error, reason = .failed error := by
  cases halt with
  | react stage gives => cases gives
  | check refused => exact absurd (check.symm.trans refused) (by simp)
  | committee _ asks => exact populated.failed asks
  | filter _ names free =>
    have hroom : height < maxWord := by
      refine room height ?_
      rw [(heights_begunBy _ _ _ _).2]
      exact List.mem_cons_self
    obtain ⟨release, hfree⟩ := Admission.setHeight_ok up hroom
    exact absurd (hfree.symm.trans free) (by simp)

/-- The active term of a sturdy controller has a view to move on to when its time is up. -/
theorem Sturdy.not_exhausted (h : Sturdy first capabilities moments moment c a) {t : Term}
    {p : Progress} {metrics : List Metric} {stimulus : Stimulus} {messages : List Message}
    (stage : c.stage = .running t p) (gives : Gives t p a metrics stimulus messages) :
    ¬Term.Exhausted p stimulus := by
  rintro ⟨-, htimer, hlast⟩
  have hview : c.view? = some p.view := by
    rw [view?, progress?, stage]
    rfl
  cases gives with
  | message => exact absurd htimer (by simp)
  | trigger | late => exact Nat.not_lt_of_le hlast (h.room p.view hview)

/-- **A sturdy controller stops only at the host.** -/
theorem Sturdy.failed (h : Sturdy first capabilities moments moment c a)
    (populated : moment.Populated) (halt : Halt moment c a es c' reason)
    (room : ∀ k ∈ startedIn es, k < maxWord) : ∃ error, reason = .failed error := by
  obtain ⟨body, tasks, events, t, past, situation, -⟩ := h.lineage
  have hlevel := h.inStep.level t.height (height?_of_stage situation.stage)
  have hup : ∀ height, a = .start height →
      c.checkStart height = .ok () ∧ c.admission.height ≤ height := by
    rintro height rfl
    obtain ⟨below, rfl, hle, -⟩ := situation.fits
    have hlt : t.height < below + 1 := Nat.lt_succ_of_le hle
    refine ⟨?_, hlevel ▸ Nat.le_of_lt hlt⟩
    rw [checkStart, height?_of_stage situation.stage]
    exact if_pos hlt
  have hhalt := halt
  cases halt with
  | sift offer =>
    obtain ⟨l, keeps⟩ := h.inStep.tidy.keeps
    obtain ⟨answer, l', hoffer, -⟩ := keeps.offer _
    exact absurd (hoffer.symm.trans offer) (by simp)
  | react stage gives react =>
    obtain ⟨rfl, rfl⟩ := Stage.running.inj (situation.stage.symm.trans stage)
    obtain ⟨⟨hpermits, -⟩, -⟩ := situation.due gives
    obtain ⟨s, hs⟩ := situation.run.react_ok hpermits (h.not_exhausted stage gives)
    exact absurd (hs.symm.trans react) (by simp)
  | sync asks => exact populated.failed asks
  | succeed next_eq =>
    rw [nextHeight_of_lt h.room] at next_eq
    exact absurd next_eq (by simp)
  | check | committee | filter =>
    obtain ⟨hcheck, hle⟩ := hup _ rfl
    exact failed_of_start hcheck hle populated hhalt room

/-! ## What reaches the term -/

/-- In the course of a call a message comes to the active term. -/
inductive Hears (moment : Moment) : Controller → Agenda → Term → Message → Prop where
  /-- It is the turn of the message. -/
  | now {c : Controller} {t : Term} {p : Progress} {m : Message} {messages : List Message}
    (stage : c.stage = .running t p) : Hears moment c (.hear (m :: messages)) t m
  /-- It comes after the next move. -/
  | later {c c' : Controller} {a a' : Agenda} {es : List Effect} {t : Term} {m : Message}
    (move : Move moment c a es c' a') (hears : Hears moment c' a' t m) : Hears moment c a t m

/-- Nothing comes to the term when nothing is left to do. -/
theorem not_hears_nil {t : Term} {m : Message} : ¬Hears moment c (.hear []) t m := by
  intro hears
  cases hears with
  | later move => exact move.not_rest

/-- Nothing comes to the term of a height for which nothing was cached when it is started. -/
theorem not_hears_start {t : Term} {m : Message} (hnone : ∀ m, ¬c.admission.Holds height m) :
    ¬Hears moment c (.heed (.start height)) t m := by
  intro hears
  cases hears with
  | later move hears =>
    cases move with
    | react stage gives => cases gives
    | skip skips => cases skips
    | begin =>
      cases hears with
      | later move hears =>
        cases move with
        | react stage gives => cases gives
        | skip skips => cases skips
        | start check names free =>
          rw [released_eq_nil free hnone] at hears
          exact not_hears_nil hears

/-- **What reaches a term** is of its height and not the member's own. -/
theorem Sturdy.heard {t : Term} {m : Message} (h : Sturdy first capabilities moments moment c a)
    (now : moment ∈ moments) (hears : Hears moment c a t m) :
    m.height = t.height ∧ m.sender ≠ capabilities.keys.me := by
  induction hears with
  | @now c t p m messages stage =>
    obtain ⟨body, tasks, events, t', past, situation, -⟩ := h.lineage
    obtain ⟨rfl, rfl⟩ := Stage.running.inj (situation.stage.symm.trans stage)
    obtain ⟨⟨hheight, hother⟩, -⟩ := situation.fits.2 m List.mem_cons_self
    have hme : t'.me = capabilities.keys.me :=
      congrArg (·.keys.me) (situation.capabilities.trans h.capabilities)
    exact ⟨hheight, hme ▸ hother⟩
  | later move _ ih => exact ih (h.move now move)

end Controller

/-! ## Calls -/

namespace Session

variable {s : Session} {moment : Moment} {cue : Cue}

/-- A call that can only stop at the host breaks no promise. -/
theorem not_broken_of_failed (h : ∀ reason,
    ((Controller.respond cue).run moment s.controller).result = .error reason →
      ∃ error, reason = .failed error) (fault : Fault) :
    (s.respond moment cue).ending ≠ some (.stopped (.broken fault)) := by
  rw [respond, call, absorb]
  dsimp only
  split
  · simp
  · next reason hresult =>
    obtain ⟨error, rfl⟩ := h reason hresult
    simp

/-- A call of a sturdy controller breaks no promise. -/
theorem not_broken_of_sturdy {first : Height} {capabilities : Capabilities}
    {moments : List Moment} (now : moment ∈ moments)
    (sturdy : s.controller.Sturdy first capabilities moments moment (.heed cue))
    (populated : moment.Populated)
    (room : ∀ k ∈ startedIn (s.respond moment cue).effects, k < maxWord) (fault : Fault) :
    (s.respond moment cue).ending ≠ some (.stopped (.broken fault)) := by
  refine not_broken_of_failed (fun reason hresult => ?_) fault
  have hcourse := Controller.course_respond moment s.controller cue
  rcases @Controller.Course.induct moment
      (fun _ c a => c.Sturdy first capabilities moments moment a)
      (fun move sturdy => sturdy.move now move) _ _ _ hcourse [] sturdy with
    ⟨hok, -⟩ | ⟨c, a, body, tail, reason', hresult', heffects, hsturdy, hhalt⟩
  · exact absurd (hok.symm.trans hresult) (by simp)
  · obtain rfl := Except.error.inj (hresult'.symm.trans hresult)
    refine hsturdy.failed populated hhalt fun k hk => room k ?_
    show k ∈ startedIn ((Controller.respond cue).run moment s.controller).effects
    rw [heffects, startedIn_append]
    exact List.mem_append_right _ hk

/-- The first call breaks no promise. -/
theorem not_broken_first (config : Config) (capabilities : Capabilities) {first : Height}
    (populated : moment.Populated)
    (room : ∀ k ∈ startedIn ((Session.fresh (.initial config capabilities)).respond moment
      (.start first)).effects, k < maxWord) (fault : Fault) :
    ((Session.fresh (.initial config capabilities)).respond moment (.start first)).ending ≠
      some (.stopped (.broken fault)) := by
  refine not_broken_of_failed (fun reason hresult => ?_) fault
  have hcourse := Controller.course_respond moment (.initial config capabilities) (.start first)
  rcases Controller.course_first hcourse fun m => Admission.not_holds_start _ _ with
    ⟨committee, release, -, -, -, hrun⟩ | ⟨reason', hresult', hhalt⟩
  · have hok := congrArg Outcome.result hrun
    exact absurd (hok.symm.trans hresult) (by simp)
  · obtain rfl := Except.error.inj (hresult'.symm.trans hresult)
    exact Controller.failed_of_start rfl (Nat.zero_le first) populated hhalt room

/-- What the controller is called for by what happens, if it is called. -/
def cue? (s : Session) : Happening → Option Cue
  | .start height => some (.start height)
  | .input input => some (.input input)
  | .attend => s.events.head?.map .late
  | .timer | .answer _ _ | .inputsClosed | .shutdown => none

end Session

/-! ## Lives -/

/-- While this happens to a member, a message comes to the active term. -/
def Life.Hears (life : Life) (moment : Moment) (happening : Happening) (t : Term) (m : Message) :
    Prop :=
  ∃ cue, life.session.cue? happening = some cue ∧
    Controller.Hears moment life.session.controller (.heed cue) t m

namespace Lives

variable {config : Config} {capabilities : Capabilities} {first : Height} {promise : Promise}
  {life : Life} {moment : Moment} {happening : Happening}

/-- A running member has its filter in step with its term, and below the largest height. -/
theorem inStep_below (h : Lives config capabilities first promise life)
    (running : life.Running) : life.session.controller.InStep ∧
      life.session.controller.admission.height < maxWord := by
  have hinitial : (Controller.initial config capabilities).InStep :=
    (inStep_invariant config capabilities).fresh
  have hinv : Invariant config capabilities first promise
      (fun _ _ c _ _ _ => c.InStep ∧ c.admission.height < maxWord) :=
    { begins := fun names free =>
        have hstart := Controller.Move.start rfl names free
        ⟨hstart.inStep hinitial, hstart.below (show 0 < maxWord by decide)⟩
      later := id
      kept := fun _ =>
        { input := fun h _ => h
          late := id
          move := fun move h => ⟨move.inStep h.1, move.below h.2⟩
          cancel := id
          timer := fun h _ => ⟨⟨h.1.tidy.congr rfl rfl, h.1.level⟩, h.2⟩
          answer := fun h _ _ => h } }
  exact keeps hinv h running

/-- What happens to a running member finds it sturdy. -/
theorem sturdy (h : Lives config capabilities first .nothing life)
    (running : life.Running) (bounds : life.Bounds moment happening) {cue : Cue}
    (calls : life.session.cue? happening = some cue) (later : ∀ height, cue ≠ .start height) :
    life.session.controller.Sturdy first capabilities (life.moments ++ [moment]) moment
      (.heed cue) := by
  have hchecks : ∀ height block hash, capabilities.matchesHash height block hash = true →
      Promise.nothing.proposal height block hash := fun _ _ _ _ => trivial
  have hinv : Invariant config capabilities first .nothing (Lineage .nothing first) :=
    lineage_of_checks hchecks
  have hnow : moment ∈ life.moments ++ [moment] := List.mem_append_right _ List.mem_cons_self
  have hkept := hinv.kept hnow
  have hlineage : Lineage .nothing first (life.moments ++ [moment]) life.effects
      life.session.controller (.hear []) life.session.tasks life.session.events :=
    hinv.later (keeps hinv h running)
  obtain ⟨hinStep, hbelow⟩ := h.inStep_below running
  have hcapabilities : life.session.controller.capabilities = capabilities :=
    congrArg Prod.snd (h.setting running)
  cases happening with
  | start height => exact absurd (Option.some.inj calls).symm (later height)
  | timer | answer | inputsClosed | shutdown => exact absurd calls (by simp [Session.cue?])
  | input input =>
    obtain rfl := Option.some.inj calls
    refine ⟨⟨_, _, _, hkept.input hlineage (Promise.kept_nothing _ _)⟩, hinStep, hcapabilities,
      hbelow, ?_⟩
    cases input with
    | message => trivial
    | triggerElection => exact bounds.views
    | sync block proof previous => exact bounds.syncs block proof previous rfl
  | attend =>
    rcases hevents : life.session.events with _ | ⟨e, events⟩
    · rw [Session.cue?, hevents] at calls
      exact absurd calls (by simp)
    · rw [Session.cue?, hevents] at calls
      obtain rfl := Option.some.inj calls
      rw [hevents] at hlineage
      exact ⟨⟨_, _, _, hkept.late hlineage⟩, hinStep, hcapabilities, hbelow, bounds.views⟩

/-- **One more thing that happens breaks no promise.** -/
theorem after_not_broken (h : Lives config capabilities first .nothing life)
    (allows : life.Allows first happening) (bounds : life.Bounds moment happening)
    (fault : Fault) : (life.after moment happening).ending ≠ some (.stopped (.broken fault)) := by
  show (life.session.step moment happening).ending ≠ _
  have hstarts := bounds.starts
  cases hhappening : happening with
  | start height =>
    subst hhappening
    obtain ⟨hunstarted, rfl⟩ := allows
    obtain rfl := h.eq_unborn hunstarted
    exact Session.not_broken_first config capabilities bounds.populated hstarts fault
  | input input =>
    subst hhappening
    have hsturdy := h.sturdy allows bounds rfl (by simp)
    exact Session.not_broken_of_sturdy (List.mem_append_right _ List.mem_cons_self) hsturdy
      bounds.populated hstarts fault
  | attend =>
    subst hhappening
    rcases hevents : life.session.events with _ | ⟨e, events⟩
    · rw [Session.step, Session.attend, hevents]
      simp [Session.silently]
    · have hcue : life.session.cue? .attend = some (.late e) := by
        rw [Session.cue?, hevents]
        rfl
      have hsturdy := h.sturdy allows bounds hcue (by simp)
      rw [Session.step, Session.attend, hevents] at hstarts ⊢
      exact Session.not_broken_of_sturdy (s := { life.session with events })
        (List.mem_append_right _ List.mem_cons_self) hsturdy bounds.populated hstarts fault
  | timer | shutdown | inputsClosed => simp [Session.step, Session.silently, Session.finish]
  | answer number answer =>
    rw [Session.step, Session.conclude]
    split <;> simp [Session.silently]

end Lives

namespace BoundedLives

variable {config : Config} {capabilities : Capabilities} {first : Height} {life : Life}

/-- **No input breaks a promise.**  Whatever is given to a member, in whatever order, it ends, if at
all, by a failure of its host or because it was told to.  As long as it runs it has an active
term, and the filter is at the height of this term.  And whatever message reaches a term, while
anything at all happens to the member, is of the height of the term and not the member's own. -/
theorem endure (h : BoundedLives config capabilities first life) :
    (∀ fault, life.ending ≠ some (.stopped (.broken fault))) ∧
    (life.Running → ∃ height, life.session.controller.height? = some height ∧
      life.session.controller.admission.height = height) ∧
    ∀ moment happening, life.Allows first happening → life.Bounds moment happening →
      ∀ t m, life.Hears moment happening t m →
        m.height = t.height ∧ m.sender ≠ capabilities.keys.me := by
  refine ⟨?_, fun running => ?_, fun moment happening allows bounds t m hears => ?_⟩
  · cases h with
    | unborn => exact fun fault => by simp [Life.unborn]
    | next lives allows bounds => exact lives.lives.after_not_broken allows bounds
  · have hchecks : ∀ height block hash, capabilities.matchesHash height block hash = true →
        Promise.nothing.proposal height block hash := fun _ _ _ _ => trivial
    obtain ⟨t, past, situation, -⟩ :=
      Lives.keeps (Lives.lineage_of_checks hchecks) h.lives running
    have hheight := Controller.height?_of_stage situation.stage
    exact ⟨t.height, hheight, (h.lives.inStep_below running).1.level _ hheight⟩
  · obtain ⟨cue, hcue, hhears⟩ := hears
    rcases eq_or_ne life.moments [] with hnone | hsome
    · obtain rfl := Lives.eq_start_of_allows allows hnone
      obtain rfl := h.lives.eq_unborn hnone
      obtain rfl := Option.some.inj hcue
      exact absurd hhears (Controller.not_hears_start fun m => Admission.not_holds_start _ _)
    · have hlater : ∀ height, cue ≠ .start height := by
        rintro height rfl
        cases happening with
        | start k => exact hsome allows.1
        | attend =>
          obtain ⟨e, -, he⟩ := Option.map_eq_some_iff.1 hcue
          exact absurd he (by simp)
        | _ => exact absurd hcue (by simp [Session.cue?])
      have hsturdy := h.lives.sturdy (Lives.running_of_allows allows hsome) bounds hcue hlater
      exact hsturdy.heard (List.mem_append_right _ List.mem_cons_self) hhears

/-- An observer takes over a block that is ahead, and works on the height after it. -/
def caughtUpLife : Life :=
  Lives.dividedLife.after Lives.dividedMoment
    (.input (.sync (Assembly.plainBlock 9) (Assembly.soloProof 0 9 0) none))

theorem dividedMoment_populated : Lives.dividedMoment.Populated := by
  intro height seed members hmembers
  rw [Lives.dividedMoment] at hmembers
  dsimp only at hmembers
  split at hmembers <;> rw [← Except.ok.inj hmembers] <;> simp

theorem boundedLives_caughtUpLife :
    BoundedLives .standard (Assembly.sample.capabilities 1) 5 caughtUpLife := by
  refine .next (.next .unborn ⟨rfl, rfl⟩ ⟨dividedMoment_populated, ?_, ?_, ?_⟩)
    Lives.dividedLife_running ⟨dividedMoment_populated, ?_, ?_, ?_⟩
  · decide +kernel
  · exact fun _ _ _ h => absurd h (by simp)
  · decide +kernel
  · decide +kernel
  · rintro block proof previous h -
    obtain ⟨-, rfl, -⟩ := Input.sync.inj (Happening.input.inj h)
    decide
  · decide +kernel

/-- Its filter is at the height of its term, and a message that claims to be its own does not
reach the term. -/
theorem endure_sample : (∀ fault, caughtUpLife.ending ≠ some (.stopped (.broken fault))) ∧
    caughtUpLife.session.controller.height? = some 10 ∧
    caughtUpLife.session.controller.admission.height = 10 ∧
    ∀ t m, caughtUpLife.Hears Lives.dividedMoment (.input (.message (Assembly.voteBy 1 0))) t m →
      m.height = t.height ∧ m.sender ≠ 1 := by
  obtain ⟨hends, hruns, hhears⟩ := endure boundedLives_caughtUpLife
  have hstand : caughtUpLife.ending = none ∧
      caughtUpLife.session.controller.height? = some 10 := by
    decide +kernel
  obtain ⟨hnone, hheight⟩ := hstand
  obtain ⟨height, hheight', hlevel⟩ := hruns ⟨List.cons_ne_nil _ _, hnone⟩
  obtain rfl := Option.some.inj (hheight.symm.trans hheight')
  refine ⟨hends, hheight, hlevel, hhears _ _ ⟨List.cons_ne_nil _ _, hnone⟩
    ⟨dividedMoment_populated, by decide +kernel, fun _ _ _ h => absurd h (by simp),
      by decide +kernel⟩⟩

end BoundedLives

end CommitteeConsensus
