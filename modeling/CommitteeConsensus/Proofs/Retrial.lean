import CommitteeConsensus.Proofs.Promptness
import CommitteeConsensus.Proofs.Refusal
import CommitteeConsensus.Proofs.Scopes

/-!
# A height that could not be started can be started again

The start of a height gives up the height before, and only then asks for the committee.  If none is
to be had, the call has failed half-way: the term, the timer and the messages of lower heights are
gone, and the filter has not moved yet.

That does no harm.  A host that calls once more gets what the first call would have come to
(`Serves.retried_as_first`).  Giving up a height that is given up already only opens one scope
more (`Controller.leave_leave`), and the number of a scope is a name.  What time it is by the second
call goes into the timer only, and nothing is cached in between.
-/

namespace CommitteeConsensus

theorem MessageLog.clearBelow_clearBelow (log : MessageLog) (height : Height) :
    (log.clearBelow height).clearBelow height = log.clearBelow height := by
  simp only [MessageLog.clearBelow, MessageLog.restrict, List.filter_filter, Bool.and_self]

/-- Twins with the same number of the next arrival have the same filter. -/
theorem Admission.Twins.eq {a a' : Admission} (h : a.Twins a')
    (next : a'.nextArrival = a.nextArrival) : a' = a := by
  cases a
  cases a'
  simp only [Admission.mk.injEq]
  exact ⟨h.me, h.height, h.limits, h.byHeight, h.bySender, next⟩

namespace Controller

variable {moment : Moment} {c c' : Controller} {a a' : Agenda} {es : List Effect}

/-- A height that is given up already is given up again. -/
theorem leave_leave (c : Controller) (height : Height) :
    (c.leave height).leave height = (c.leave height).later 1 := by
  show { c with
    scope := ⟨c.scope.number + 1 + 1, 0⟩
    timer := c.timer.disarm.disarm
    stage := .idle ((c.log.clearBelow height).clearBelow height) } = _
  rw [MessageLog.clearBelow_clearBelow]
  rfl

/-- Without a term every height may be started. -/
theorem checkStart_leave (c : Controller) (height : Height) :
    (c.leave height).checkStart height = .ok () := rfl

/-- Without a committee the height before is given up, and that is all. -/
theorem setHeight_run_of_unnamed {height : Height} {error : HostError}
    (check : c.checkStart height = .ok ())
    (fails : moment.committeeOf height c.seed = .error error) :
    (setHeight height).run moment c =
      ⟨c.leave height, [.askCommittee height c.seed], .error (.failed error)⟩ := by
  rw [setHeight]
  refine startHeight_run_error check ?_ settle
  have hfails : moment.committeeOf height (c.leave height).seed = .error error := fails
  simp only [Activity.run, Activity.committee, hfails]

/-! ## Nothing is cached on the way -/

theorem Move.nextArrival (move : Move moment c a es c' a') (underway : a.Underway) :
    c'.admission.nextArrival = c.admission.nextArrival := by
  cases move with
  | begin | skip | adopt | commit | succeed => rfl
  | sift => exact underway.elim
  | react => rw [admission_followed]
  | start _ _ free => rw [(Admission.release_eq_of_setHeight free).1]; rfl

theorem Halt.admission {reason : Stop} (halt : Halt moment c a es c' reason) :
    c'.admission = c.admission := by
  cases halt with
  | sift | react | sync | succeed | check | committee => rfl
  | filter => exact admission_begun _ _ _ _

theorem Course.nextArrival {o : Outcome Unit} (h : Course moment c a o) (underway : a.Underway) :
    o.controller.admission.nextArrival = c.admission.nextArrival := by
  have hkept := @Course.induct moment
    (fun _ c₁ a => c₁.admission.nextArrival = c.admission.nextArrival ∧ a.Underway)
    (fun move ⟨before, underway⟩ =>
      ⟨(move.nextArrival underway).trans before, (move.unsynced underway).2⟩)
    c a o h [] ⟨rfl, underway⟩
  rcases hkept with ⟨-, hend, -⟩ | ⟨c₁, a₁, body, tail, reason, -, -, ⟨hbody, -⟩, hhalt⟩
  · exact hend
  · rw [hhalt.admission]
    exact hbody

/-! ## Once more -/

/-- A height that was given up is started as if it had not been, one scope later. -/
theorem setHeight_run_leave {height : Height} (check : c.checkStart height = .ok ()) :
    (setHeight height).run moment (c.leave height) = ((setHeight height).run moment c).later 1 := by
  rw [setHeight_run check, setHeight_run (checkStart_leave c height), leave_leave]
  exact shifts_enter height (c.leave height) 1

/-- The time at which a height is started goes into the timer only. -/
theorem alike_setHeight_of_hosts {moment' : Moment} (same : moment'.committeeOf = moment.committeeOf)
    (c : Controller) (height : Height) :
    ((setHeight height).run moment c).Alike Admission.Twins ((setHeight height).run moment' c) := by
  have hself : c.Twins Admission.Twins c :=
    ⟨rfl, rfl, ⟨rfl, rfl, rfl, rfl, rfl⟩, rfl, rfl, rfl, rfl, rfl⟩
  exact Activity.Steady.bind (steady_startHeight same height) (steady_settle same) c c hself

end Controller

namespace Serves

variable {config : Config} {capabilities : Capabilities} {s : Service}

/-- **A height that could not be started can be started again.**  A call to start a height above,
for which no committee was to be had, comes to that error; there is no term and no timer then, the
filter and the tip are what they were, earlier work is of no use, and nothing was sent or committed.
A second call, at whatever time, leaves the same term and messages, the same filter and the same tip
as the first one would have, had the host answered it so.  It does the same to the world, but for
the number of the scope that work is in; and it goes well, if every committee that it asks for is
named. -/
theorem retried_as_first (h : Serves config capabilities .anything s) (alive : s.Alive)
    {height : Height} (above : ∀ current, s.controller.height? = some current → current < height)
    (up : s.controller.admission.height ≤ height) (last : height < maxWord) {failing : Moment}
    {error : HostError} (fails : failing.committeeOf height s.controller.seed = .error error) :
    let failed := (Controller.setHeight height).run failing s.controller
    (failed.result = .error (.failed error) ∧
        failed.effects = [.askCommittee height s.controller.seed]) ∧
      (failed.controller.height? = none ∧ failed.controller.timer.armed = none ∧
        failed.controller.admission = s.controller.admission ∧
        failed.controller.tip = s.controller.tip ∧
        ∀ task, task.scope ≤ s.controller.scope.number → failed.controller.wants task = false) ∧
      ∀ again instead : Moment, again.committeeOf = instead.committeeOf →
        let retried := (Controller.setHeight height).run again failed.controller
        let direct := (Controller.setHeight height).run instead s.controller
        (retried.result = direct.result ∧
            retried.controller.stage = direct.controller.stage ∧
            retried.controller.admission = direct.controller.admission ∧
            retried.controller.tip = direct.controller.tip) ∧
          deedsIn retried.effects = (deedsIn direct.effects).map (·.later 1) ∧
          (∀ task, retried.controller.wants (task.later 1) = direct.controller.wants task) ∧
          (again.Grants retried.effects → (∀ k ∈ startedIn retried.effects, k < maxWord) →
            retried.result = .ok ()) := by
  intro failed
  have hcheck : s.controller.checkStart height = .ok () := Controller.checkStart_of_lt above
  have hfailed : failed = ⟨s.controller.leave height, [.askCommittee height s.controller.seed],
      .error (.failed error)⟩ := Controller.setHeight_run_of_unnamed hcheck fails
  rw [hfailed]
  refine ⟨⟨rfl, rfl⟩, ⟨rfl, rfl, rfl, rfl, fun task hbefore => ?_⟩, fun again instead same => ?_⟩
  · exact beq_false_of_ne (Nat.ne_of_lt (Nat.lt_succ_of_le hbefore))
  intro retried direct
  have hretried : retried = ((Controller.setHeight height).run again s.controller).later 1 :=
    Controller.setHeight_run_leave hcheck
  have halike := Controller.alike_setHeight_of_hosts same s.controller height
  have hcourse : ∀ moment, Controller.Course moment s.controller (.start height)
      ((Controller.setHeight height).run moment s.controller) := fun _ => Controller.course_setHeight
  have hadmission := halike.controller.admission.eq
    (((hcourse again).nextArrival trivial).trans ((hcourse instead).nextArrival trivial).symm)
  refine ⟨?_, ?_, fun task => ?_, fun grants room => ?_⟩
  · rw [hretried]
    exact ⟨halike.result, halike.controller.stage, hadmission, halike.controller.tip⟩
  · rw [hretried]
    exact (deedsIn_later _ 1).trans (congrArg _ halike.deeds)
  · rw [hretried]
    refine (Controller.wants_later _ task 1).trans ?_
    rw [Controller.wants, Controller.wants, halike.controller.scope]
  · have hagain : Controller.Course again (s.controller.leave height) (.start height) retried :=
      Controller.course_setHeight
    exact hagain.ok_of_start ((h.inStep alive).leave height) (Controller.checkStart_leave _ _) up
      last (grants.grantsFrom height) room

/-! ### A host that asks twice -/

/-- The host names no committee. -/
def muteMoment : Moment := ⟨1, fun _ _ => .error (.membership "no committee")⟩

/-- Member `1` works on height `1`, and has cached a proposal for height `2`. -/
def proposedAhead : Service :=
  settingOut.call (fourMoment 0) (.input (.message (.prePrepare preparedAhead.prePrepare)))

theorem proposedAhead_serves :
    Serves .standard (Assembly.sample.capabilities 1) .anything proposedAhead :=
  .call (.call .fresh (alive_of_result (.ok ()) rfl (by simp)) trivial)
    (alive_of_result (.ok ()) (by decide +kernel) (by simp)) trivial

/-- Height `2` is not to be had at first.  Five nanoseconds later it is started: the member asks
for the committee once more, and then for the validation of the proposal that it had cached. -/
theorem retried_as_first_proposed :
    let failed := (Controller.setHeight 2).run muteMoment proposedAhead.controller
    let retried := (Controller.setHeight 2).run (fourMoment 6) failed.controller
    (failed.result = .error (.failed (.membership "no committee")) ∧
        failed.controller.height? = none) ∧
      retried.result = .ok () ∧
        deedsIn retried.effects = [.askCommittee 2 0, .launch
          { number := 0, height := 2, scope := 3, previous := none
            work := .validate preparedAhead.prePrepare }] := by
  intro failed retried
  have halive : proposedAhead.Alive := alive_of_result (.ok ()) (by decide +kernel) (by simp)
  have hone : proposedAhead.controller.height? = some 1 := by decide +kernel
  obtain ⟨⟨hresult, -⟩, ⟨hidle, -⟩, hretried⟩ := retried_as_first proposedAhead_serves halive
    (fun current hcurrent => by
      rw [hone] at hcurrent
      rw [← Option.some.inj hcurrent]
      decide)
    (show proposedAhead.controller.admission.height ≤ 2 by decide +kernel) (by decide)
    (show muteMoment.committeeOf 2 _ = .error (.membership "no committee") from rfl)
  obtain ⟨-, hdeeds, -, hok⟩ := hretried (fourMoment 6) (fourMoment 1) rfl
  refine ⟨⟨hresult, hidle⟩, hok ((fourMoment_willing 6).grants _) ?_, ?_⟩
  · decide +kernel
  · refine hdeeds.trans ?_
    decide +kernel

end Serves

end CommitteeConsensus
