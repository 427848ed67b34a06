import CommitteeConsensus.Proofs.Lives

/-!
# A controller in the service of a host

A `Life` ends at the first error.  A host that owns a controller may do otherwise: a call that
failed, because no committee was to be had, hands the controller back, and the host may call it
again.  Only a broken promise is the end, because it leaves no controller that anyone could call.

A `Service` is a controller that was called any number of times, with all that it did to the
world, and what its last call came to.  `Serves` says which services there are, if the host
keeps to a policy; what a policy allows may depend on the controller and on what was done so
far.  `Service.Invariant` is what is to be shown of one move, of one halt and of what a host may
call for, so that a statement holds of every service.
-/

namespace CommitteeConsensus

/-! ## What no call changes -/

namespace Controller

variable {moment : Moment} {c c' : Controller} {a a' : Agenda} {es : List Effect}

/-- What the host gave the controller once and for all. -/
def setting (c : Controller) : Config × Capabilities := (c.config, c.capabilities)

theorem setting_followed (c : Controller) (now : Nanoseconds) (t : Term) (s : Step) :
    (c.followed now t s).setting = c.setting := by
  have hsame := resembles_followed c now t s
  exact Prod.ext hsame.config hsame.capabilities

theorem Move.setting (move : Move moment c a es c' a') : c'.setting = c.setting := by
  cases move with
  | begin | sift | skip | adopt | commit | succeed => rfl
  | react => exact setting_followed _ _ _ _
  | @start height committee release =>
    have hsame := setting_followed (c.leave height) moment.now
      ((c.leave height).termAt height committee) (c.firstStep height committee)
    exact hsame

end Controller

/-- A running member is what the host made it. -/
theorem Lives.setting {config : Config} {capabilities : Capabilities} {first : Height}
    {promise : Promise} {life : Life} (h : Lives config capabilities first promise life)
    (running : life.Running) : life.session.controller.setting = (config, capabilities) := by
  have hkept : Lives.Invariant config capabilities first promise
      (fun _ _ c _ _ _ => c.setting = (config, capabilities)) :=
    { begins := fun {moment committee _} _ _ => Controller.setting_followed _ moment.now
        (((Controller.initial config capabilities).leave first).termAt first committee) _
      later := id
      kept := fun _ =>
        { input := fun h _ => h
          late := id
          move := fun move h => move.setting.trans h
          cancel := id
          timer := fun h _ => h
          answer := fun h _ _ => h } }
  exact Lives.keeps hkept h running

/-! ## Services -/

/-- A controller that was called any number of times. -/
structure Service where
  controller : Controller
  /-- What was done to the world, in order. -/
  effects : List Effect
  /-- What the last call came to. -/
  result : Except Stop Unit

/-- What a host may call for next, after this was done to the world. -/
abbrev Policy := List Effect → Controller → Cue → Prop

/-- A host may call for anything. -/
def Policy.anything : Policy := fun _ _ _ => True

namespace Service

variable {config : Config} {capabilities : Capabilities} {policy : Policy} {s : Service}

/-- A controller that was not called yet. -/
def fresh (config : Config) (capabilities : Capabilities) : Service :=
  ⟨.initial config capabilities, [], .ok ()⟩

/-- One call more. -/
def call (s : Service) (moment : Moment) (cue : Cue) : Service where
  controller := ((Controller.respond cue).run moment s.controller).controller
  effects := s.effects ++ ((Controller.respond cue).run moment s.controller).effects
  result := ((Controller.respond cue).run moment s.controller).result

/-- The election timer has fired; what it brings about is a call of its own. -/
def fire (s : Service) : Service :=
  { s with controller := { s.controller with timer := s.controller.timer.fired } }

/-- The last call did not break a promise. -/
def Alive (s : Service) : Prop := ∀ fault, s.result ≠ .error (.broken fault)

end Service

/-- The services of a host that keeps to a policy. -/
inductive Serves (config : Config) (capabilities : Capabilities) (policy : Policy) :
    Service → Prop where
  | fresh : Serves config capabilities policy (.fresh config capabilities)
  | call {s : Service} {moment : Moment} {cue : Cue} (serves : Serves config capabilities policy s)
    (alive : s.Alive) (allowed : policy s.effects s.controller cue) :
    Serves config capabilities policy (s.call moment cue)
  | fire {s : Service} (serves : Serves config capabilities policy s) (alive : s.Alive) :
    Serves config capabilities policy s.fire

namespace Service

variable {config : Config} {capabilities : Capabilities} {policy : Policy} {s : Service}

/-- A statement about a controller and what it did to the world, in the middle of a call as
well, that holds before the first call and is kept. -/
structure Invariant (config : Config) (capabilities : Capabilities) (policy : Policy)
    (I : List Effect → Controller → Agenda → Prop) : Prop where
  fresh : I [] (.initial config capabilities) (.hear [])
  call : ∀ {es c cue}, I es c (.hear []) → policy es c cue → I es c (.heed cue)
  move : ∀ {moment es es' c c' a a'}, Controller.Move moment c a es' c' a' →
    I es c a → I (es ++ es') c' a'
  /-- A call that failed leaves the controller to the host. -/
  fail : ∀ {moment es es' c c' a error}, Controller.Halt moment c a es' c' (.failed error) →
    I es c a → I (es ++ es') c' (.hear [])
  fire : ∀ {es c}, I es c (.hear []) → I es { c with timer := c.timer.fired } (.hear [])

variable {I : List Effect → Controller → Agenda → Prop}

/-- A call that went on to its end or failed keeps an invariant, and one that broke a promise
was in the middle of it. -/
theorem Invariant.respond (inv : Invariant config capabilities policy I) {moment : Moment}
    {cue : Cue} (h : I s.effects s.controller (.heed cue)) :
    ((s.call moment cue).Alive ∧
        I (s.call moment cue).effects (s.call moment cue).controller (.hear [])) ∨
      ¬(s.call moment cue).Alive ∧
        ∃ es c a tail fault, (s.call moment cue).effects = es ++ tail ∧ I es c a ∧
          Controller.Halt moment c a tail (s.call moment cue).controller (.broken fault) := by
  have hcourse := Controller.course_respond moment s.controller cue
  rcases hcourse.induct inv.move h with ⟨hresult, hend⟩ |
    ⟨c, a, body, tail, reason, hresult, heffects, hbody, hhalt⟩
  · refine Or.inl ⟨fun fault hfault => ?_, hend⟩
    exact absurd (hresult.symm.trans hfault) (by simp)
  · cases reason with
    | failed error =>
      refine Or.inl ⟨fun fault hfault => ?_, ?_⟩
      · exact absurd (hresult.symm.trans hfault) (by simp)
      · show I (s.effects ++ _) _ _
        rw [heffects, ← List.append_assoc]
        exact inv.fail hhalt hbody
    | broken fault =>
      refine Or.inr ⟨fun alive => alive fault hresult, s.effects ++ body, c, a, tail, fault, ?_,
        hbody, hhalt⟩
      show s.effects ++ _ = _
      rw [heffects, List.append_assoc]

end Service

namespace Serves

variable {config : Config} {capabilities : Capabilities} {policy : Policy} {s : Service}
  {I : List Effect → Controller → Agenda → Prop}

/-- A host that may do more may do this as well. -/
theorem mono {policy' : Policy} (h : Serves config capabilities policy s)
    (weaker : ∀ es c cue, policy es c cue → policy' es c cue) :
    Serves config capabilities policy' s := by
  induction h with
  | fresh => exact .fresh
  | call serves before allowed ih => exact .call ih before (weaker _ _ _ allowed)
  | fire serves before ih => exact .fire ih before

/-- **An invariant holds of every service that is alive.** -/
theorem keeps (inv : Service.Invariant config capabilities policy I)
    (h : Serves config capabilities policy s) (alive : s.Alive) :
    I s.effects s.controller (.hear []) := by
  induction h with
  | fresh => exact inv.fresh
  | call serves before allowed ih =>
    rcases inv.respond (inv.call (ih before) allowed) with ⟨-, hkept⟩ | ⟨hbroken, -⟩
    · exact hkept
    · exact absurd alive hbroken
  | fire serves before ih => exact inv.fire (ih before)

/-- **How a service ends**: at a broken promise, in the middle of a call. -/
theorem ends (inv : Service.Invariant config capabilities policy I)
    (h : Serves config capabilities policy s) (ended : ¬s.Alive) :
    ∃ moment es c a tail fault, s.effects = es ++ tail ∧ I es c a ∧
      Controller.Halt moment c a tail s.controller (.broken fault) := by
  cases h with
  | fresh => exact absurd (fun fault hfault => absurd hfault (by simp [Service.fresh])) ended
  | @call s moment cue serves before allowed =>
    rcases inv.respond (inv.call (serves.keeps inv before) allowed) with ⟨hgoes, -⟩ | ⟨-, hhalted⟩
    · exact absurd hgoes ended
    · exact ⟨moment, hhalted⟩
  | fire serves before => exact absurd before ended

end Serves

end CommitteeConsensus
