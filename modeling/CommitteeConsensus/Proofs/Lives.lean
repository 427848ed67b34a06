import CommitteeConsensus.Proofs.Course

/-!
# The life of a member

A `Life` is a session together with what led to it: what the member was told of the world,
what it did to the world, and how it ended, if it did.  It starts with one call to start
consensus at a first height.  After that inputs come, timers fire, the host answers and late
events are handled, in any order, until the session ends.  `Lives` says which lives there
are.  Statements about a running member are statements about every life that has not ended.

Some statements hold only if the host and the network keep a promise.  A `Promise` says what
is promised of messages, of the blocks that the host builds and of the proofs that come with
blocks of the network; what is to become of everything else is nobody's concern.

Whatever happens, it is a call of the controller or it is silent.  A call is a course of
moves (`course_respond`), so that what moves preserve holds through a call
(`Session.call_induct`).  The first call is simple, because nothing is cached yet
(`course_first`).
-/

namespace CommitteeConsensus

/-! ## Promises -/

/-- What is promised of the messages, the blocks and the proofs that a member is given. -/
structure Promise where
  message : Message → Prop
  /-- What is promised of a block that the host builds for a height. -/
  proposal : Height → Block → BlockHash → Prop
  /-- What is promised of the proof of a block that the network committed. -/
  proof : BlockProof → Prop

namespace Promise

/-- Nothing is promised. -/
def nothing : Promise := ⟨fun _ => True, fun _ _ _ => True, fun _ => True⟩

/-- What comes to the term of a height is as promised. -/
def Keeps (promise : Promise) (height : Height) : Stimulus → Prop
  | .message m => promise.message m
  | .event (.proposalBuilt _ (some (block, hash))) => promise.proposal height block hash
  | _ => True

/-- What happens is as promised, to a member for which the host works on these tasks. -/
def Kept (promise : Promise) (tasks : List Task) : Happening → Prop
  | .input (.message m) => promise.message m
  | .input (.sync _ proof _) => promise.proof proof
  | .answer number (.proposal block hash) =>
    ∀ task ∈ tasks, task.number = number → promise.proposal task.height block hash
  | _ => True

/-- The answer to a task is as promised. -/
theorem Kept.answer {promise : Promise} {tasks : List Task} {task : Task} {answer : Answer}
    (h : promise.Kept tasks (.answer task.number answer)) (htask : task ∈ tasks) :
    promise.Keeps task.height (.event (task.conclude answer).1.event) := by
  obtain ⟨number, height, scope, previous, work⟩ := task
  cases work <;> cases answer <;> first | trivial | exact h _ htask rfl

end Promise

/-! ## Lives -/

/-- What is known of a member up to some point. -/
structure Life where
  session : Session
  /-- What the member was told of the world, each time that something happened to it. -/
  moments : List Moment
  /-- What was done to the world, in order. -/
  effects : List Effect
  ending : Option Ending

namespace Life

/-- A life before anything has happened. -/
def unborn (config : Config) (capabilities : Capabilities) : Life :=
  ⟨.fresh (.initial config capabilities), [], [], none⟩

/-- A life after one more thing has happened. -/
def after (life : Life) (moment : Moment) (happening : Happening) : Life where
  session := (life.session.step moment happening).session
  moments := life.moments ++ [moment]
  effects := life.effects ++ (life.session.step moment happening).effects
  ending := (life.session.step moment happening).ending

/-- What may happen: first of all consensus is started at the first height; then anything
else may, until the life has ended. -/
def Allows (first : Height) (life : Life) : Happening → Prop
  | .start height => life.moments = [] ∧ height = first
  | _ => life.moments ≠ [] ∧ life.ending = none

/-- Consensus was started, and has not ended. -/
def Running (life : Life) : Prop := life.moments ≠ [] ∧ life.ending = none

end Life

/-- The lives that a member can have. -/
inductive Lives (config : Config) (capabilities : Capabilities) (first : Height)
    (promise : Promise) : Life → Prop where
  | unborn : Lives config capabilities first promise (.unborn config capabilities)
  | next {life : Life} {moment : Moment} {happening : Happening}
    (lives : Lives config capabilities first promise life)
    (allows : life.Allows first happening)
    (kept : promise.Kept life.session.tasks happening) :
    Lives config capabilities first promise (life.after moment happening)

/-! ## Calls in a session -/

/-- The tasks that effects start. -/
def launchedIn (es : List Effect) : List Task := es.filterMap (·.task?)

@[simp] theorem launchedIn_nil : launchedIn [] = [] := rfl

@[simp] theorem launchedIn_append (es es' : List Effect) :
    launchedIn (es ++ es') = launchedIn es ++ launchedIn es' := List.filterMap_append

@[simp] theorem launchedIn_reports (metrics : List Metric) :
    launchedIn (metrics.map .report) = [] := by
  rw [launchedIn, List.filterMap_map]
  exact List.filterMap_eq_nil_iff.2 fun _ _ => rfl

/-- Effects that start no task add none. -/
theorem append_launchedIn (tasks : List Task) {es : List Effect} (h : launchedIn es = []) :
    tasks ++ launchedIn es = tasks := by
  rw [h, List.append_nil]

theorem mem_launchedIn {es : List Effect} {task : Task} :
    task ∈ launchedIn es ↔ .launch task ∈ es := by
  rw [launchedIn, List.mem_filterMap]
  constructor
  · rintro ⟨effect, heffect, htask⟩
    cases effect <;> simp only [Effect.task?, reduceCtorEq, Option.some.injEq] at htask
    rwa [← htask]
  · intro h
    exact ⟨_, h, rfl⟩

namespace Session

variable {s : Session} {moment : Moment} {cue : Cue}

/-- What a call for something comes to. -/
def respond (s : Session) (moment : Moment) (cue : Cue) : Turn :=
  s.call moment (Controller.respond cue)

theorem ending_respond_of_ok
    (h : ((Controller.respond cue).run moment s.controller).result = .ok ()) :
    (s.respond moment cue).ending = none := by
  rw [respond, call, absorb, h]

theorem ending_respond_of_error {reason : Stop}
    (h : ((Controller.respond cue).run moment s.controller).result = .error reason) :
    (s.respond moment cue).ending ≠ none := by
  rw [respond, call, absorb, h]
  exact Option.some_ne_none _

/-- **What every move preserves holds through a call**: up to its end, or up to where it was
stopped. -/
theorem call_induct {P : List Effect → Controller → Agenda → Prop}
    (move : ∀ {es es' : List Effect} {c c' : Controller} {a a' : Agenda},
      Controller.Move moment c a es' c' a' → P es c a → P (es ++ es') c' a')
    (hP : P [] s.controller (.heed cue)) :
    ((s.respond moment cue).ending = none ∧
        P (s.respond moment cue).effects (s.respond moment cue).session.controller (.hear [])) ∨
      (s.respond moment cue).ending ≠ none ∧
        ∃ (c : Controller) (a : Agenda) (body tail : List Effect) (reason : Stop),
          (s.respond moment cue).effects = body ++ tail ∧ P body c a ∧
            Controller.Halt moment c a tail (s.respond moment cue).session.controller reason := by
  have hcourse := Controller.course_respond moment s.controller cue
  rcases hcourse.induct move hP with ⟨hresult, hend⟩ | ⟨c, a, body, tail, reason, hresult,
    heffects, hbody, hhalt⟩
  · exact Or.inl ⟨ending_respond_of_ok hresult, hend⟩
  · exact Or.inr ⟨ending_respond_of_error hresult, c, a, body, tail, reason, heffects, hbody,
      hhalt⟩

/-- A statement about a member, in the middle of a call as well: about what it did to the
world, the controller, its agenda, its tasks and its events.  It is kept at a moment, whatever
happens that is as promised, but for the start. -/
structure Invariant (promise : Promise) (moment : Moment)
    (I : List Effect → Controller → Agenda → List Task → List LateEvent → Prop) : Prop where
  /-- An input comes. -/
  input : ∀ {es c tasks events input}, I es c (.hear []) tasks events →
    promise.Kept tasks (.input input) → I es c (.heed (.input input)) tasks events
  /-- The first of the events is handled. -/
  late : ∀ {es c tasks e events}, I es c (.hear []) tasks (e :: events) →
    I es c (.heed (.late e)) tasks events
  move : ∀ {es es' c c' a a' tasks events}, Controller.Move moment c a es' c' a' →
    I es c a tasks events → I (es ++ es') c' a' (tasks ++ launchedIn es') events
  /-- The tasks that the controller has no use for are cancelled. -/
  cancel : ∀ {es c tasks events}, I es c (.hear []) tasks events →
    I es c (.hear []) (tasks.filter c.wants) events
  /-- The timer fires. -/
  timer : ∀ {es c tasks events armed}, I es c (.hear []) tasks events →
    c.timer.pending? = some armed →
      I es { c with timer := c.timer.fired } (.hear []) tasks (events ++ [timerEvent armed])
  /-- The host answers. -/
  answer : ∀ {es c tasks events task answer}, I es c (.hear []) tasks events →
    tasks.find? (·.number == task.number) = some task →
    promise.Keeps task.height (.event (task.conclude answer).1.event) →
      I (es ++ (task.conclude answer).2.map .report) c (.hear [])
        (tasks.filter (·.number != task.number)) (events ++ [(task.conclude answer).1])

/-- A session ended in one of its calls, after moves that kept a statement. -/
def Halted (moment : Moment)
    (I : List Effect → Controller → Agenda → List Task → List LateEvent → Prop)
    (before : List Effect) (turn : Turn) : Prop :=
  ∃ c a tasks events body tail reason, turn.effects = body ++ tail ∧
    I (before ++ body) c a tasks events ∧
      Controller.Halt moment c a tail turn.session.controller reason

variable {promise : Promise}
  {I : List Effect → Controller → Agenda → List Task → List LateEvent → Prop} {es : List Effect}

/-- A call keeps it. -/
theorem Invariant.respond (inv : Invariant promise moment I)
    (h : I es s.controller (.heed cue) s.tasks s.events) :
    ((s.respond moment cue).ending = none ∧
        I (es ++ (s.respond moment cue).effects) (s.respond moment cue).session.controller
          (.hear []) (s.respond moment cue).session.tasks s.events) ∨
      (s.respond moment cue).ending ≠ none ∧ Halted moment I es (s.respond moment cue) := by
  have hmove : ∀ {es₁ es₂ : List Effect} {c c' : Controller} {a a' : Agenda},
      Controller.Move moment c a es₂ c' a' →
        I (es ++ es₁) c a (s.tasks ++ launchedIn es₁) s.events →
          I (es ++ (es₁ ++ es₂)) c' a' (s.tasks ++ launchedIn (es₁ ++ es₂)) s.events := by
    intro es₁ es₂ c c' a a' move hI
    rw [← List.append_assoc, launchedIn_append, ← List.append_assoc]
    exact inv.move move hI
  have hstart : I (es ++ []) s.controller (.heed cue) (s.tasks ++ launchedIn []) s.events := by
    rw [launchedIn_nil, List.append_nil, List.append_nil]
    exact h
  rcases call_induct (P := fun body c a => I (es ++ body) c a (s.tasks ++ launchedIn body) s.events)
    hmove hstart with ⟨hending, hend⟩ | ⟨hending, c, a, body, tail, reason, heffects, hbody, hhalt⟩
  · exact Or.inl ⟨hending, inv.cancel hend⟩
  · exact Or.inr ⟨hending, c, a, _, _, body, tail, reason, heffects, hbody, hhalt⟩

/-- **What is kept at a moment holds after whatever happens then**, or the session ends: at
rest, or in the middle of a call. -/
theorem Invariant.step (inv : Invariant promise moment I) {happening : Happening}
    (later : ∀ height, happening ≠ .start height) (kept : promise.Kept s.tasks happening)
    (h : I es s.controller (.hear []) s.tasks s.events) :
    ((s.step moment happening).ending = none ∧
        I (es ++ (s.step moment happening).effects) (s.step moment happening).session.controller
          (.hear []) (s.step moment happening).session.tasks
          (s.step moment happening).session.events) ∨
      (s.step moment happening).ending ≠ none ∧ ((s.step moment happening).effects = [] ∨
        Halted moment I es (s.step moment happening)) := by
  have hsilent : I (es ++ []) s.controller (.hear []) s.tasks s.events := by
    rw [List.append_nil]
    exact h
  cases happening with
  | start height => exact absurd rfl (later height)
  | input input =>
    rcases inv.respond (inv.input h kept) with hgoes | ⟨hends, hhalted⟩
    · exact Or.inl hgoes
    · exact Or.inr ⟨hends, Or.inr hhalted⟩
  | timer =>
    left
    refine ⟨rfl, ?_⟩
    show I (es ++ []) s.fireTimer.controller (.hear []) s.fireTimer.tasks s.fireTimer.events
    rw [List.append_nil, fireTimer]
    split
    · exact h
    · next armed harmed => exact inv.timer h harmed
  | answer number answer =>
    left
    rcases hfind : s.tasks.find? (·.number == number) with _ | task
    · rw [Session.step, conclude, hfind]
      exact ⟨rfl, hsilent⟩
    · have hnumber : task.number = number := by simpa using List.find?_some hfind
      subst hnumber
      rw [Session.step, conclude, hfind]
      exact ⟨rfl, inv.answer h hfind (kept.answer (List.mem_of_find?_eq_some hfind))⟩
  | attend =>
    rcases hevents : s.events with _ | ⟨e, rest⟩
    · rw [Session.step, attend, hevents]
      left
      exact ⟨rfl, hsilent⟩
    · rw [Session.step, attend, hevents]
      rw [hevents] at h
      rcases Invariant.respond (s := { s with events := rest }) inv (inv.late h) with
        hgoes | ⟨hends, hhalted⟩
      · exact Or.inl hgoes
      · exact Or.inr ⟨hends, Or.inr hhalted⟩
  | inputsClosed => exact Or.inr ⟨Option.some_ne_none _, Or.inl rfl⟩
  | shutdown => exact Or.inr ⟨Option.some_ne_none _, Or.inl rfl⟩

end Session

/-! ## The first call -/

namespace Controller

variable {moment : Moment} {c : Controller} {o : Outcome Unit}

theorem course_hear_nil (h : Course moment c (.hear []) o) : o = ⟨c, [], .ok ()⟩ := by
  cases h with
  | done => rfl
  | halt halt =>
    cases halt with
    | react stage gives => cases gives
  | move move rest =>
    cases move with
    | react stage gives => cases gives
    | skip skips => cases skips

/-- Nothing is cached under a height. -/
theorem released_eq_nil {height : Height} {release : Admission.Release}
    (h : c.admission.setHeight height = .ok release)
    (hnone : ∀ m, ¬c.admission.Holds height m) : release.released = [] :=
  List.eq_nil_iff_forall_not_mem.2 fun m hm =>
    hnone m ((Admission.freed_of_setHeight h).released m hm)

/-- **What comes of starting the first height**: its term, or an early end. -/
theorem course_first {height : Height} (h : Course moment c (.heed (.start height)) o)
    (hnone : ∀ m, ¬c.admission.Holds height m) :
    (∃ committee release, c.checkStart height = .ok () ∧
        moment.Names height (c.leave height).seed committee ∧
        c.admission.setHeight height = .ok release ∧
        o = ⟨{ c.begun moment.now height committee with admission := release.admission },
          c.begunBy moment.now height committee ++ release.metrics.map .report, .ok ()⟩) ∨
      ∃ reason, o.result = .error reason ∧ Halt moment c (.start height) o.effects o.controller
        reason := by
  cases h with
  | halt halt =>
    cases halt with
    | react stage gives => cases gives
  | move move rest =>
    cases move with
    | react stage gives => cases gives
    | skip skips => cases skips
    | begin =>
      cases rest with
      | halt halt => exact Or.inr ⟨_, rfl, halt⟩
      | move move rest =>
        cases move with
        | react stage gives => cases gives
        | skip skips => cases skips
        | start check names free =>
          rw [released_eq_nil free hnone] at rest
          obtain rfl := course_hear_nil rest
          left
          refine ⟨_, _, check, names, free, ?_⟩
          simp only [List.nil_append, List.append_nil]

end Controller

/-- **How a life begins**: with the term of the first height, or with its end. -/
theorem Session.first_step (config : Config) (capabilities : Capabilities) (moment : Moment)
    (height : Height) :
    let c := Controller.initial config capabilities
    let turn := (Session.fresh c).step moment (.start height)
    (turn.ending = none ∧ ∃ committee release, c.checkStart height = .ok () ∧
        moment.Names height (c.leave height).seed committee ∧
        c.admission.setHeight height = .ok release ∧
        turn.session.controller =
          { c.begun moment.now height committee with admission := release.admission } ∧
        turn.effects = c.begunBy moment.now height committee ++ release.metrics.map .report ∧
        turn.session.tasks = (launchedIn turn.effects).filter turn.session.controller.wants ∧
        turn.session.events = []) ∨
      turn.ending ≠ none ∧ ∃ reason,
        Controller.Halt moment c (.start height) turn.effects turn.session.controller reason := by
  intro c turn
  have hcourse := Controller.course_respond moment c (.start height)
  have hnone : ∀ m, ¬c.admission.Holds height m := fun m => Admission.not_holds_start _ _
  rcases Controller.course_first hcourse hnone with
    ⟨committee, release, check, names, free, hrun⟩ | ⟨reason, hresult, hhalt⟩
  · have hgoes : ((Session.fresh c).respond moment (.start height)).ending = none :=
      ending_respond_of_ok (congrArg Outcome.result hrun)
    exact Or.inl ⟨hgoes, committee, release, check, names, free,
      congrArg Outcome.controller hrun, congrArg Outcome.effects hrun, rfl, rfl⟩
  · have hends : ((Session.fresh c).respond moment (.start height)).ending ≠ none :=
      ending_respond_of_error hresult
    exact Or.inr ⟨hends, reason, hhalt⟩

/-! ## Running and ended lives -/

namespace Lives

variable {config : Config} {capabilities : Capabilities} {first : Height} {promise : Promise}
  {life : Life}
  {I : List Moment → List Effect → Controller → Agenda → List Task → List LateEvent → Prop}

/-- A statement that holds when the first height was started, and is kept at all moments. -/
structure Invariant (config : Config) (capabilities : Capabilities) (first : Height)
    (promise : Promise)
    (I : List Moment → List Effect → Controller → Agenda → List Task → List LateEvent → Prop) :
    Prop where
  begins : ∀ {moment committee release},
    moment.Names first ((Controller.initial config capabilities).leave first).seed committee →
    (Controller.initial config capabilities).admission.setHeight first = .ok release →
      I [moment]
        ((Controller.initial config capabilities).begunBy moment.now first committee ++
          release.metrics.map .report)
        { (Controller.initial config capabilities).begun moment.now first committee with
          admission := release.admission } (.hear [])
        (launchedIn ((Controller.initial config capabilities).begunBy moment.now first committee ++
          release.metrics.map .report)) []
  /-- What was said at a moment stays said. -/
  later : ∀ {moments moment es c a tasks events}, I moments es c a tasks events →
    I (moments ++ [moment]) es c a tasks events
  kept : ∀ {moments moment}, moment ∈ moments → Session.Invariant promise moment (I moments)

/-- What happens after the start is no start. -/
theorem not_start {happening : Happening} (allows : life.Allows first happening)
    (started : life.moments ≠ []) : ∀ height, happening ≠ .start height := by
  rintro height rfl
  exact started allows.1

theorem running_of_allows {happening : Happening} (allows : life.Allows first happening)
    (started : life.moments ≠ []) : life.Running := by
  cases happening with
  | start height => exact absurd allows.1 started
  | _ => exact allows

theorem eq_unborn (h : Lives config capabilities first promise life)
    (unstarted : life.moments = []) : life = .unborn config capabilities := by
  cases h with
  | unborn => rfl
  | next lives allows kept => exact absurd unstarted (by simp [Life.after])

theorem eq_start_of_allows {happening : Happening} (allows : life.Allows first happening)
    (unstarted : life.moments = []) : happening = .start first := by
  cases happening with
  | start height => rw [allows.2]
  | _ => exact absurd unstarted allows.1

/-- **A running life has the invariant.** -/
theorem keeps (inv : Invariant config capabilities first promise I)
    (h : Lives config capabilities first promise life) (running : life.Running) :
    I life.moments life.effects life.session.controller (.hear []) life.session.tasks
      life.session.events := by
  induction h with
  | unborn => exact absurd rfl running.1
  | @next life moment happening lives allows kept ih =>
    obtain ⟨-, hgoes⟩ := running
    have hending : (life.session.step moment happening).ending = none := hgoes
    have hnow : moment ∈ life.moments ++ [moment] := List.mem_append_right _ List.mem_cons_self
    rcases eq_or_ne life.moments [] with hnone | hsome
    · obtain rfl := eq_start_of_allows allows hnone
      obtain rfl := lives.eq_unborn hnone
      rcases Session.first_step config capabilities moment first with
        ⟨-, committee, release, -, names, free, hcontroller, heffects, htasks, hevents⟩ | ⟨hends, -⟩
      · have hbegins := inv.begins names free
        rw [← hcontroller, ← heffects] at hbegins
        have hcancel := (inv.kept List.mem_cons_self).cancel hbegins
        rw [← htasks, ← hevents] at hcancel
        exact hcancel
      · exact absurd hending hends
    · have hlater : I (life.moments ++ [moment]) life.effects life.session.controller (.hear [])
          life.session.tasks life.session.events :=
        inv.later (ih (running_of_allows allows hsome))
      rcases (inv.kept hnow).step (not_start allows hsome) kept hlater with ⟨-, hkept⟩ | ⟨hends, -⟩
      · exact hkept
      · exact absurd hending hends

/-- **How a life ends**: at its start, at rest, or in the middle of a call. -/
theorem ends (inv : Invariant config capabilities first promise I)
    (h : Lives config capabilities first promise life) (ended : life.ending ≠ none) :
    (∃ moment c reason, Controller.Halt moment (.initial config capabilities) (.start first)
        life.effects c reason) ∨
      ∃ es c a tasks events, I life.moments es c a tasks events ∧
        (life.effects = es ∨ ∃ moment tail c' reason, life.effects = es ++ tail ∧
          Controller.Halt moment c a tail c' reason) := by
  cases h with
  | unborn => exact absurd rfl ended
  | @next life moment happening lives allows kept =>
    have hends : (life.session.step moment happening).ending ≠ none := ended
    have hnow : moment ∈ life.moments ++ [moment] := List.mem_append_right _ List.mem_cons_self
    rcases eq_or_ne life.moments [] with hnone | hsome
    · obtain rfl := eq_start_of_allows allows hnone
      obtain rfl := lives.eq_unborn hnone
      rcases Session.first_step config capabilities moment first with ⟨hgoes, -⟩ |
        ⟨-, reason, hhalt⟩
      · exact absurd hgoes hends
      · exact Or.inl ⟨moment, _, reason, hhalt⟩
    · right
      have hlater : I (life.moments ++ [moment]) life.effects life.session.controller (.hear [])
          life.session.tasks life.session.events :=
        inv.later (keeps inv lives (running_of_allows allows hsome))
      rcases (inv.kept hnow).step (not_start allows hsome) kept hlater with ⟨hgoes, -⟩ |
        ⟨-, hsilent | ⟨c, a, tasks, events, body, tail, reason, heffects, hbody, hhalt⟩⟩
      · exact absurd hgoes hends
      · refine ⟨_, _, _, _, _, hlater, Or.inl ?_⟩
        show life.effects ++ (life.session.step moment happening).effects = _
        rw [hsilent, List.append_nil]
      · refine ⟨_, c, a, tasks, events, hbody, Or.inr ⟨moment, tail, _, reason, ?_, hhalt⟩⟩
        show life.effects ++ (life.session.step moment happening).effects = _
        rw [heffects, List.append_assoc]

end Lives

end CommitteeConsensus
