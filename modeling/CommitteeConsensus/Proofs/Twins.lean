import CommitteeConsensus.Proofs.Course

/-!
# Twin controllers

A controller reads two things of the world that an observer of its deeds does not care for: what
time it is, and how many messages were cached before.  The time goes into the instant at which
the election timer is due, and the count into the numbers of arrival.  Two controllers that
agree but for these are twins.

Asked for the same, by a host that names the same committees, twins do the same and are twins
again: they come to the same result, and their effects differ in what is reported at most
(`Outcome.Alike`).  An activity for which this holds is `Activity.Steady`.  Steady activities
follow one upon the other, so it is shown of each activity of a controller by the way it is put
together, from the requests of a term up to `settle`.

Most activities leave the filter alone.  For these the filters of twins may be related in any
way, and `Controller.Twins` says in which.  It matters in one place only, where a height is
started and the filter follows.
-/

namespace CommitteeConsensus

/-! ## What twins agree on -/

/-- What an armed timer is armed for, whatever the instant. -/
def Armed.aim {α : Type} (a : Armed α) : View × Bool × α := (a.view, a.pending, a.note)

/-- What a timer is armed for, whatever the instant. -/
def ElectionTimer.aim {α : Type} (t : ElectionTimer α) : Nanoseconds × Option (View × Bool × α) :=
  (t.base, t.armed.map Armed.aim)

/-- Two filters that agree but for the number of the next arrival. -/
structure Admission.Twins (a a' : Admission) : Prop where
  me : a'.me = a.me
  height : a'.height = a.height
  limits : a'.limits = a.limits
  byHeight : a'.byHeight = a.byHeight
  bySender : a'.bySender = a.bySender

/-- Two controllers that agree but for the instants their timers are due, and with filters that
are related. -/
structure Controller.Twins (R : Admission → Admission → Prop) (c c' : Controller) : Prop where
  config : c'.config = c.config
  capabilities : c'.capabilities = c.capabilities
  admission : R c.admission c'.admission
  stage : c'.stage = c.stage
  timer : c'.timer.aim = c.timer.aim
  scope : c'.scope = c.scope
  launched : c'.launched = c.launched
  tip : c'.tip = c.tip

/-- What is done to the world, apart from what is reported. -/
def Effect.deed? : Effect → Option Effect
  | .report _ => none
  | effect => some effect

/-- What is done to the world, apart from what is reported. -/
def deedsIn (es : List Effect) : List Effect := es.filterMap (·.deed?)

@[simp] theorem deedsIn_append (es es' : List Effect) :
    deedsIn (es ++ es') = deedsIn es ++ deedsIn es' := List.filterMap_append

@[simp] theorem deedsIn_reports (metrics : List Metric) : deedsIn (metrics.map .report) = [] := by
  rw [deedsIn, List.filterMap_map]
  exact List.filterMap_eq_nil_iff.2 fun _ _ => rfl

/-- Two outcomes that an observer of deeds cannot tell apart. -/
structure Outcome.Alike {α : Type} (R : Admission → Admission → Prop) (o o' : Outcome α) :
    Prop where
  controller : o.controller.Twins R o'.controller
  deeds : deedsIn o'.effects = deedsIn o.effects
  result : o'.result = o.result

namespace Outcome

variable {α β γ : Type} {R S : Admission → Admission → Prop} {o o' : Outcome α}
  {f f' : α → Controller → Outcome β}

/-- What comes of an outcome and of what follows on it, unless it was an early end. -/
def goOn (o : Outcome α) (next : α → Controller → Outcome β) : Outcome β :=
  match o.result with
  | .error reason => ⟨o.controller, o.effects, .error reason⟩
  | .ok a =>
    let second := next a o.controller
    ⟨second.controller, o.effects ++ second.effects, second.result⟩

theorem goOn_of_ok {a : α} (ok : o.result = .ok a) : o.goOn f =
    ⟨(f a o.controller).controller, o.effects ++ (f a o.controller).effects,
      (f a o.controller).result⟩ := by
  rw [goOn, ok]

theorem goOn_of_error {reason : Stop} (error : o.result = .error reason) :
    o.goOn f = ⟨o.controller, o.effects, .error reason⟩ := by
  rw [goOn, error]

theorem goOn_assoc (o : Outcome α) (f : α → Controller → Outcome β)
    (g : β → Controller → Outcome γ) :
    (o.goOn f).goOn g = o.goOn fun a c => (f a c).goOn g := by
  rcases hresult : o.result with reason | a
  · rw [goOn_of_error hresult, goOn_of_error hresult]
    rfl
  · rw [goOn_of_ok hresult, goOn_of_ok hresult]
    rcases hsecond : (f a o.controller).result with reason | b
    · rw [goOn_of_error hsecond]
      exact goOn_of_error rfl
    · rw [goOn_of_ok hsecond, ← List.append_assoc]
      exact goOn_of_ok rfl

/-- What comes to something is followed by what is alike. -/
theorem Alike.goOn_of_ok {a : α} (h : o.Alike R o') (ok : o.result = .ok a)
    (rest : (f a o.controller).Alike S (f' a o'.controller)) :
    (o.goOn f).Alike S (o'.goOn f') := by
  rw [Outcome.goOn_of_ok ok, Outcome.goOn_of_ok (h.result.trans ok)]
  refine ⟨rest.controller, ?_, rest.result⟩
  show deedsIn (_ ++ _) = deedsIn (_ ++ _)
  rw [deedsIn_append, deedsIn_append, h.deeds, rest.deeds]

/-- What is alike and is followed by what is alike. -/
theorem Alike.goOn (h : o.Alike R o')
    (rest : ∀ a, o.result = .ok a → (f a o.controller).Alike R (f' a o'.controller)) :
    (o.goOn f).Alike R (o'.goOn f') := by
  rcases hresult : o.result with reason | a
  · rw [goOn_of_error hresult, goOn_of_error (h.result.trans hresult)]
    exact ⟨h.controller, h.deeds, rfl⟩
  · exact h.goOn_of_ok hresult (rest a hresult)

end Outcome

namespace Admission.Twins

variable {a a' : Admission}

theorem cachedCount_eq (h : a.Twins a') : a'.cachedCount = a.cachedCount := by
  rw [Admission.cachedCount, h.byHeight, Admission.cachedCount]

/-- Twins release the same. -/
theorem setHeight (h : a.Twins a') (height : Height) :
    (∃ fault, a.setHeight height = .error fault ∧ a'.setHeight height = .error fault) ∨
      ∃ release release', a.setHeight height = .ok release ∧ a'.setHeight height = .ok release' ∧
        release.admission.Twins release'.admission ∧ release'.released = release.released := by
  rw [Admission.setHeight, Admission.setHeight, h.height]
  by_cases hdown : height < a.height
  · rw [if_pos hdown, if_pos hdown]
    exact Or.inl ⟨_, rfl, rfl⟩
  · rw [if_neg hdown, if_neg hdown]
    rcases nextHeight height with fault | next
    · exact Or.inl ⟨fault, rfl, rfl⟩
    · refine Or.inr ⟨_, _, rfl, rfl, ⟨h.me, rfl, h.limits, ?_, ?_⟩, ?_⟩
      · exact congrArg (List.filter _) h.byHeight
      · exact congrArg (List.filterMap _) h.bySender
      · show ((Table.get? height a'.byHeight).getD []).map (·.2) = _
        rw [h.byHeight]

end Admission.Twins

/-! ## Timers of twins -/

namespace ElectionTimer

variable {α : Type} {t t' : ElectionTimer α}

theorem view?_eq_of_aim (h : t'.aim = t.aim) : t'.view? = t.view? := by
  have harmed : t'.armed.map Armed.aim = t.armed.map Armed.aim := congrArg Prod.snd h
  have hview : (t'.armed.map Armed.aim).map (·.1) = (t.armed.map Armed.aim).map (·.1) := by
    rw [harmed]
  rw [Option.map_map, Option.map_map] at hview
  exact hview

theorem base_eq_of_aim (h : t'.aim = t.aim) : t'.base = t.base := congrArg (fun aim => aim.1) h

theorem aim_disarm (h : t'.aim = t.aim) : t'.disarm.aim = t.disarm.aim := by
  have hbase : t'.base = t.base := base_eq_of_aim h
  exact Prod.ext hbase rfl

theorem aim_arm_of_ne {view : View} (h : t.view? ≠ some view) (now : Nanoseconds) (note : α) :
    (t.arm now view note).aim = (t.base, some (view, true, note)) := by
  rw [arm, if_neg h]
  rfl

/-- The instant makes no difference to what a timer is armed for. -/
theorem aim_arm (h : t'.aim = t.aim) (now now' : Nanoseconds) (view : View) (note : α) :
    (t'.arm now' view note).aim = (t.arm now view note).aim := by
  by_cases hview : t.view? = some view
  · rw [arm_of_view? hview, arm_of_view? ((view?_eq_of_aim h).trans hview)]
    exact h
  · have hview' : t'.view? ≠ some view := fun heq => hview ((view?_eq_of_aim h).symm.trans heq)
    rw [aim_arm_of_ne hview, aim_arm_of_ne hview', base_eq_of_aim h]

end ElectionTimer

/-! ## What becomes of twins -/

namespace Controller

variable {R S : Admission → Admission → Prop} {c c' : Controller}

namespace Twins

theorem height?_eq (h : c.Twins R c') : c'.height? = c.height? := by
  rw [height?, h.stage, height?]

theorem seed_eq (h : c.Twins R c') : c'.seed = c.seed := by
  rw [seed, h.tip, seed]

theorem log_eq (h : c.Twins R c') : c'.log = c.log := by
  rw [log, h.stage, log]

theorem checkStart_eq (h : c.Twins R c') (height : Height) :
    c'.checkStart height = c.checkStart height := by
  rw [checkStart, h.height?_eq, checkStart]

theorem withStage (h : c.Twins R c') (stage : Stage) :
    Controller.Twins R { c with stage } { c' with stage } :=
  ⟨h.config, h.capabilities, h.admission, rfl, h.timer, h.scope, h.launched, h.tip⟩

theorem withTimer (h : c.Twins R c') {timer timer' : ElectionTimer Height}
    (same : timer'.aim = timer.aim) :
    Controller.Twins R { c with timer } { c' with timer := timer' } :=
  ⟨h.config, h.capabilities, h.admission, h.stage, same, h.scope, h.launched, h.tip⟩

theorem withScope (h : c.Twins R c') (scope : Scope) :
    Controller.Twins R { c with scope } { c' with scope } :=
  ⟨h.config, h.capabilities, h.admission, h.stage, h.timer, rfl, h.launched, h.tip⟩

theorem withLaunched (h : c.Twins R c') (launched : Nat) :
    Controller.Twins R { c with launched } { c' with launched } :=
  ⟨h.config, h.capabilities, h.admission, h.stage, h.timer, h.scope, rfl, h.tip⟩

theorem withTip (h : c.Twins R c') (tip : Option Tip) :
    Controller.Twins R { c with tip } { c' with tip } :=
  ⟨h.config, h.capabilities, h.admission, h.stage, h.timer, h.scope, h.launched, rfl⟩

theorem withAdmission (h : c.Twins R c') {admission admission' : Admission}
    (related : S admission admission') :
    Controller.Twins S { c with admission } { c' with admission := admission' } :=
  ⟨h.config, h.capabilities, related, h.stage, h.timer, h.scope, h.launched, h.tip⟩

/-- Twins reach a view alike. -/
theorem reach (h : c.Twins R c') (view : View) : (c.reach view).Twins R (c'.reach view) := by
  unfold Controller.reach
  rw [h.scope]
  split
  · exact h.withScope _
  · exact h

/-- Twins give up their height alike. -/
theorem leave (h : c.Twins R c') (height : Height) :
    (c.leave height).Twins R (c'.leave height) := by
  unfold Controller.leave
  rw [h.log_eq, h.scope]
  exact ((h.withScope _).withTimer (ElectionTimer.aim_disarm h.timer)).withStage _

end Twins

end Controller

/-! ## Steady activities -/

namespace Activity

variable {α β : Type} {R : Admission → Admission → Prop} {m m' : Moment}

/-- Twins do this alike, at two moments. -/
def Steady (R : Admission → Admission → Prop) (m m' : Moment) (act : Activity α) : Prop :=
  ∀ c c', c.Twins R c' → (act.run m c).Alike R (act.run m' c')

theorem run_bind_eq_goOn (act : Activity α) (next : α → Activity β) (c : Controller) :
    (act >>= next).run m c = (act.run m c).goOn fun a => (next a).run m := rfl

/-- What twins did alike is followed by what they do alike. -/
theorem alike_bind {act act' : Activity α} {next next' : α → Activity β} {c c' : Controller}
    (h : (act.run m c).Alike R (act'.run m' c'))
    (rest : ∀ a c₁ c₁', c₁.Twins R c₁' → ((next a).run m c₁).Alike R ((next' a).run m' c₁')) :
    ((act >>= next).run m c).Alike R ((act' >>= next').run m' c') :=
  h.goOn fun a _ => rest a _ _ h.controller

theorem Steady.bind {act : Activity α} {next : α → Activity β} (h : Steady R m m' act)
    (hnext : ∀ a, Steady R m m' (next a)) : Steady R m m' (act >>= next) :=
  fun c c' twins => alike_bind (h c c' twins) hnext

theorem Steady.pure (a : α) : Steady R m m' (Pure.pure a) := fun _ _ twins => ⟨twins, rfl, rfl⟩

/-- What comes after looking may depend on what was seen. -/
theorem Steady.look_bind {next : Controller → Activity β}
    (h : ∀ c c', c.Twins R c' → ((next c).run m c).Alike R ((next c').run m' c')) :
    Steady R m m' (look >>= next) := h

/-- What comes after reading the clock may depend on the time. -/
theorem Steady.now_bind {next : Nanoseconds → Activity β}
    (h : ∀ c c', c.Twins R c' → ((next m.now).run m c).Alike R ((next m'.now).run m' c')) :
    Steady R m m' (now >>= next) := h

theorem steady_change {f : Controller → Controller}
    (h : ∀ c c', c.Twins R c' → (f c).Twins R (f c')) : Steady R m m' (change f) :=
  fun c c' twins => ⟨h c c' twins, rfl, rfl⟩

theorem steady_perform (effect : Effect) : Steady R m m' (perform effect) :=
  fun _ _ twins => ⟨twins, rfl, rfl⟩

theorem steady_stop (reason : Stop) : Steady R m m' (stop reason : Activity α) :=
  fun _ _ twins => ⟨twins, rfl, rfl⟩

theorem steady_require (value : Except Fault α) : Steady R m m' (require value) := by
  rcases value with fault | a
  · exact steady_stop _
  · exact .pure a

/-- What is reported may differ. -/
theorem alike_report (metrics metrics' : List Metric) {c c' : Controller} (twins : c.Twins R c') :
    ((report metrics).run m c).Alike R ((report metrics').run m' c') := by
  refine ⟨twins, ?_, rfl⟩
  show deedsIn (metrics'.map .report) = deedsIn (metrics.map .report)
  rw [deedsIn_reports, deedsIn_reports]

theorem steady_report (metrics : List Metric) : Steady R m m' (report metrics) :=
  fun _ _ twins => alike_report metrics metrics twins

/-- A host that names the same committees is asked alike. -/
theorem steady_committee (same : m'.committeeOf = m.committeeOf) (height : Height) (seed : Seed) :
    Steady R m m' (committee height seed) := by
  intro c c' twins
  refine ⟨twins, rfl, ?_⟩
  simp only [Activity.run, committee, same]

end Activity

namespace Controller

open Activity

variable {R : Admission → Admission → Prop} {m m' : Moment}

/-! ## The activities of a term -/

theorem steady_reachView (view : View) : Steady R m m' (reachView view) :=
  steady_change fun _ _ twins => twins.reach view

theorem steady_activeHeight : Steady R m m' activeHeight := by
  refine .look_bind fun c c' twins => ?_
  rw [twins.height?_eq]
  rcases c.height? with _ | height
  · exact steady_stop _ c c' twins
  · exact Steady.pure height c c' twins

theorem steady_launch (view : View) (work : Work) : Steady R m m' (launch view work) := by
  refine .bind steady_activeHeight fun height => .bind (steady_reachView view) fun _ =>
    .look_bind fun c c' twins => ?_
  rw [twins.launched, twins.scope, twins.tip]
  refine Steady.bind (steady_change fun c c' twins => ?_) (fun _ => steady_perform _) c c' twins
  rw [twins.launched]
  exact twins.withLaunched _

/-- The clock goes into the timer only. -/
theorem steady_execute (decided : Option Decision) (request : Request) :
    Steady R m m' (execute decided request) := by
  rcases request with _ | view | _ | view | message | decision
  · exact .bind (steady_perform _) fun _ => .pure _
  · refine .bind (steady_reachView view) fun _ => .bind steady_activeHeight fun height =>
      .now_bind fun c c' twins => ?_
    refine alike_bind ⟨?_, rfl, rfl⟩ fun _ => Steady.pure _
    exact twins.withTimer (ElectionTimer.aim_arm twins.timer _ _ _ _)
  · refine .bind (steady_change fun c c' twins => ?_) fun _ => .pure _
    exact twins.withTimer (ElectionTimer.aim_disarm twins.timer)
  · exact .bind (steady_launch view _) fun _ => .pure _
  · exact .bind (steady_launch message.view _) fun _ => .pure _
  · rcases decided with _ | _
    · exact .pure _
    · exact steady_stop _

theorem steady_executeAll (decided : Option Decision) (requests : List Request) :
    Steady R m m' (executeAll decided requests) := by
  induction requests generalizing decided with
  | nil => exact .pure _
  | cons request requests ih => exact .bind (steady_execute decided request) ih

theorem steady_follow (term : Term) (step : Except Fault Step) :
    Steady R m m' (follow term step) :=
  .bind (steady_require step) fun _ => .bind (steady_change fun _ _ twins => twins.withStage _)
    fun _ => .bind (steady_report _) fun _ => steady_executeAll _ _

theorem steady_pass (message : Message) : Steady R m m' (pass message) := by
  refine .look_bind fun c c' twins => ?_
  rw [twins.stage]
  rcases c.stage with log | ⟨term, progress⟩
  · exact Steady.pure _ c c' twins
  · exact steady_follow _ _ c c' twins

theorem steady_replay (decided : Option Decision) (messages : List Message) :
    Steady R m m' (replay decided messages) := by
  induction messages generalizing decided with
  | nil => rcases decided with _ | _ <;> exact .pure _
  | cons message messages ih =>
    rcases decided with _ | _
    · exact .bind (steady_pass message) ih
    · exact .pure _

/-! ## From height to height -/

theorem steady_raise (same : m'.committeeOf = m.committeeOf) (height : Height) :
    Steady R m m' (raise height) := by
  refine .look_bind fun c c' twins => ?_
  rw [twins.checkStart_eq]
  refine Steady.bind (steady_require _) (fun _ => ?_) c c' twins
  refine .bind (steady_change fun c c' twins => twins.leave height) fun _ =>
    .look_bind fun c c' twins => ?_
  rw [twins.seed_eq]
  have hterm : ∀ committee, c'.termAt height committee = c.termAt height committee := by
    intro committee
    rw [termAt, twins.seed_eq, twins.capabilities, twins.config, termAt]
  refine alike_bind (steady_committee same height _ c c' twins) fun committee => ?_
  rw [hterm, twins.log_eq]
  exact Steady.bind (steady_report _) fun _ => steady_follow _ _

theorem steady_release (height : Height) (decided : Option Decision) :
    Steady Admission.Twins m m' (release height decided) := by
  refine .look_bind fun c c' twins => ?_
  rcases twins.admission.setHeight height with ⟨fault, hfault, hfault'⟩ |
    ⟨free, free', hfree, hfree', hadmission, hreleased⟩
  · rw [hfault, hfault']
    exact steady_stop _ c c' twins
  · rw [hfree, hfree']
    show ((change _ >>= fun _ => report _ >>= fun _ => replay decided free.released).run m c).Alike _
      ((change _ >>= fun _ => report _ >>= fun _ => replay decided free'.released).run m' c')
    rw [hreleased]
    refine alike_bind ⟨twins.withAdmission hadmission, rfl, rfl⟩ fun _ c₁ c₁' twins => ?_
    exact alike_bind (alike_report _ _ twins) fun _ => steady_replay _ _

theorem steady_startHeight (same : m'.committeeOf = m.committeeOf) (height : Height) :
    Steady Admission.Twins m m' (startHeight height) := by
  rw [startHeight_eq]
  exact .bind (steady_raise same height) fun _ => steady_release height _

theorem steady_commit (decision : Decision) : Steady R m m' (commit decision) :=
  .bind (steady_report _) fun _ => .bind (steady_perform _) fun _ =>
    steady_change fun _ _ twins => twins.withTip _

theorem steady_moveOn (same : m'.committeeOf = m.committeeOf) (rounds : Nat)
    (decided : Option Decision) : Steady Admission.Twins m m' (moveOn rounds decided) := by
  induction rounds generalizing decided with
  | zero =>
    rcases decided with _ | decision
    · exact .pure _
    · exact .bind (steady_commit decision) fun _ => .bind (steady_require _) fun next =>
        .bind (steady_startHeight same next) fun _ => .pure _
  | succ rounds ih =>
    rcases decided with _ | decision
    · exact .pure _
    · exact .bind (steady_commit decision) fun _ => .bind (steady_require _) fun next =>
        .bind (steady_startHeight same next) ih

/-- **Whatever a call came to, twins settle it alike.** -/
theorem steady_settle (same : m'.committeeOf = m.committeeOf) (decided : Option Decision) :
    Steady Admission.Twins m m' (settle decided) := by
  refine .look_bind fun c c' twins => ?_
  rw [twins.admission.cachedCount_eq]
  exact steady_moveOn same _ _ c c' twins

end Controller

end CommitteeConsensus
