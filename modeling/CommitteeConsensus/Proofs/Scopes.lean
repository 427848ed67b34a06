import CommitteeConsensus.Proofs.Twins

/-!
# The number of a scope is a name

A controller numbers its scopes so that it can tell the work of one from the work of another.  It
compares these numbers and counts on; which number it counts from makes no difference.
`Controller.later` is a controller with a higher count, and what it does in an activity is what the
controller itself does, with the numbers of all scopes shifted by as much
(`Activity.Shifts`).

That is shown of each activity by the way it is put together, up to `Controller.enter`: all that
the start of a height is after the height before was given up.
-/

namespace CommitteeConsensus

/-! ## Counting from a later scope -/

/-- The task in a later scope. -/
def Task.later (task : Task) (k : Nat) : Task := { task with scope := task.scope + k }

/-- The effect, for work in a later scope. -/
def Effect.later (effect : Effect) (k : Nat) : Effect :=
  match effect with
  | .launch task => .launch (task.later k)
  | effect => effect

/-- The controller in a later scope. -/
def Controller.later (c : Controller) (k : Nat) : Controller :=
  { c with scope := ⟨c.scope.number + k, c.scope.view⟩ }

/-- The outcome in a later scope. -/
def Outcome.later {α : Type} (o : Outcome α) (k : Nat) : Outcome α :=
  ⟨o.controller.later k, o.effects.map (·.later k), o.result⟩

/-- A task is of use in its own scope, whatever the scopes are counted from. -/
theorem Controller.wants_later (c : Controller) (task : Task) (k : Nat) :
    (c.later k).wants (task.later k) = c.wants task := by
  show (task.scope + k == c.scope.number + k) = (task.scope == c.scope.number)
  rw [Bool.eq_iff_iff, beq_iff_eq, beq_iff_eq, Nat.add_right_cancel_iff]

theorem deedsIn_later (es : List Effect) (k : Nat) :
    deedsIn (es.map (·.later k)) = (deedsIn es).map (·.later k) := by
  rw [deedsIn, deedsIn, List.filterMap_map, List.map_filterMap]
  congr 1
  funext e
  cases e <;> rfl

namespace Outcome

variable {α β : Type} {f f' : α → Controller → Outcome β}

/-- What follows on a later outcome is later as well. -/
theorem later_goOn (o : Outcome α) (k : Nat)
    (h : ∀ a, f' a (o.controller.later k) = (f a o.controller).later k) :
    (o.later k).goOn f' = (o.goOn f).later k := by
  rcases hresult : o.result with reason | a
  · rw [goOn_of_error hresult]
    exact goOn_of_error hresult
  · rw [goOn_of_ok hresult, goOn_of_ok (o := o.later k) hresult]
    show Outcome.mk (f' a (o.controller.later k)).controller
      (o.effects.map (·.later k) ++ (f' a (o.controller.later k)).effects)
      (f' a (o.controller.later k)).result = _
    rw [h a]
    show Outcome.mk _ _ _ = Outcome.mk _ ((o.effects ++ _).map (·.later k)) _
    rw [List.map_append]
    rfl

end Outcome

/-! ## Activities -/

namespace Activity

variable {α β : Type} {m : Moment}

/-- In a later scope this comes to the same, later. -/
def Shifts (m : Moment) (act : Activity α) : Prop :=
  ∀ (c : Controller) (k : Nat), act.run m (c.later k) = (act.run m c).later k

theorem Shifts.bind {act : Activity α} {next : α → Activity β} (h : Shifts m act)
    (hnext : ∀ a, Shifts m (next a)) : Shifts m (act >>= next) := by
  intro c k
  rw [run_bind_eq_goOn, run_bind_eq_goOn, h c k]
  exact Outcome.later_goOn _ _ fun a => hnext a _ k

theorem Shifts.pure (a : α) : Shifts m (Pure.pure a) := fun _ _ => rfl

/-- What comes after looking may depend on all that was seen, but for the scope. -/
theorem Shifts.look_bind {next : Controller → Activity β}
    (h : ∀ c k, (next (c.later k)).run m (c.later k) = ((next c).run m c).later k) :
    Shifts m (look >>= next) := h

theorem shifts_change {f : Controller → Controller} (h : ∀ c k, f (c.later k) = (f c).later k) :
    Shifts m (change f) := fun c k => congrArg (Outcome.mk · [] (.ok ())) (h c k)

theorem shifts_send (recipients : List MemberId) (message : Message) :
    Shifts m (perform (.send recipients message)) := fun _ _ => rfl

theorem shifts_commitEffect (decision : Decision) : Shifts m (perform (.commit decision)) :=
  fun _ _ => rfl

theorem shifts_stop (reason : Stop) : Shifts m (stop reason : Activity α) := fun _ _ => rfl

theorem shifts_require (value : Except Fault α) : Shifts m (require value) := by
  rcases value with fault | a
  · exact shifts_stop _
  · exact .pure a

theorem shifts_now : Shifts m now := fun _ _ => rfl

theorem shifts_report (metrics : List Metric) : Shifts m (report metrics) := by
  intro c k
  show Outcome.mk _ _ _ = Outcome.mk _ ((metrics.map Effect.report).map fun e => e.later k) _
  rw [List.map_map]
  rfl

theorem shifts_committee (height : Height) (seed : Seed) : Shifts m (committee height seed) :=
  fun _ _ => rfl

end Activity

namespace Controller

open Activity

variable {m : Moment}

/-! ### The activities of a term -/

theorem leave_later (c : Controller) (height : Height) (k : Nat) :
    (c.later k).leave height = (c.leave height).later k := by
  show { c with scope := ⟨c.scope.number + k + 1, 0⟩, timer := _, stage := _ } =
    { c with scope := ⟨c.scope.number + 1 + k, 0⟩, timer := _, stage := _ }
  rw [Nat.add_right_comm]
  rfl

theorem shifts_reachView (view : View) : Shifts m (reachView view) := by
  refine shifts_change fun c k => ?_
  by_cases hlower : c.scope.view < view
  · rw [if_pos hlower, if_pos (show (c.later k).scope.view < view from hlower)]
    show { c with scope := ⟨c.scope.number + k + 1, view⟩ } =
      { c with scope := ⟨c.scope.number + 1 + k, view⟩ }
    rw [Nat.add_right_comm]
  · rw [if_neg hlower, if_neg (show ¬(c.later k).scope.view < view from hlower)]

theorem shifts_activeHeight : Shifts m activeHeight := by
  refine .look_bind fun c k => ?_
  have hsame : (c.later k).height? = c.height? := rfl
  rw [hsame]
  rcases c.height? with _ | height <;> rfl

theorem shifts_launch (view : View) (work : Work) : Shifts m (launch view work) :=
  .bind shifts_activeHeight fun _ => .bind (shifts_reachView view) fun _ =>
    .look_bind fun _ _ => rfl

theorem shifts_execute (decided : Option Decision) (request : Request) :
    Shifts m (execute decided request) := by
  rcases request with _ | view | _ | view | message | decision
  · exact .bind (shifts_send _ _) fun _ => .pure _
  · exact .bind (shifts_reachView view) fun _ => .bind shifts_activeHeight fun _ =>
      .bind shifts_now fun _ => .bind (shifts_change fun _ _ => rfl) fun _ => .pure _
  · exact .bind (shifts_change fun _ _ => rfl) fun _ => .pure _
  · exact .bind (shifts_launch view _) fun _ => .pure _
  · exact .bind (shifts_launch message.view _) fun _ => .pure _
  · rcases decided with _ | _
    · exact .pure _
    · exact shifts_stop _

theorem shifts_executeAll (decided : Option Decision) (requests : List Request) :
    Shifts m (executeAll decided requests) := by
  induction requests generalizing decided with
  | nil => exact .pure _
  | cons request requests ih => exact .bind (shifts_execute decided request) ih

theorem shifts_follow (term : Term) (step : Except Fault Step) : Shifts m (follow term step) :=
  .bind (shifts_require step) fun _ => .bind (shifts_change fun _ _ => rfl) fun _ =>
    .bind (shifts_report _) fun _ => shifts_executeAll _ _

theorem shifts_pass (message : Message) : Shifts m (pass message) := by
  refine .look_bind fun c k => ?_
  have hsame : (c.later k).stage = c.stage := rfl
  rw [hsame]
  rcases c.stage with log | ⟨term, progress⟩
  · rfl
  · exact shifts_follow _ _ c k

theorem shifts_replay (decided : Option Decision) (messages : List Message) :
    Shifts m (replay decided messages) := by
  induction messages generalizing decided with
  | nil => rcases decided with _ | _ <;> exact .pure _
  | cons message messages ih =>
    rcases decided with _ | _
    · exact .bind (shifts_pass message) ih
    · exact .pure _

/-! ### From height to height -/

theorem shifts_raise (height : Height) : Shifts m (raise height) := by
  refine .look_bind fun c k => ?_
  refine Shifts.bind (shifts_require _) (fun _ => ?_) c k
  refine .bind (shifts_change fun c k => leave_later c height k) fun _ => .look_bind fun c k => ?_
  exact Shifts.bind (shifts_committee height c.seed) (fun committee =>
    .bind (shifts_report _) fun _ => shifts_follow _ _) c k

theorem shifts_release (height : Height) (decided : Option Decision) :
    Shifts m (release height decided) := by
  refine .look_bind fun c k => ?_
  exact Shifts.bind (shifts_require (c.admission.setHeight height)) (fun free =>
    .bind (shifts_change fun _ _ => rfl) fun _ => .bind (shifts_report _) fun _ =>
      shifts_replay _ _) c k

theorem shifts_startHeight (height : Height) : Shifts m (startHeight height) := by
  rw [startHeight_eq]
  exact .bind (shifts_raise height) fun _ => shifts_release height _

theorem shifts_commit (decision : Decision) : Shifts m (commit decision) :=
  .bind (shifts_report _) fun _ => .bind (shifts_commitEffect _) fun _ =>
    shifts_change fun _ _ => rfl

theorem shifts_moveOn (rounds : Nat) (decided : Option Decision) :
    Shifts m (moveOn rounds decided) := by
  induction rounds generalizing decided with
  | zero =>
    rcases decided with _ | decision
    · exact .pure _
    · exact .bind (shifts_commit decision) fun _ => .bind (shifts_require _) fun next =>
        .bind (shifts_startHeight next) fun _ => .pure _
  | succ rounds ih =>
    rcases decided with _ | decision
    · exact .pure _
    · exact .bind (shifts_commit decision) fun _ => .bind (shifts_require _) fun next =>
        .bind (shifts_startHeight next) ih

/-- Whatever a call came to, it is settled in a later scope as in this one. -/
theorem shifts_settle (decided : Option Decision) : Shifts m (settle decided) :=
  .look_bind fun c k => shifts_moveOn _ _ c k

/-- The start of a height, once the height before is given up. -/
def enter (height : Height) : Activity Unit := do
  let c ← look
  let committee ← committee height c.seed
  report [.set .height height]
  let decided ← follow (c.termAt height committee)
    (.ok ((c.termAt height committee).start (Progress.initial c.log)))
  let decided ← release height decided
  settle decided

theorem shifts_enter (height : Height) : Shifts m (enter height) := by
  refine .look_bind fun c k => ?_
  exact Shifts.bind (shifts_committee height c.seed) (fun committee =>
    .bind (shifts_report _) fun _ => .bind (shifts_follow _ _) fun decided =>
      .bind (shifts_release height decided) shifts_settle) c k

/-- A height that may be started is entered after the height before was given up. -/
theorem setHeight_run {c : Controller} {height : Height} (check : c.checkStart height = .ok ()) :
    (setHeight height).run m c = (enter height).run m (c.leave height) := by
  have hparts : setHeight height = look >>= fun c => require (c.checkStart height) >>= fun _ =>
      change (fun c => c.leave height) >>= fun _ => enter height := by
    simp only [setHeight, startHeight_eq, raise, bind_assoc]
    rfl
  rw [hparts, run_look_bind, check, run_require_bind_ok, run_change_bind]

end Controller

end CommitteeConsensus
