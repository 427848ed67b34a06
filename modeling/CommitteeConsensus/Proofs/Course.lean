import CommitteeConsensus.Proofs.Caching
import CommitteeConsensus.Proofs.Execution
import CommitteeConsensus.Session

/-!
# The course of a call

A controller is called for one thing at a time: to start a height, to take in an input, or
to handle a late event.  One call may run through many heights.  A message decides a height,
the next one is started, what was cached for it is replayed and may decide it as well, and
so on.

Here a call is taken apart into moves.  Between two moves the controller has an `Agenda`:
what it was called for, messages that are to be replayed, a decision that is to be
committed, or a height that is to be started.  `Move` lists what a move can be, each with
the checks that were passed, and `Halt` lists how a call can end early.  That every call is
a course of moves that ends with nothing left on the agenda, or at a halt, is
`course_respond`.  What is to hold through all calls is then shown of one move.

The loop over the heights is written with a bound on its rounds.  The bound is never met,
because a height that decides when it is started takes a message out of the cache
(`course_moveOn`).
-/

namespace CommitteeConsensus

/-- What a controller is called for. -/
inductive Cue where
  /-- A height is to be started. -/
  | start (height : Height)
  /-- An input came from outside. -/
  | input (input : Input)
  /-- A late event is to be handled. -/
  | late (event : LateEvent)

/-- What a controller has to do next, while it is being called. -/
inductive Agenda where
  /-- What it was called for. -/
  | heed (cue : Cue)
  /-- Messages of the current height are to be given to the term. -/
  | hear (messages : List Message)
  /-- A decision of the term is to be committed. -/
  | close (decision : Decision)
  /-- The height after this one is to be started. -/
  | succeed (height : Height)
  /-- A height is to be started. -/
  | start (height : Height)

/-- What is to be done once a term was given an input, and these messages were to follow. -/
def Agenda.after (decided : Option Decision) (messages : List Message) : Agenda :=
  match decided with
  | none => .hear messages
  | some decision => .close decision

/-- The host names the committee of a height, as drawn by a seed. -/
def Moment.Names (moment : Moment) (height : Height) (seed : Seed) (committee : Committee) : Prop :=
  ∃ members, moment.committeeOf height seed = .ok members ∧
    Committee.ofList? members = some committee

theorem Moment.Names.committeeOf {moment : Moment} {height : Height} {seed : Seed}
    {committee : Committee} (h : moment.Names height seed committee) :
    moment.committeeOf height seed = .ok committee.members := by
  obtain ⟨members, hmembers, hcommittee⟩ := h
  rw [Committee.ofList?] at hcommittee
  split at hcommittee
  · exact absurd hcommittee (by simp)
  · rw [hmembers, ← Option.some.inj hcommittee]

/-- The host names one committee. -/
theorem Moment.Names.eq {moment : Moment} {height : Height} {seed : Seed}
    {committee committee' : Committee} (h : moment.Names height seed committee)
    (h' : moment.committeeOf height seed = .ok committee'.members) : committee = committee' := by
  have hmembers := Except.ok.inj (h.committeeOf.symm.trans h')
  cases committee
  cases committee'
  subst hmembers
  rfl

namespace Controller

open Activity

/-- What a controller does when it is called. -/
def respond : Cue → Activity Unit
  | .start height => setHeight height
  | .input input => handle input
  | .late event => handleLate event

/-- The term of a height, as a controller would start it. -/
def termAt (c : Controller) (height : Height) (committee : Committee) : Term :=
  { height, seed := c.seed, committee, capabilities := c.capabilities
    viewsAhead := c.config.limits.viewsAhead }

/-- What the term of a height does first. -/
def firstStep (c : Controller) (height : Height) (committee : Committee) : Step :=
  ((c.leave height).termAt height committee).start (Progress.initial (c.leave height).log)

/-- The controller once it has started a height, before the filter follows. -/
def begun (c : Controller) (now : Nanoseconds) (height : Height) (committee : Committee) :
    Controller :=
  (c.leave height).followed now ((c.leave height).termAt height committee)
    (c.firstStep height committee)

/-- What starting a height does to the world, before the filter follows. -/
def begunBy (c : Controller) (now : Nanoseconds) (height : Height) (committee : Committee) :
    List Effect :=
  .askCommittee height (c.leave height).seed :: .report (.set .height height) ::
    (c.leave height).followedBy now ((c.leave height).termAt height committee)
      (c.firstStep height committee)

/-! ## Moves -/

/-- Something on the agenda comes to the active term: as what, what is reported of it, and
which messages are left. -/
inductive Gives (t : Term) (p : Progress) :
    Agenda → List Metric → Stimulus → List Message → Prop where
  /-- A message of the current height. -/
  | message {m : Message} {messages : List Message} :
    Gives t p (.hear (m :: messages)) [] (.message m) messages
  /-- The election of the current view is held. -/
  | trigger : Gives t p (.heed (.input .triggerElection)) [] (.event (.electionTimeout p.view)) []
  /-- A late event of the term's height. -/
  | late {event : Event} :
    Gives t p (.heed (.late ⟨t.height, event⟩)) (eventMetrics event) (.event event) []

variable (moment : Moment)

/-- Something on the agenda comes to nothing, and these messages are left. -/
inductive Skips (c : Controller) : Agenda → List Effect → List Message → Prop where
  /-- There is no term to hear a message. -/
  | message {log : MessageLog} {m : Message} {messages : List Message}
    (stage : c.stage = .idle log) : Skips c (.hear (m :: messages)) [] messages
  /-- There is no election to be held. -/
  | trigger (idle : c.view? = none) : Skips c (.heed (.input .triggerElection)) [] []
  /-- A late event is of another height. -/
  | late {late : LateEvent} (other : c.height? ≠ some late.height) :
    Skips c (.heed (.late late)) [] []
  /-- A block from the network is behind, or does not match its proof. -/
  | useless {block : Block} {proof : BlockProof} {previous : Option BlockProof}
    (useless : c.height?.any (proof.height < ·) = true ∨
      c.capabilities.matchesHash proof.height block proof.blockHash = false) :
    Skips c (.heed (.input (.sync block proof previous))) [] []
  /-- The proof of a block from the network does not hold. -/
  | unproven {block : Block} {proof : BlockProof} {previous : Option BlockProof}
    {committee : Committee}
    (names : moment.Names proof.height ((previous.map (·.nextSeed)).getD 0) committee)
    (rejects : committee.acceptsBlockProof c.capabilities.keys proof
      ((previous.map (·.nextSeed)).getD 0) = false) :
    Skips c (.heed (.input (.sync block proof previous)))
      [.askCommittee proof.height ((previous.map (·.nextSeed)).getD 0)] []

/-- One move of a call. -/
inductive Move : Controller → Agenda → List Effect → Controller → Agenda → Prop where
  /-- A call to start a height. -/
  | begin {c : Controller} {height : Height} : Move c (.heed (.start height)) [] c (.start height)
  /-- A message comes to the filter, which may let it pass. -/
  | sift {c : Controller} {m : Message} {answer : Admission.Answer}
    (offer : c.admission.offer m = .ok answer) :
    Move c (.heed (.input (.message m))) (answer.metrics.map .report)
      { c with admission := answer.admission } (.hear answer.passed.toList)
  /-- Something comes to the active term. -/
  | react {c : Controller} {t : Term} {p : Progress} {a : Agenda} {metrics : List Metric}
    {stimulus : Stimulus} {messages : List Message} {s : Step} (stage : c.stage = .running t p)
    (gives : Gives t p a metrics stimulus messages) (react : t.react p stimulus = .ok s) :
    Move c a (metrics.map .report ++ c.followedBy moment.now t s) (c.followed moment.now t s)
      (.after s.decision? messages)
  /-- Something comes to nothing. -/
  | skip {c : Controller} {a : Agenda} {es : List Effect} {messages : List Message}
    (skips : Skips moment c a es messages) : Move c a es c (.hear messages)
  /-- A block that the network committed is taken over. -/
  | adopt {c : Controller} {block : Block} {proof : BlockProof} {previous : Option BlockProof}
    {committee : Committee} (current : c.height?.any (proof.height < ·) = false)
    (fits : c.capabilities.matchesHash proof.height block proof.blockHash = true)
    (names : moment.Names proof.height ((previous.map (·.nextSeed)).getD 0) committee)
    (accepts : committee.acceptsBlockProof c.capabilities.keys proof
      ((previous.map (·.nextSeed)).getD 0) = true) :
    Move c (.heed (.input (.sync block proof previous)))
      [.askCommittee proof.height ((previous.map (·.nextSeed)).getD 0),
        .report (.count .decisionsBySync 1)]
      { c with tip := some ⟨block, proof⟩ } (.succeed proof.height)
  /-- A decision is committed. -/
  | commit {c : Controller} {d : Decision} :
    Move c (.close d) [.report (.count .decisionsByConsensus 1), .commit d]
      { c with tip := some ⟨d.block, d.proof⟩ } (.succeed d.height)
  /-- The turn is the next height's. -/
  | succeed {c : Controller} {height next : Height} (next_eq : nextHeight height = .ok next) :
    Move c (.succeed height) [] c (.start next)
  /-- A height is started, and the messages that were cached for it are released. -/
  | start {c : Controller} {height : Height} {committee : Committee}
    {release : Admission.Release} (check : c.checkStart height = .ok ())
    (names : moment.Names height (c.leave height).seed committee)
    (free : c.admission.setHeight height = .ok release) :
    Move c (.start height)
      (c.begunBy moment.now height committee ++ release.metrics.map .report)
      { c.begun moment.now height committee with admission := release.admission }
      (.hear release.released)

/-- An early end of a call. -/
inductive Halt : Controller → Agenda → List Effect → Controller → Stop → Prop where
  /-- The filter broke a promise. -/
  | sift {c : Controller} {m : Message} {fault : Fault}
    (offer : c.admission.offer m = .error fault) :
    Halt c (.heed (.input (.message m))) [] c (.broken fault)
  /-- The active term broke a promise. -/
  | react {c : Controller} {t : Term} {p : Progress} {a : Agenda} {metrics : List Metric}
    {stimulus : Stimulus} {messages : List Message} {fault : Fault}
    (stage : c.stage = .running t p) (gives : Gives t p a metrics stimulus messages)
    (react : t.react p stimulus = .error fault) :
    Halt c a (metrics.map .report) c (.broken fault)
  /-- The committee of a block from the network is not to be had. -/
  | sync {c : Controller} {block : Block} {proof : BlockProof} {previous : Option BlockProof}
    {reason : Stop}
    (asks : ((Activity.committee proof.height ((previous.map (·.nextSeed)).getD 0)).run
      moment c).result = .error reason) :
    Halt c (.heed (.input (.sync block proof previous)))
      [.askCommittee proof.height ((previous.map (·.nextSeed)).getD 0)] c reason
  /-- There is no next height. -/
  | succeed {c : Controller} {height : Height} {fault : Fault}
    (next_eq : nextHeight height = .error fault) :
    Halt c (.succeed height) [] c (.broken fault)
  /-- The height is not above that of the active term. -/
  | check {c : Controller} {height : Height} {fault : Fault}
    (check : c.checkStart height = .error fault) : Halt c (.start height) [] c (.broken fault)
  /-- The committee of the height is not to be had. -/
  | committee {c : Controller} {height : Height} {reason : Stop}
    (check : c.checkStart height = .ok ())
    (asks : ((Activity.committee height (c.leave height).seed).run moment
      (c.leave height)).result = .error reason) :
    Halt c (.start height) [.askCommittee height (c.leave height).seed] (c.leave height) reason
  /-- The filter does not follow. -/
  | filter {c : Controller} {height : Height} {committee : Committee} {fault : Fault}
    (check : c.checkStart height = .ok ())
    (names : moment.Names height (c.leave height).seed committee)
    (free : c.admission.setHeight height = .error fault) :
    Halt c (.start height) (c.begunBy moment.now height committee)
      (c.begun moment.now height committee) (.broken fault)

/-- A call from some point on: moves, until nothing is left to do or the call halts. -/
inductive Course : Controller → Agenda → Outcome Unit → Prop where
  | done {c : Controller} : Course c (.hear []) ⟨c, [], .ok ()⟩
  | halt {c c' : Controller} {a : Agenda} {es : List Effect} {reason : Stop}
    (halt : Halt moment c a es c' reason) : Course c a ⟨c', es, .error reason⟩
  | move {c c' : Controller} {a a' : Agenda} {es : List Effect} {o : Outcome Unit}
    (move : Move moment c a es c' a') (rest : Course c' a' o) :
    Course c a ⟨o.controller, es ++ o.effects, o.result⟩

variable {moment}

/-- There is no move when nothing is left to do. -/
theorem Move.not_rest {c c' : Controller} {a' : Agenda} {es : List Effect}
    (move : Move moment c (.hear []) es c' a') : False := by
  cases move with
  | react stage gives => cases gives
  | skip skips => cases skips

/-- **What every move preserves holds to the end of a call.**  The effects of the moves are
collected along the way; `tail` is what a halt does on top of them. -/
theorem Course.induct {P : List Effect → Controller → Agenda → Prop}
    (move : ∀ {es es' : List Effect} {c c' : Controller} {a a' : Agenda},
      Move moment c a es' c' a' → P es c a → P (es ++ es') c' a')
    {c : Controller} {a : Agenda} {o : Outcome Unit} (h : Course moment c a o)
    {es : List Effect} (hP : P es c a) :
    (o.result = .ok () ∧ P (es ++ o.effects) o.controller (.hear [])) ∨
      ∃ (c' : Controller) (a' : Agenda) (body tail : List Effect) (reason : Stop),
        o.result = .error reason ∧ o.effects = body ++ tail ∧ P (es ++ body) c' a' ∧
          Halt moment c' a' tail o.controller reason := by
  induction h generalizing es with
  | done =>
    left
    rw [List.append_nil]
    exact ⟨rfl, hP⟩
  | @halt c c' a tail reason hhalt =>
    right
    refine ⟨c, a, [], tail, reason, rfl, rfl, ?_, hhalt⟩
    rw [List.append_nil]
    exact hP
  | @move c c' a a' es' o hmove rest ih =>
    rcases ih (move hmove hP) with ⟨hresult, hend⟩ | ⟨c₁, a₁, body, tail, reason, hresult, heffects,
      hend, hhalt⟩
    · left
      rw [List.append_assoc] at hend
      exact ⟨hresult, hend⟩
    · right
      refine ⟨c₁, a₁, es' ++ body, tail, reason, hresult, ?_, ?_, hhalt⟩
      · show es' ++ o.effects = _
        rw [heffects, List.append_assoc]
      · rw [← List.append_assoc]
        exact hend

/-! ## Calls are courses -/

section Runs

variable {α β γ : Type} {c : Controller}

theorem run_bind_assoc (act : Activity α) (f : α → Activity β) (g : β → Activity γ)
    (c : Controller) :
    ((act >>= f) >>= g).run moment c = (act >>= fun a => f a >>= g).run moment c := by
  rcases hact : (act.run moment c).result with reason | a
  · have hfirst := run_bind_of_error hact f
    rw [run_bind_of_error (congrArg Outcome.result hfirst), hfirst, run_bind_of_error hact]
  · have hfirst := run_bind_of_ok hact f
    rw [run_bind_of_ok hact]
    rcases hf : ((f a).run moment (act.run moment c).controller).result with reason | b
    · rw [run_bind_of_error hf,
        run_bind_of_error ((congrArg Outcome.result hfirst).trans hf), hfirst]
    · rw [run_bind_of_ok hf, run_bind_of_ok ((congrArg Outcome.result hfirst).trans hf), hfirst]
      simp only [List.append_assoc]

theorem run_bind_eq {act : Activity α} {o : Outcome α} {a : α} (h : act.run moment c = o)
    (ha : o.result = .ok a) (next : α → Activity β) :
    (act >>= next).run moment c = ⟨((next a).run moment o.controller).controller,
      o.effects ++ ((next a).run moment o.controller).effects,
      ((next a).run moment o.controller).result⟩ := by
  subst h
  exact run_bind_of_ok ha next

theorem run_bind_error {act : Activity α} {c' : Controller} {es : List Effect} {reason : Stop}
    (h : act.run moment c = ⟨c', es, .error reason⟩) (next : α → Activity β) :
    (act >>= next).run moment c = ⟨c', es, .error reason⟩ := by
  have hresult : (act.run moment c).result = .error reason := congrArg Outcome.result h
  rw [run_bind_of_error hresult, h]

theorem run_look_bind (next : Controller → Activity β) :
    (look >>= next).run moment c = (next c).run moment c := rfl

theorem run_change_bind (f : Controller → Controller) (next : Unit → Activity β) :
    (change f >>= next).run moment c = (next ()).run moment (f c) := rfl

theorem run_report_bind (metrics : List Metric) (next : Unit → Activity β) :
    (report metrics >>= next).run moment c = ⟨((next ()).run moment c).controller,
      metrics.map .report ++ ((next ()).run moment c).effects,
      ((next ()).run moment c).result⟩ := rfl

theorem run_require_bind_ok (a : α) (next : α → Activity β) :
    (require (.ok a) >>= next).run moment c = (next a).run moment c := rfl

theorem run_require_bind_error (fault : Fault) (next : α → Activity β) :
    (require (.error fault) >>= next).run moment c = ⟨c, [], .error (.broken fault)⟩ := rfl

/-- A host that names a committee is asked for it. -/
theorem committee_run_of_names {height : Height} {seed : Seed} {committee : Committee}
    (names : moment.Names height seed committee) (c : Controller) :
    (Activity.committee height seed).run moment c =
      ⟨c, [.askCommittee height seed], .ok committee⟩ := by
  obtain ⟨members, hmembers, hcommittee⟩ := names
  simp only [Activity.run, Activity.committee, hmembers, hcommittee]

/-- Asking for a committee gets it or ends the call. -/
theorem committee_run (moment : Moment) (height : Height) (seed : Seed) (c : Controller) :
    (∃ committee, moment.Names height seed committee ∧
      (Activity.committee height seed).run moment c =
        ⟨c, [.askCommittee height seed], .ok committee⟩) ∨
    ∃ reason, (Activity.committee height seed).run moment c =
      ⟨c, [.askCommittee height seed], .error reason⟩ := by
  rcases hmembers : moment.committeeOf height seed with error | members
  · right
    refine ⟨.failed error, ?_⟩
    simp only [Activity.run, Activity.committee, hmembers]
  · rcases hcommittee : Committee.ofList? members with _ | committee
    · right
      refine ⟨.broken (.emptyCommitteeOf height), ?_⟩
      simp only [Activity.run, Activity.committee, hmembers, hcommittee]
    · have hnames : moment.Names height seed committee := ⟨members, hmembers, hcommittee⟩
      exact Or.inl ⟨committee, hnames, committee_run_of_names hnames c⟩

theorem admission_followed (c : Controller) (now : Nanoseconds) (t : Term) (s : Step) :
    (c.followed now t s).admission = c.admission :=
  (resembles_obeyAll (c.adopting t s.progress) s.requests).admission

/-- Giving the active term something, and going on with what it decides. -/
theorem course_follow {t : Term} {p : Progress} {stimulus : Stimulus} {a : Agenda}
    {metrics : List Metric} {messages : List Message} {next : Option Decision → Activity Unit}
    (stage : c.stage = .running t p) (gives : Gives t p a metrics stimulus messages)
    (rest : ∀ s, Course moment (c.followed moment.now t s)
      (.after s.decision? messages) ((next s.decision?).run moment (c.followed moment.now t s))) :
    Course moment c a ⟨((follow t (t.react p stimulus) >>= next).run moment c).controller,
      metrics.map .report ++ ((follow t (t.react p stimulus) >>= next).run moment c).effects,
      ((follow t (t.react p stimulus) >>= next).run moment c).result⟩ := by
  rcases hreact : t.react p stimulus with fault | s
  · rw [run_bind_error (follow_run_error moment c t fault), List.append_nil]
    exact .halt (.react stage gives hreact)
  · have hrun := follow_run moment c t (Term.length_decisionsIn_of_react hreact)
    rw [run_bind_eq hrun rfl, ← List.append_assoc]
    exact .move (.react stage gives hreact) (rest s)

/-- Giving the active term a message, and going on with what it decides. -/
theorem course_pass {m : Message} {messages : List Message}
    {next : Option Decision → Activity Unit} {c : Controller}
    (rest : ∀ c' decided, c'.admission = c.admission →
      Course moment c' (.after decided messages) ((next decided).run moment c')) :
    Course moment c (.hear (m :: messages)) ((pass m >>= next).run moment c) := by
  rw [pass, run_bind_assoc, run_look_bind]
  rcases hstage : c.stage with log | ⟨t, p⟩
  · exact .move (.skip (.message hstage)) (rest c none rfl)
  · exact course_follow hstage .message fun s => rest _ _ (admission_followed _ _ _ _)

/-- Replaying messages, and going on with what was decided. -/
theorem course_replay {next : Option Decision → Activity Unit} (messages : List Message)
    {decided : Option Decision} {c : Controller}
    (rest : ∀ c' decided', c'.admission = c.admission →
      (decided'.isSome = true → decided.isSome = true ∨ messages ≠ []) →
        Course moment c' (.after decided' []) ((next decided').run moment c')) :
    Course moment c (.after decided messages)
      ((replay decided messages >>= next).run moment c) := by
  induction messages generalizing decided c with
  | nil =>
    rcases decided with _ | d
    · exact rest c none rfl fun h => absurd h (by simp)
    · exact rest c (some d) rfl fun _ => Or.inl rfl
  | cons m messages ih =>
    rcases decided with _ | d
    · rw [replay, run_bind_assoc]
      refine course_pass fun c' decided hadmission => ih fun c'' decided' hadmission' _ => ?_
      exact rest c'' decided' (hadmission'.trans hadmission) fun _ => Or.inr (List.cons_ne_nil _ _)
    · exact rest c (some d) rfl fun _ => Or.inl rfl

/-- The first part of starting a height: the height before is given up, and the term comes to
its first requests. -/
def raise (height : Height) : Activity (Option Decision) := do
  require ((← look).checkStart height)
  change fun c => c.leave height
  let c ← look
  let committee ← committee height c.seed
  report [.set .height height]
  follow (c.termAt height committee)
    (.ok ((c.termAt height committee).start (Progress.initial c.log)))

/-- The second part: the filter follows, and what was cached is replayed. -/
def release (height : Height) (decided : Option Decision) : Activity (Option Decision) := do
  let release ← require ((← look).admission.setHeight height)
  change fun c => { c with admission := release.admission }
  report release.metrics
  replay decided release.released

theorem bind_assoc (act : Activity α) (f : α → Activity β) (g : β → Activity γ) :
    (act >>= f) >>= g = act >>= fun a => f a >>= g :=
  funext fun _ => funext fun c => run_bind_assoc act f g c

theorem startHeight_eq (height : Height) : startHeight height = raise height >>= release height := by
  simp only [startHeight, raise, bind_assoc]
  rfl

/-- The first part comes to the term, and decides nothing. -/
theorem raise_run {height : Height} {committee : Committee}
    (check : c.checkStart height = .ok ())
    (asks : (Activity.committee height (c.leave height).seed).run moment (c.leave height) =
      ⟨c.leave height, [.askCommittee height (c.leave height).seed], .ok committee⟩) :
    (raise height).run moment c =
      ⟨c.begun moment.now height committee, c.begunBy moment.now height committee, .ok none⟩ := by
  have hrun : (follow ((c.leave height).termAt height committee)
      (.ok (c.firstStep height committee))).run moment (c.leave height) =
        ⟨c.begun moment.now height committee,
          (c.leave height).followedBy moment.now ((c.leave height).termAt height committee)
            (c.firstStep height committee), .ok none⟩ := by
    have hnone : decisionsIn (c.firstStep height committee).requests = [] :=
      Term.decisionsIn_start _ _
    rw [follow_run moment _ _ (by rw [hnone]; exact Nat.zero_le 1), Step.decision?, hnone]
    rfl
  rw [firstStep] at hrun
  rw [raise, run_look_bind, check, run_require_bind_ok, run_change_bind, run_look_bind,
    run_bind_eq asks rfl, run_report_bind, hrun]
  rfl

/-- Starting a height comes to its term, and then the filter follows. -/
theorem startHeight_run {height : Height} {committee : Committee} {c : Controller}
    (check : c.checkStart height = .ok ())
    (asks : (Activity.committee height (c.leave height).seed).run moment (c.leave height) =
      ⟨c.leave height, [.askCommittee height (c.leave height).seed], .ok committee⟩)
    {next : Option Decision → Activity Unit} {o : Outcome Unit}
    (rest : (require (c.admission.setHeight height) >>= fun release =>
      change (fun c => { c with admission := release.admission }) >>= fun _ =>
        report release.metrics >>= fun _ => replay none release.released >>= next).run moment
          (c.begun moment.now height committee) = o) :
    (startHeight height >>= next).run moment c =
      ⟨o.controller, c.begunBy moment.now height committee ++ o.effects, o.result⟩ := by
  have hadmission : (c.begun moment.now height committee).admission = c.admission :=
    admission_followed _ _ _ _
  have hrelease : (release height none >>= next).run moment (c.begun moment.now height committee) =
      o := by
    rw [← rest, release, run_bind_assoc, run_look_bind, hadmission]
    simp only [bind_assoc]
  rw [startHeight_eq, run_bind_assoc, run_bind_eq (raise_run check asks) rfl, hrelease]

/-- Starting a height without a committee gives up the height before, and no more. -/
theorem startHeight_run_error {height : Height} {reason : Stop} {c : Controller}
    (check : c.checkStart height = .ok ())
    (asks : (Activity.committee height (c.leave height).seed).run moment (c.leave height) =
      ⟨c.leave height, [.askCommittee height (c.leave height).seed], .error reason⟩)
    (next : Option Decision → Activity Unit) :
    (startHeight height >>= next).run moment c =
      ⟨c.leave height, [.askCommittee height (c.leave height).seed], .error reason⟩ := by
  rw [startHeight, run_bind_assoc, run_look_bind, run_bind_assoc, check, run_require_bind_ok,
    run_bind_assoc, run_change_bind, run_bind_assoc, run_look_bind, run_bind_assoc,
    run_bind_error asks]

/-- Starting a height, and going on with what was decided.  A height that decides when it is
started has taken a message out of the cache. -/
theorem course_startHeight {next : Option Decision → Activity Unit} {height : Height}
    {c : Controller}
    (rest : ∀ c' decided', c'.admission.cachedCount ≤ c.admission.cachedCount →
      (decided'.isSome = true → c'.admission.cachedCount < c.admission.cachedCount) →
        Course moment c' (.after decided' []) ((next decided').run moment c')) :
    Course moment c (.start height) ((startHeight height >>= next).run moment c) := by
  rcases hcheck : c.checkStart height with fault | _
  · rw [startHeight, run_bind_assoc, run_look_bind, run_bind_assoc, hcheck,
      run_require_bind_error]
    exact .halt (.check hcheck)
  rcases committee_run moment height (c.leave height).seed (c.leave height) with
    ⟨committee, names, hasks⟩ | ⟨reason, hasks⟩
  · rcases hfree : c.admission.setHeight height with fault | release
    · rw [startHeight_run hcheck hasks (by rw [hfree, run_require_bind_error]), List.append_nil]
      exact .halt (.filter hcheck names hfree)
    · have hcount := Admission.cachedCount_of_setHeight hfree
      rw [startHeight_run hcheck hasks (by rw [hfree, run_require_bind_ok, run_change_bind,
        run_report_bind]), ← List.append_assoc]
      have hreplay : Course moment
          { c.begun moment.now height committee with admission := release.admission }
          (.after none release.released) ((replay none release.released >>= next).run moment
            { c.begun moment.now height committee with admission := release.admission }) := by
        refine course_replay release.released fun c' decided' hsame hmessages =>
          rest c' decided' ?_ fun hdecided => ?_
        · rw [hsame]
          show release.admission.cachedCount ≤ _
          omega
        · have hpos : 0 < release.released.length := by
            rcases hmessages hdecided with h | h
            · exact absurd h (by simp)
            · exact List.length_pos_iff.2 h
          rw [hsame]
          show release.admission.cachedCount < _
          omega
      exact .move (.start hcheck names hfree) hreplay
  · rw [startHeight_run_error hcheck hasks]
    exact .halt (.committee hcheck (congrArg Outcome.result hasks))

/-- Committing a decision, and going on at the next height. -/
theorem course_commit {next : Height → Activity Unit} {d : Decision} {c : Controller}
    (rest : ∀ height, Course moment { c with tip := some ⟨d.block, d.proof⟩ } (.start height)
      ((next height).run moment { c with tip := some ⟨d.block, d.proof⟩ })) :
    Course moment c (.close d)
      ((commit d >>= fun _ => require (nextHeight d.height) >>= next).run moment c) := by
  refine .move .commit ?_
  rcases hnext : nextHeight d.height with fault | height
  · exact .halt (.succeed hnext)
  · exact .move (.succeed hnext) (rest height)

/-- Going from height to height takes as many rounds as there are cached messages at most. -/
theorem course_moveOn (rounds : Nat) {decided : Option Decision} {c : Controller}
    (enough : c.admission.cachedCount ≤ rounds) :
    Course moment c (.after decided []) ((moveOn rounds decided).run moment c) := by
  induction rounds generalizing decided c with
  | zero =>
    rcases decided with _ | d
    · exact .done
    · refine course_commit fun next => course_startHeight fun c' decided' _ hless => ?_
      rcases decided' with _ | d'
      · exact .done
      · have hfewer : c'.admission.cachedCount < c.admission.cachedCount := hless rfl
        omega
  | succ rounds ih =>
    rcases decided with _ | d
    · exact .done
    · refine course_commit fun next => course_startHeight fun c' decided' _ hless => ?_
      rcases decided' with _ | d'
      · rw [moveOn]
        exact .done
      · have hfewer : c'.admission.cachedCount < c.admission.cachedCount := hless rfl
        exact ih (by omega)

theorem course_settle {decided : Option Decision} {c : Controller} :
    Course moment c (.after decided []) ((settle decided).run moment c) := by
  rw [settle, run_look_bind]
  exact course_moveOn _ (Nat.le_succ _)

/-- Starting a height, and going on from there. -/
theorem course_setHeight {height : Height} {c : Controller} :
    Course moment c (.start height) ((setHeight height).run moment c) := by
  rw [setHeight]
  exact course_startHeight fun _ _ _ _ => course_settle

/-- Giving the active term an event. -/
theorem course_handleEvent {t : Term} {p : Progress} {event : Event} {a : Agenda}
    {metrics : List Metric} (stage : c.stage = .running t p)
    (gives : Gives t p a metrics (.event event) []) :
    Course moment c a ⟨((handleEvent event).run moment c).controller,
      metrics.map .report ++ ((handleEvent event).run moment c).effects,
      ((handleEvent event).run moment c).result⟩ := by
  rw [handleEvent, run_look_bind, stage]
  exact course_follow stage gives fun s => course_settle

section Sync

variable {block : Block} {proof : BlockProof} {previous : Option BlockProof}

/-- A block from the network that is behind, or does not match its proof, is ignored. -/
theorem sync_run_of_useless (useless : c.height?.any (proof.height < ·) = true ∨
    c.capabilities.matchesHash proof.height block proof.blockHash = false) :
    (sync block proof previous).run moment c = ⟨c, [], .ok ()⟩ := by
  rw [sync, run_look_bind]
  by_cases hpast : c.height?.any (proof.height < ·) = true
  · rw [if_pos hpast]
    rfl
  · rw [if_neg hpast, if_pos (by simp [useless.resolve_left hpast])]
    rfl

/-- For any other block the host is asked for a committee. -/
theorem sync_run_of_stop {reason : Stop} (current : c.height?.any (proof.height < ·) = false)
    (fits : c.capabilities.matchesHash proof.height block proof.blockHash = true)
    (asks : (Activity.committee proof.height ((previous.map (·.nextSeed)).getD 0)).run moment c =
      ⟨c, [.askCommittee proof.height ((previous.map (·.nextSeed)).getD 0)], .error reason⟩) :
    (sync block proof previous).run moment c =
      ⟨c, [.askCommittee proof.height ((previous.map (·.nextSeed)).getD 0)], .error reason⟩ := by
  rw [sync, run_look_bind, if_neg (by simp [current]), if_neg (by simp [fits])]
  exact run_bind_error asks _

/-- A block that its committee does not accept is ignored. -/
theorem sync_run_of_rejects {committee : Committee}
    (current : c.height?.any (proof.height < ·) = false)
    (fits : c.capabilities.matchesHash proof.height block proof.blockHash = true)
    (names : moment.Names proof.height ((previous.map (·.nextSeed)).getD 0) committee)
    (rejects : committee.acceptsBlockProof c.capabilities.keys proof
      ((previous.map (·.nextSeed)).getD 0) = false) :
    (sync block proof previous).run moment c =
      ⟨c, [.askCommittee proof.height ((previous.map (·.nextSeed)).getD 0)], .ok ()⟩ := by
  rw [sync, run_look_bind, if_neg (by simp [current]), if_neg (by simp [fits]),
    run_bind_eq (committee_run_of_names names c) rfl, if_pos (by simp [rejects])]
  rfl

/-- A block that its committee accepts is taken over, and the height above is started. -/
theorem sync_run_of_accepts {committee : Committee}
    (current : c.height?.any (proof.height < ·) = false)
    (fits : c.capabilities.matchesHash proof.height block proof.blockHash = true)
    (names : moment.Names proof.height ((previous.map (·.nextSeed)).getD 0) committee)
    (accepts : committee.acceptsBlockProof c.capabilities.keys proof
      ((previous.map (·.nextSeed)).getD 0) = true) :
    (sync block proof previous).run moment c =
      let next := (require (nextHeight proof.height) >>= setHeight).run moment
        { c with tip := some ⟨block, proof⟩ }
      ⟨next.controller, [.askCommittee proof.height ((previous.map (·.nextSeed)).getD 0),
        .report (.count .decisionsBySync 1)] ++ next.effects, next.result⟩ := by
  rw [sync, run_look_bind, if_neg (by simp [current]), if_neg (by simp [fits]),
    run_bind_eq (committee_run_of_names names c) rfl, if_neg (by simp [accepts])]
  rfl

/-- Taking over a block that the network committed. -/
theorem course_sync :
    Course moment c (.heed (.input (.sync block proof previous)))
      ((sync block proof previous).run moment c) := by
  rcases hcurrent : c.height?.any (proof.height < ·) with _ | _
  swap
  · rw [sync_run_of_useless (Or.inl hcurrent)]
    exact .move (.skip (.useless (Or.inl hcurrent))) .done
  rcases hfits : c.capabilities.matchesHash proof.height block proof.blockHash with _ | _
  · rw [sync_run_of_useless (Or.inr hfits)]
    exact .move (.skip (.useless (Or.inr hfits))) .done
  rcases committee_run moment proof.height ((previous.map (·.nextSeed)).getD 0) c with
    ⟨committee, names, -⟩ | ⟨reason, hasks⟩
  · rcases haccepts : committee.acceptsBlockProof c.capabilities.keys proof
      ((previous.map (·.nextSeed)).getD 0) with _ | _
    · rw [sync_run_of_rejects hcurrent hfits names haccepts]
      exact .move (.skip (.unproven names haccepts)) .done
    · have hsucceed : Course moment { c with tip := some ⟨block, proof⟩ } (.succeed proof.height)
          ((require (nextHeight proof.height) >>= setHeight).run moment
            { c with tip := some ⟨block, proof⟩ }) := by
        rcases hnext : nextHeight proof.height with fault | next
        · exact .halt (.succeed hnext)
        · exact .move (.succeed hnext) course_setHeight
      rw [sync_run_of_accepts hcurrent hfits names haccepts]
      exact .move (.adopt hcurrent hfits names haccepts) hsucceed
  · rw [sync_run_of_stop hcurrent hfits hasks]
    exact .halt (.sync (congrArg Outcome.result hasks))

end Sync

/-- Calling for an election. -/
theorem course_triggerElection :
    Course moment c (.heed (.input .triggerElection)) (triggerElection.run moment c) := by
  rw [triggerElection, run_look_bind]
  rcases hstage : c.stage with log | ⟨t, p⟩
  · have hidle : c.view? = none := by
      rw [view?, progress?, hstage]
      rfl
    rw [hidle]
    exact .move (.skip (.trigger hidle)) .done
  · have hview : c.view? = some p.view := by
      rw [view?, progress?, hstage]
      rfl
    rw [hview]
    exact course_handleEvent hstage .trigger

/-- Handling a late event. -/
theorem course_handleLate {late : LateEvent} :
    Course moment c (.heed (.late late)) ((handleLate late).run moment c) := by
  rw [handleLate, run_look_bind]
  by_cases hcurrent : c.height? = some late.height
  · rw [if_pos hcurrent, run_report_bind]
    rcases hstage : c.stage with log | ⟨t, p⟩
    · rw [height?, hstage] at hcurrent
      exact absurd hcurrent (by simp)
    · obtain ⟨height, event⟩ := late
      have hheight : t.height = height := by
        rw [height?, hstage] at hcurrent
        exact Option.some.inj hcurrent
      subst hheight
      exact course_handleEvent hstage .late
  · rw [if_neg hcurrent]
    exact .move (.skip (.late hcurrent)) .done

/-- **Every call is a course of moves.** -/
theorem course_respond (moment : Moment) (c : Controller) (cue : Cue) :
    Course moment c (.heed cue) ((respond cue).run moment c) := by
  match cue with
  | .start height => exact .move .begin course_setHeight
  | .input (.message m) =>
    show Course moment c _ ((receive m).run moment c)
    rw [receive, run_look_bind]
    rcases hoffer : c.admission.offer m with fault | answer
    · rw [run_require_bind_error]
      exact .halt (.sift hoffer)
    · rw [run_require_bind_ok, run_change_bind, run_report_bind]
      refine .move (.sift hoffer) ?_
      rcases answer.passed with _ | m'
      · exact .done
      · exact course_pass fun c' decided _ => course_settle
  | .input (.sync block proof previous) => exact course_sync
  | .input .triggerElection => exact course_triggerElection
  | .late late => exact course_handleLate

end Runs

end Controller

end CommitteeConsensus
