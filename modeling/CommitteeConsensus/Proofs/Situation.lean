import CommitteeConsensus.Proofs.Decisions
import CommitteeConsensus.Proofs.Lives

/-!
# What a controller keeps in step

A controller advances from height to height by three ways, and each has to update the tip,
the term, the filter and the timer together.  `Situation` says what "together" means, in the
middle of a call as well: what is on the agenda says which of them are ahead of the others.
Every move keeps it, and so does everything that happens between calls.

A situation names the past of the active term.  It is a run of a term that was started on an
empty log (`Situation.run`): nothing comes to a term but what its caller may give it, and the
log that it takes over holds nothing, because all that was filed before is of lower heights.
So whatever was shown of runs of a term holds of the terms of a controller.
-/

namespace CommitteeConsensus

namespace Term

variable {t : Term} {past : Past}

/-- A log that was filled by one term is of one height. -/
theorem Run.clearBelow (h : t.Run past) {height : Height} (lt : t.height < height) :
    past.progress.log.clearBelow height = .empty := by
  have htrusts : t.Trusts ⟨fun _ => True, fun _ _ => True, fun _ _ => True⟩ past :=
    ⟨fun _ _ _ _ _ _ => trivial, fun _ _ => trivial, fun _ _ _ => trivial, trivial,
      fun _ _ _ _ _ _ => trivial, fun _ _ _ _ => trivial⟩
  have hsound := (h.trace.sound htrusts).1
  have hbelow : ∀ h, h = t.height → ¬height ≤ h := fun h heq => Nat.not_le_of_lt (heq ▸ lt)
  have hproposals : past.progress.log.prePrepares.filter (fun m => height ≤ m.height) = [] :=
    List.filter_eq_nil_iff.2 fun m hm => by
      simpa using hbelow m.height (hsound.proposals m hm).proposed.height_eq
  have hprepares : past.progress.log.prepares.filter (fun s => height ≤ s.content.height) = [] :=
    List.filter_eq_nil_iff.2 fun s hs => by
      simpa using hbelow s.content.height (hsound.prepares s hs).height_eq
  have hcommits : past.progress.log.commits.filter (fun s => height ≤ s.content.height) = [] :=
    List.filter_eq_nil_iff.2 fun s hs => by
      simpa using hbelow s.content.height (hsound.commits s hs).height_eq
  have hviewChanges : past.progress.log.viewChanges.filter (fun m => height ≤ m.height) = [] :=
    List.filter_eq_nil_iff.2 fun m hm => by
      simpa using hbelow m.height (hsound.viewChanges m hm).1.height_eq
  rw [MessageLog.clearBelow, MessageLog.restrict, hproposals, hprepares, hcommits, hviewChanges]
  rfl

/-- What a caller may do, it may do later as well. -/
theorem Permits.mono {stimulus : Stimulus} (h : t.Permits past stimulus) {later : Past}
    (requests : past.requests ⊆ later.requests) : t.Permits later stimulus := by
  rcases stimulus with _ | m | e
  · trivial
  · exact h
  · cases e <;> first | trivial | exact requests h

end Term

theorem eq_succ_of_nextHeight {height next : Height} (h : nextHeight height = .ok next) :
    next = height + 1 := by
  rw [nextHeight] at h
  split at h
  · next hsome =>
    obtain ⟨-, hsucc⟩ := nextHeight?_eq_some.1 hsome
    rw [← Except.ok.inj h, hsucc]
  · exact absurd h (by simp)

/-! ## What fits together -/

/-- The last block is of this height, and as promised. -/
def Controller.TipOf (promise : Promise) (c : Controller) (height : Height) : Prop :=
  ∃ tip, c.tip = some tip ∧ tip.proof.height = height ∧
    promise.proposal height tip.block tip.proof.blockHash

/-- A term builds on the last block: there is none yet, or it is the one right below. -/
def Controller.Linked (promise : Promise) (first : Height) (c : Controller) (t : Term) : Prop :=
  (c.tip = none ∧ t.height = first ∧ t.seed = 0) ∨
    ∃ tip, c.tip = some tip ∧ tip.proof.height + 1 = t.height ∧
      promise.proposal tip.proof.height tip.block tip.proof.blockHash ∧
        t.seed = tip.proof.nextSeed

/-- The active term is open, and all else is in step with it. -/
structure Controller.AtWork (promise : Promise) (first : Height) (c : Controller) (t : Term)
    (past : Past) : Prop where
  current : c.admission.height = t.height
  live : past.progress.phase ≠ .committed
  linked : c.Linked promise first t

/-- A late event that comes to the term, if it is of its height. -/
structure LateEvent.Due (promise : Promise) (t : Term) (past : Past) (e : LateEvent) : Prop where
  le : e.height ≤ t.height
  keeps : promise.Keeps e.height (.event e.event)
  permits : e.height = t.height → t.Permits past (.event e.event)

/-- A task that the term asked for, if it is of its height. -/
structure Task.Due (t : Term) (past : Past) (task : Task) : Prop where
  le : task.height ≤ t.height
  asked : task.height = t.height → Controller.Work.request task.work ∈ past.requests

/-- What is on the agenda fits the active term. -/
def Agenda.Fits (promise : Promise) (first : Height) (c : Controller) (t : Term) (past : Past) :
    Agenda → Prop
  | .heed (.input (.message m)) => c.AtWork promise first t past ∧ promise.message m
  | .heed (.input (.sync _ proof _)) => c.AtWork promise first t past ∧ promise.proof proof
  | .heed (.input .triggerElection) => c.AtWork promise first t past
  | .heed (.late late) => c.AtWork promise first t past ∧ late.Due promise t past
  | .heed (.start _) => False
  | .hear messages => c.AtWork promise first t past ∧
      ∀ m ∈ messages, t.Permits past (.message m) ∧ promise.message m
  | .close d => .decide d ∈ past.requests
  | .succeed height => t.height ≤ height ∧ c.TipOf promise height
  | .start height => ∃ below, height = below + 1 ∧ t.height ≤ below ∧ c.TipOf promise below

/-- What is cached was given to the member, by others, and under the height it claims. -/
def Controller.CachesWell (promise : Promise) (c : Controller) : Prop :=
  c.admission.me = c.me ∧
    ∀ height m, c.admission.Holds height m → m.height = height ∧ m.sender ≠ c.me ∧
      promise.message m

/-- **Where a controller stands**, with this on its agenda, while the host works on these
tasks and these events wait. -/
structure Situation (promise : Promise) (first : Height) (c : Controller) (a : Agenda)
    (tasks : List Task) (events : List LateEvent) (t : Term) (past : Past) : Prop where
  stage : c.stage = .running t past.progress
  capabilities : t.capabilities = c.capabilities
  checks : ∀ height block hash, c.capabilities.matchesHash height block hash = true →
    promise.proposal height block hash
  run : t.Run past
  kept : ∀ stimulus ∈ past.taken, promise.Keeps t.height stimulus
  caches : c.CachesWell promise
  timer : ∀ armed, c.timer.armed = some armed → armed.note ≤ t.height
  tasks : ∀ task ∈ tasks, task.Due t past
  events : ∀ e ∈ events, e.Due promise t past
  fits : a.Fits promise first c t past

/-- A height may be started: nothing of it is there yet, and the last block is the one right
below, if this is not the first height. -/
structure Ready (promise : Promise) (first : Height) (c : Controller) (height : Height)
    (tasks : List Task) (events : List LateEvent) : Prop where
  log : c.log.clearBelow height = .empty
  checks : ∀ height block hash, c.capabilities.matchesHash height block hash = true →
    promise.proposal height block hash
  caches : c.CachesWell promise
  tasks : ∀ task ∈ tasks, task.height < height
  events : ∀ e ∈ events, e.height < height ∧ promise.Keeps e.height (.event e.event)
  tip : c.tip = none ∧ height = first ∨ ∃ below, height = below + 1 ∧ c.TipOf promise below

namespace Controller

variable {promise : Promise} {first : Height} {c : Controller} {t : Term} {past : Past}

/-! ## What moves leave alone -/

theorem Linked.congr (h : c.Linked promise first t) {c' : Controller} (tip : c'.tip = c.tip) :
    c'.Linked promise first t := by
  rw [Linked, tip]
  exact h

theorem AtWork.congr (h : c.AtWork promise first t past) {c' : Controller} (tip : c'.tip = c.tip)
    (height : c'.admission.height = c.admission.height) {later : Past}
    (live : later.progress.phase ≠ .committed) : c'.AtWork promise first t later :=
  ⟨height.trans h.current, live, h.linked.congr tip⟩

/-- Requests arm the timer for the height of their term, if at all. -/
theorem note_obeyAll {now : Nanoseconds} {height bound : Height} (le : height ≤ bound)
    (rs : List Request) (h : ∀ armed, c.timer.armed = some armed → armed.note ≤ bound) :
    ∀ armed, (c.obeyAll now height rs).timer.armed = some armed → armed.note ≤ bound := by
  induction rs generalizing c with
  | nil => exact h
  | cons r rs ih =>
    refine ih fun armed harmed => ?_
    cases r with
    | send | decide => exact h armed harmed
    | cancelElection => exact absurd harmed (by simp [obey, ElectionTimer.disarm])
    | scheduleElection view =>
      rw [obey, ElectionTimer.arm] at harmed
      split at harmed
      · exact h armed harmed
      · obtain rfl := Option.some.inj harmed
        exact le
    | buildProposal view =>
      refine h armed ?_
      rwa [← timer_reach c view]
    | validateProposal m =>
      refine h armed ?_
      rwa [← timer_reach c m.view]

/-- Work that a term asked for is of its height. -/
theorem mem_launchedIn_followedBy {now : Nanoseconds} {s : Step} {task : Task}
    (h : task ∈ launchedIn (c.followedBy now t s)) :
    task.height = t.height ∧ Work.request task.work ∈ s.requests := by
  rw [followedBy, launchedIn_append, launchedIn_reports, List.nil_append, mem_launchedIn] at h
  exact launch_mem_emitAll h

end Controller

open Controller

variable {promise : Promise} {first : Height} {c : Controller} {a : Agenda} {tasks : List Task}
  {events : List LateEvent} {t : Term} {past : Past}

theorem LateEvent.Due.mono {e : LateEvent} (h : e.Due promise t past) {later : Past}
    (requests : past.requests ⊆ later.requests) : e.Due promise t later :=
  ⟨h.le, h.keeps, fun heq => (h.permits heq).mono requests⟩

theorem Task.Due.mono {task : Task} (h : task.Due t past) {later : Past}
    (requests : past.requests ⊆ later.requests) : task.Due t later :=
  ⟨h.le, fun heq => requests (h.asked heq)⟩

/-- The event that a task comes to is due if the task was. -/
theorem Task.Due.conclude {task : Task} {answer : Answer} (h : task.Due t past)
    (kept : promise.Keeps task.height (.event (task.conclude answer).1.event)) :
    (task.conclude answer).1.Due promise t past := by
  obtain ⟨number, height, scope, previous, work⟩ := task
  cases work <;> cases answer <;>
    first | exact ⟨h.le, kept, fun heq => h.asked heq⟩ | exact ⟨h.le, kept, fun _ => trivial⟩

/-! ## From one promise to another -/

/-- Whatever is as one promise says is as another says. -/
structure Promise.Implies (promise promise' : Promise) : Prop where
  message : ∀ m, promise.message m → promise'.message m
  proposal : ∀ height block hash,
    promise.proposal height block hash → promise'.proposal height block hash
  proof : ∀ proof, promise.proof proof → promise'.proof proof

section Imp

variable {promise' : Promise} (implies : promise.Implies promise')

include implies

theorem Promise.Keeps.imp {height : Height} {stimulus : Stimulus}
    (h : promise.Keeps height stimulus) : promise'.Keeps height stimulus := by
  rcases stimulus with _ | m | view | ⟨view, _ | ⟨block, hash⟩⟩ | ⟨m, valid⟩
  · trivial
  · exact implies.message m h
  · trivial
  · trivial
  · exact implies.proposal height block hash h
  · trivial

theorem Controller.TipOf.imp {height : Height} (h : c.TipOf promise height) :
    c.TipOf promise' height := by
  obtain ⟨tip, htip, hheight, hpromised⟩ := h
  exact ⟨tip, htip, hheight, implies.proposal _ _ _ hpromised⟩

theorem Controller.AtWork.imp (h : c.AtWork promise first t past) :
    c.AtWork promise' first t past := by
  refine ⟨h.current, h.live, h.linked.imp_right fun ⟨tip, htip, hbelow, hpromised, hseed⟩ => ?_⟩
  exact ⟨tip, htip, hbelow, implies.proposal _ _ _ hpromised, hseed⟩

theorem LateEvent.Due.imp {e : LateEvent} (h : e.Due promise t past) : e.Due promise' t past :=
  ⟨h.le, h.keeps.imp implies, h.permits⟩

theorem Agenda.Fits.imp (h : a.Fits promise first c t past) : a.Fits promise' first c t past := by
  rcases a with (_ | m | e) | messages | d | height | height
  · exact h
  · rcases m with m | ⟨block, proof, previous⟩ | _
    · exact ⟨h.1.imp implies, implies.message m h.2⟩
    · exact ⟨h.1.imp implies, implies.proof proof h.2⟩
    · exact Controller.AtWork.imp implies h
  · exact ⟨h.1.imp implies, h.2.imp implies⟩
  · exact ⟨h.1.imp implies, fun m hm => ⟨(h.2 m hm).1, implies.message m (h.2 m hm).2⟩⟩
  · exact h
  · exact ⟨h.1, h.2.imp implies⟩
  · obtain ⟨below, hbelow, hle, htip⟩ := h
    exact ⟨below, hbelow, hle, htip.imp implies⟩

/-- Where a controller stands under a promise, it stands under a weaker one. -/
theorem Situation.imp (h : Situation promise first c a tasks events t past) :
    Situation promise' first c a tasks events t past where
  stage := h.stage
  capabilities := h.capabilities
  checks height block hash hmatches :=
    implies.proposal height block hash (h.checks height block hash hmatches)
  run := h.run
  kept stimulus hs := (h.kept stimulus hs).imp implies
  caches := ⟨h.caches.1, fun height m hm =>
    ⟨(h.caches.2 height m hm).1, (h.caches.2 height m hm).2.1,
      implies.message m (h.caches.2 height m hm).2.2⟩⟩
  timer := h.timer
  tasks := h.tasks
  events e he := (h.events e he).imp implies
  fits := h.fits.imp implies

end Imp

namespace Situation

/-- With the same on the agenda, and no more to wait for. -/
theorem congr (h : Situation promise first c a tasks events t past) {a' : Agenda}
    {tasks' : List Task} {events' : List LateEvent} (hfits : a'.Fits promise first c t past)
    (htasks : ∀ task ∈ tasks', task.Due t past) (hevents : ∀ e ∈ events', e.Due promise t past) :
    Situation promise first c a' tasks' events' t past :=
  { h with fits := hfits, tasks := htasks, events := hevents }

/-- Anyone who decides has a certificate that holds the height together. -/
theorem certifies (h : Situation promise first c a tasks events t past) {d : Decision}
    (hd : .decide d ∈ past.requests) :
    d.height = t.height ∧ d.proof.height = t.height ∧
      promise.proposal t.height d.block d.proof.blockHash := by
  have htrusts : t.Trusts ⟨fun _ => True, fun _ _ => True, promise.proposal t.height⟩ past :=
    ⟨fun _ _ _ _ _ _ => trivial, fun _ _ => trivial, fun _ _ _ => trivial, trivial,
      fun _ _ _ _ _ hfits => h.checks _ _ _ (h.capabilities ▸ hfits.2),
      fun _ _ _ hbuilt => h.kept _ hbuilt⟩
  have hcertifies := h.run.trace.certifies htrusts hd
  exact ⟨hcertifies.height, hcertifies.proofHeight, hcertifies.fits⟩

/-! ## Moves -/

variable {moment : Moment}

/-- A message passes the filter, or is cached, or is dropped. -/
theorem sift {m : Message} {answer : Admission.Answer}
    (h : Situation promise first c (.heed (.input (.message m))) tasks events t past)
    (offer : c.admission.offer m = .ok answer) :
    Situation promise first { c with admission := answer.admission } (.hear answer.passed.toList)
      tasks events t past := by
  obtain ⟨hwork, hpromised⟩ := h.fits
  obtain ⟨hme, hcached⟩ := h.caches
  have hoffered := Admission.offered_of_offer offer
  have hkeys : t.me = c.me := congrArg (·.keys.me) h.capabilities
  refine { h with caches := ⟨hoffered.me.trans hme, fun height m' hm' => ?_⟩, fits := ⟨?_, ?_⟩ }
  · rcases hoffered.holds height m' hm' with hold | ⟨rfl, rfl, hother⟩
    · exact hcached height m' hold
    · rw [hme] at hother
      exact ⟨rfl, hother, hpromised⟩
  · have htip : { c with admission := answer.admission }.tip = c.tip := rfl
    exact hwork.congr htip hoffered.height hwork.live
  · intro m' hm'
    obtain ⟨rfl, hheight, hother⟩ := hoffered.passed m' (Option.mem_toList.1 hm')
    rw [hme, ← hkeys] at hother
    exact ⟨⟨hheight.trans hwork.current, hother⟩, hpromised⟩

/-- What comes to the term may be given to it, and the term is open. -/
theorem due (h : Situation promise first c a tasks events t past) {metrics : List Metric}
    {stimulus : Stimulus} {messages : List Message}
    (gives : Gives t past.progress a metrics stimulus messages) :
    (t.Permits past stimulus ∧ promise.Keeps t.height stimulus) ∧ c.AtWork promise first t past ∧
      ∀ m ∈ messages, t.Permits past (.message m) ∧ promise.message m := by
  have hfits := h.fits
  cases gives with
  | message =>
    obtain ⟨hwork, hmessages⟩ := hfits
    exact ⟨hmessages _ List.mem_cons_self, hwork,
      fun m hm => hmessages m (List.mem_cons_of_mem _ hm)⟩
  | trigger => exact ⟨⟨trivial, trivial⟩, hfits, fun m hm => absurd hm List.not_mem_nil⟩
  | late =>
    obtain ⟨hwork, hdue⟩ := hfits
    exact ⟨⟨hdue.permits rfl, hdue.keeps⟩, hwork, fun m hm => absurd hm List.not_mem_nil⟩

/-- Something comes to the term. -/
theorem react (h : Situation promise first c a tasks events t past) {metrics : List Metric}
    {stimulus : Stimulus} {messages : List Message} {s : Step}
    (gives : Gives t past.progress a metrics stimulus messages)
    (react : t.react past.progress stimulus = .ok s) :
    Situation promise first (c.followed moment.now t s) (.after s.decision? messages)
      (tasks ++ launchedIn (metrics.map .report ++ c.followedBy moment.now t s)) events t
        (past.after stimulus s) := by
  obtain ⟨⟨hpermits, hkeeps⟩, hwork, hmessages⟩ := h.due gives
  have hsame := resembles_followed c moment.now t s
  have hrequests : past.requests ⊆ (past.after stimulus s).requests := List.subset_append_left _ _
  refine ⟨hsame.stage, h.capabilities.trans hsame.capabilities.symm, ?_,
    .step h.run hpermits react, fun x hx => ?_, ?_, ?_, fun task htask => ?_,
    fun e he => (h.events e he).mono hrequests, ?_⟩
  · rw [hsame.capabilities]
    exact h.checks
  · rcases List.mem_append.1 hx with hx | hx
    · exact h.kept x hx
    · rw [List.mem_singleton.1 hx]
      exact hkeeps
  · rw [CachesWell, hsame.admission, Controller.me, hsame.capabilities]
    exact h.caches
  · exact note_obeyAll (Nat.le_refl _) _ h.timer
  · rw [launchedIn_append, launchedIn_reports, List.nil_append] at htask
    rcases List.mem_append.1 htask with htask | htask
    · exact (h.tasks task htask).mono hrequests
    · obtain ⟨hheight, hasked⟩ := mem_launchedIn_followedBy htask
      exact ⟨Nat.le_of_eq hheight, fun _ => List.mem_append_right _ hasked⟩
  · rcases Term.react_decides_once react hwork.live with ⟨hnone, hopen⟩ | ⟨d, hd, -⟩
    · rw [Step.decision?, hnone]
      refine ⟨hwork.congr hsame.tip (congrArg Admission.height hsame.admission) hopen,
        fun m hm => ⟨(hmessages m hm).1, (hmessages m hm).2⟩⟩
    · rw [Step.decision?, hd]
      refine List.mem_append_right _ (mem_decisionsIn.1 ?_)
      rw [hd]
      exact List.mem_cons_self

/-- Something comes to nothing. -/
theorem skip (h : Situation promise first c a tasks events t past) {es : List Effect}
    {messages : List Message} (skips : Skips moment c a es messages) :
    Situation promise first c (.hear messages) (tasks ++ launchedIn es) events t past := by
  have hfits := h.fits
  have hnothing : ∀ m ∈ ([] : List Message), t.Permits past (.message m) ∧ promise.message m :=
    fun m hm => absurd hm List.not_mem_nil
  cases skips with
  | message stage => exact absurd (h.stage.symm.trans stage) (by simp)
  | trigger => exact h.congr ⟨hfits, hnothing⟩ (by simpa using h.tasks) h.events
  | late => exact h.congr ⟨hfits.1, hnothing⟩ (by simpa using h.tasks) h.events
  | useless => exact h.congr ⟨hfits.1, hnothing⟩ (by simpa using h.tasks) h.events
  | unproven =>
    exact h.congr ⟨hfits.1, hnothing⟩ (by simpa [launchedIn, Effect.task?] using h.tasks) h.events

/-- A block that the network committed is taken over. -/
theorem adopt {block : Block} {proof : BlockProof} {previous : Option BlockProof}
    (h : Situation promise first c (.heed (.input (.sync block proof previous))) tasks events t
      past) (current : c.height?.any (proof.height < ·) = false)
    (fits : c.capabilities.matchesHash proof.height block proof.blockHash = true) :
    Situation promise first { c with tip := some ⟨block, proof⟩ } (.succeed proof.height) tasks
      events t past := by
  refine { h with fits := ⟨?_, ⟨block, proof⟩, rfl, rfl, h.checks _ _ _ fits⟩ }
  rw [height?, h.stage] at current
  simpa using current

/-- A decision is committed. -/
theorem commit {d : Decision} (h : Situation promise first c (.close d) tasks events t past) :
    Situation promise first { c with tip := some ⟨d.block, d.proof⟩ } (.succeed d.height) tasks
      events t past := by
  obtain ⟨hheight, hproof, hfits⟩ := h.certifies h.fits
  rw [← hheight] at hproof hfits
  exact { h with fits := ⟨Nat.le_of_eq hheight.symm, ⟨d.block, d.proof⟩, rfl, hproof, hfits⟩ }

/-- The turn is the next height's. -/
theorem succeed {height next : Height}
    (h : Situation promise first c (.succeed height) tasks events t past)
    (next_eq : nextHeight height = .ok next) :
    Situation promise first c (.start next) tasks events t past :=
  { h with fits := ⟨height, eq_succ_of_nextHeight next_eq, h.fits⟩ }

/-! ## Between calls -/

/-- An input comes. -/
theorem input {input : Input} (h : Situation promise first c (.hear []) tasks events t past)
    (kept : promise.Kept tasks (.input input)) :
    Situation promise first c (.heed (.input input)) tasks events t past := by
  refine h.congr ?_ h.tasks h.events
  cases input with
  | message m => exact ⟨h.fits.1, kept⟩
  | sync block proof previous => exact ⟨h.fits.1, kept⟩
  | triggerElection => exact h.fits.1

/-- The first of the events is handled. -/
theorem late {e : LateEvent} (h : Situation promise first c (.hear []) tasks (e :: events) t past) :
    Situation promise first c (.heed (.late e)) tasks events t past :=
  h.congr ⟨h.fits.1, h.events e List.mem_cons_self⟩ h.tasks
    fun e' he' => h.events e' (List.mem_cons_of_mem _ he')

/-- Some tasks are cancelled. -/
theorem cancel (h : Situation promise first c (.hear []) tasks events t past)
    (wanted : Task → Bool) :
    Situation promise first c (.hear []) (tasks.filter wanted) events t past :=
  h.congr h.fits (fun task htask => h.tasks task (List.mem_filter.1 htask).1) h.events

/-- The timer fires. -/
theorem fire {armed : Armed Height} (h : Situation promise first c (.hear []) tasks events t past)
    (pending : c.timer.pending? = some armed) :
    Situation promise first { c with timer := c.timer.fired } (.hear []) tasks
      (events ++ [Session.timerEvent armed]) t past := by
  rw [ElectionTimer.pending?, Option.filter_eq_some_iff] at pending
  refine { h with timer := fun a ha => ?_, events := fun e he => ?_, fits := ?_ }
  · rw [ElectionTimer.fired, Option.map_eq_some_iff] at ha
    obtain ⟨a', ha', rfl⟩ := ha
    exact h.timer a' ha'
  · rcases List.mem_append.1 he with he | he
    · exact h.events e he
    · rw [List.mem_singleton.1 he]
      exact ⟨h.timer armed pending.1, trivial, fun _ => trivial⟩
  · have htip : { c with timer := c.timer.fired }.tip = c.tip := rfl
    exact ⟨h.fits.1.congr htip rfl h.fits.1.live, h.fits.2⟩

/-- The host answers. -/
theorem answer {task : Task} {answer : Answer}
    (h : Situation promise first c (.hear []) tasks events t past) (under_way : task ∈ tasks)
    (keeps : promise.Keeps task.height (.event (task.conclude answer).1.event))
    (other : Task → Bool) :
    Situation promise first c (.hear []) (tasks.filter other)
      (events ++ [(task.conclude answer).1]) t past := by
  refine h.congr h.fits (fun task' htask' => h.tasks task' (List.mem_filter.1 htask').1)
    fun e he => ?_
  rcases List.mem_append.1 he with he | he
  · exact h.events e he
  · rw [List.mem_singleton.1 he]
    exact (h.tasks task under_way).conclude keeps

/-! ## Starting a height -/

/-- A controller that is to start a height is ready for it. -/
theorem ready {height : Height} (h : Situation promise first c (.start height) tasks events t past) :
    Ready promise first c height tasks events := by
  obtain ⟨below, rfl, hle, htip⟩ := h.fits
  have hlt : t.height < below + 1 := Nat.lt_succ_of_le hle
  refine ⟨?_, h.checks, h.caches, fun task htask => ?_, fun e he => ?_, Or.inr ⟨below, rfl, htip⟩⟩
  · rw [Controller.log, h.stage]
    exact h.run.clearBelow hlt
  · exact Nat.lt_of_le_of_lt (h.tasks task htask).le hlt
  · exact ⟨Nat.lt_of_le_of_lt (h.events e he).le hlt, (h.events e he).keeps⟩

end Situation

/-- A controller before its first height is ready for it. -/
theorem ready_initial {config : Config} {capabilities : Capabilities}
    (checks : ∀ height block hash, capabilities.matchesHash height block hash = true →
      promise.proposal height block hash) :
    Ready promise first (.initial config capabilities) first [] [] where
  log := rfl
  checks := checks
  caches := ⟨rfl, fun _ _ hm => absurd hm (Admission.not_holds_start _ _)⟩
  tasks _ htask := absurd htask List.not_mem_nil
  events _ he := absurd he List.not_mem_nil
  tip := Or.inl ⟨rfl, rfl⟩

/-- The term of a height that was just started has an empty past but for its start. -/
def Controller.firstPast (c : Controller) (height : Height) (committee : Committee) : Past :=
  Past.fresh.after .start (c.firstStep height committee)

/-- The term of a height that may be started starts on an empty log. -/
theorem Ready.firstStep_eq {height : Height} (h : Ready promise first c height tasks events)
    (committee : Committee) : c.firstStep height committee =
      ((c.leave height).termAt height committee).start Past.fresh.progress := by
  have hlog : (c.leave height).log = .empty := h.log
  rw [firstStep, hlog]
  rfl

/-- **A height is started**, and what was cached for it is released. -/
theorem Ready.start {height : Height} {moment : Moment} {committee : Committee}
    {release : Admission.Release} (h : Ready promise first c height tasks events)
    (free : c.admission.setHeight height = .ok release) :
    Situation promise first
      { c.begun moment.now height committee with admission := release.admission }
      (.hear release.released)
      (tasks ++ launchedIn (c.begunBy moment.now height committee ++ release.metrics.map .report))
      events ((c.leave height).termAt height committee) (c.firstPast height committee) := by
  have hsame := resembles_followed (c.leave height) moment.now
    ((c.leave height).termAt height committee) (c.firstStep height committee)
  have hfreed := Admission.freed_of_setHeight free
  obtain ⟨hme, hcached⟩ := h.caches
  have hfirst := h.firstStep_eq committee
  have hlive : (c.firstPast height committee).progress.phase ≠ .committed := by
    rw [firstPast, hfirst]
    simp [Past.after, Past.fresh, Term.start, Progress.initial]
  have hlinked : (c.leave height).Linked promise first ((c.leave height).termAt height committee) := by
    rcases h.tip with ⟨hnone, hheight⟩ | ⟨below, hheight, tip, htip, hbelow, hpromised⟩
    · refine Or.inl ⟨hnone, hheight, ?_⟩
      show (c.leave height).seed = 0
      rw [Controller.seed, show (c.leave height).tip = none from hnone]
    · refine Or.inr ⟨tip, htip, ?_, hbelow ▸ hpromised, ?_⟩
      · rw [hbelow]
        exact hheight.symm
      · show (c.leave height).seed = _
        rw [Controller.seed, show (c.leave height).tip = some tip from htip]
  refine ⟨hsame.stage, hsame.capabilities.symm, ?_, ?_, fun x hx => ?_,
    ⟨?_, fun k m hm => ?_⟩, ?_, fun task htask => ?_, fun e he => ?_, ⟨?_, hlive, ?_⟩,
    fun m hm => ?_⟩
  · show ∀ k block hash,
      (c.begun moment.now height committee).capabilities.matchesHash k block hash = true → _
    rw [show (c.begun moment.now height committee).capabilities = c.capabilities from
      hsame.capabilities]
    exact h.checks
  · refine .step .fresh trivial ?_
    rw [hfirst]
    rfl
  · rw [List.mem_singleton.1 hx]
    trivial
  · show release.admission.me = (c.begun moment.now height committee).capabilities.keys.me
    rw [hfreed.me, hme, show (c.begun moment.now height committee).capabilities = c.capabilities
      from hsame.capabilities]
    rfl
  · show _ ∧ m.sender ≠ (c.begun moment.now height committee).capabilities.keys.me ∧ _
    rw [show (c.begun moment.now height committee).capabilities = c.capabilities from
      hsame.capabilities]
    exact hcached k m (hfreed.holds k m hm)
  · exact note_obeyAll (Nat.le_refl height) _ fun armed harmed => absurd harmed (by
      simp [adopting, leave, ElectionTimer.disarm])
  · rw [launchedIn_append, launchedIn_reports, List.append_nil] at htask
    rcases List.mem_append.1 htask with htask | htask
    · have hlt := h.tasks task htask
      exact ⟨Nat.le_of_lt hlt, fun heq => absurd heq (Nat.ne_of_lt hlt)⟩
    · have htask' : task ∈ launchedIn ((c.leave height).followedBy moment.now
          ((c.leave height).termAt height committee) (c.firstStep height committee)) := htask
      obtain ⟨hheight, hasked⟩ := mem_launchedIn_followedBy htask'
      exact ⟨Nat.le_of_eq hheight, fun _ => List.mem_append_right _ hasked⟩
  · obtain ⟨hlt, hkeeps⟩ := h.events e he
    exact ⟨Nat.le_of_lt hlt, hkeeps, fun heq => absurd heq (Nat.ne_of_lt hlt)⟩
  · exact hfreed.height_eq
  · have htip : { c.begun moment.now height committee with admission := release.admission }.tip =
        (c.leave height).tip := hsame.tip
    exact hlinked.congr htip
  · obtain ⟨hheight, hother, hpromised⟩ := hcached height m (hfreed.released m hm)
    exact ⟨⟨hheight, hother⟩, hpromised⟩

/-- **Where a controller stands when it has started its first height.** -/
theorem situation_first {config : Config} {capabilities : Capabilities} (moment : Moment)
    (committee : Committee) {release : Admission.Release}
    (checks : ∀ height block hash, capabilities.matchesHash height block hash = true →
      promise.proposal height block hash)
    (free : (Controller.initial config capabilities).admission.setHeight first = .ok release) :
    Situation promise first
      { (Controller.initial config capabilities).begun moment.now first committee with
        admission := release.admission } (.hear [])
      (launchedIn ((Controller.initial config capabilities).begunBy moment.now first committee ++
        release.metrics.map .report)) []
      (((Controller.initial config capabilities).leave first).termAt first committee)
      ((Controller.initial config capabilities).firstPast first committee) := by
  have hready : Ready promise first (.initial config capabilities) first [] [] :=
    ready_initial checks
  have hstart : Situation promise first
      { (Controller.initial config capabilities).begun moment.now first committee with
        admission := release.admission } (.hear release.released) _ []
      (((Controller.initial config capabilities).leave first).termAt first committee)
      ((Controller.initial config capabilities).firstPast first committee) := hready.start free
  rw [released_eq_nil free fun m => Admission.not_holds_start _ _] at hstart
  exact hstart

end CommitteeConsensus
