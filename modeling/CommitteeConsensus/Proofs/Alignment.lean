import CommitteeConsensus.Proofs.Lives
import CommitteeConsensus.Proofs.Orderly

/-!
# The timer, the scope and the tasks of a view

The view of the active term, the view of the scope that is alive, the election timer and the
tasks of the host are four things that change separately.  A term only asks for it: to arm the
timer, to build a block, to examine a proposal.  That they fit all the same whenever the
controller is at rest is `Lives.timer_and_tasks_aligned`.  In particular a member is never
without a timeout to come: the timer of its view runs, or it fired and the term has not heard of
it yet.

Arming the timer of a view twice does nothing, even if it fired in between.  So the timeout of a
view may be lost only if the term stays in the view after it was heard, and it does not.  Between
the two the timer is out of tune (`Handed`).

Two things are known of the tasks at any time, whatever the term is about to ask for: they have
different numbers, and none is of a scope or a height to come (`Ledger`).  So a view that is
reached for the first time has no tasks yet, nor has a height.
-/

namespace CommitteeConsensus

/-! ## Examinations -/

/-- The task has the host examine a proposal of this height and view. -/
def Task.examines (height : Height) (view : View) (task : Task) : Bool :=
  match task.work with
  | .build _ => false
  | .validate m => task.height == height && m.view == view

/-- The host is done with a proposal of this view. -/
def Event.reports (view : View) : Event → Bool
  | .validationFinished m _ => m.view == view
  | _ => false

/-- The host is done with a proposal of this height and view. -/
def LateEvent.reports (height : Height) (view : View) (e : LateEvent) : Bool :=
  e.height == height && e.event.reports view

/-- How many proposals of a height and a view the host examines, or is done with while the term
has not heard of it. -/
def examinations (height : Height) (view : View) (tasks : List Task) (events : List LateEvent) :
    Nat :=
  tasks.countP (·.examines height view) + events.countP (·.reports height view)

/-- The one proposal that is examined is the one that the term waits for. -/
def Progress.Examining (p : Progress) (n : Nat) : Prop :=
  p.validating = none ∧ n = 0 ∨ p.validating = some p.view ∧ n = 1

theorem Task.of_examines {height : Height} {view : View} {task : Task}
    (h : task.examines height view = true) : task.height = height ∧ task.work.view = view := by
  rw [examines] at h
  split at h
  · exact absurd h (by simp)
  · next m hm =>
    rw [Bool.and_eq_true, beq_iff_eq, beq_iff_eq] at h
    rw [hm]
    exact h

/-- A task that comes to its end is reported as what it was. -/
theorem Task.reports_conclude {height : Height} {view : View} (task : Task) (answer : Answer) :
    (task.conclude answer).1.reports height view = task.examines height view := by
  obtain ⟨number, height', scope, previous, work⟩ := task
  cases work <;> cases answer <;>
    simp [conclude, LateEvent.reports, Event.reports, Task.examines]

theorem Task.height_conclude (task : Task) (answer : Answer) :
    (task.conclude answer).1.height = task.height := by
  obtain ⟨number, height', scope, previous, work⟩ := task
  cases work <;> cases answer <;> rfl

/-- A task that is taken off the list is one less. -/
theorem countP_without {tasks : List Task} {task : Task} (numbers : (tasks.map (·.number)).Nodup)
    (mem : task ∈ tasks) (q : Task → Bool) :
    tasks.countP q = (tasks.filter (·.number != task.number)).countP q + if q task then 1 else 0 := by
  have hsame : tasks.filter (·.number != task.number) = tasks.filter (· != task) := by
    refine List.filter_congr fun other hother => ?_
    have hiff : other.number = task.number ↔ other = task :=
      ⟨fun heq => List.inj_on_of_nodup_map numbers hother mem heq, congrArg Task.number⟩
    rw [Bool.eq_iff_iff, bne_iff_ne, bne_iff_ne]
    exact not_congr hiff
  rw [hsame, ← numbers.of_map.erase_eq_filter, (List.perm_cons_erase mem).countP_eq, List.countP_cons]

/-! ## Books of the tasks -/

/-- What holds of tasks and events at any time, up to a height. -/
structure Ledger (c : Controller) (tasks : List Task) (events : List LateEvent) (height : Height) :
    Prop where
  numbers : (tasks.map (·.number)).Nodup
  fresh : ∀ task ∈ tasks, task.number < c.launched
  scopes : ∀ task ∈ tasks, task.scope ≤ c.scope.number
  tasks_le : ∀ task ∈ tasks, task.height ≤ height
  events_le : ∀ e ∈ events, e.height ≤ height

/-- What holds of them besides while a term works in a view of the height: what is of use is
what was started for the view. -/
structure Stocked (c : Controller) (tasks : List Task) (events : List LateEvent) (height : Height)
    (view : View) (n : Nat) : Prop extends Ledger c tasks events height where
  scope : c.scope.view = view
  wanted : ∀ task ∈ tasks,
    task.scope = c.scope.number ↔ task.height = height ∧ task.work.view = view
  /-- Nothing was started for a view to come. -/
  tasks_in : ∀ task ∈ tasks, task.height = height → task.work.view ≤ view
  events_in : ∀ e ∈ events, ∀ later, view < later → e.reports height later = false
  count : examinations height view tasks events = n

/-- The timer is armed for a view, and its timeout is to come: it did not fire yet, or the event
waits. -/
def Tuned (c : Controller) (events : List LateEvent) (height : Height) (view : View) : Prop :=
  ∃ armed, c.timer.armed = some armed ∧ (armed.view = view ∧ armed.note = height) ∧
    (armed.pending = true ∨ Session.timerEvent armed ∈ events)

/-- All fits the view of a term. -/
def Aligned (c : Controller) (tasks : List Task) (events : List LateEvent) (height : Height)
    (p : Progress) : Prop :=
  ∃ n, Stocked c tasks events height p.view n ∧ Tuned c events height p.view ∧ p.Examining n

variable {c c' : Controller} {tasks : List Task} {events : List LateEvent} {height : Height}
  {view : View} {n : Nat} {p q : Progress} {now : Nanoseconds}

theorem Ledger.congr (h : Ledger c tasks events height) (scope : c'.scope = c.scope)
    (launched : c'.launched = c.launched) : Ledger c' tasks events height := by
  refine ⟨h.numbers, ?_, ?_, h.tasks_le, h.events_le⟩
  · rw [launched]
    exact h.fresh
  · rw [scope]
    exact h.scopes

theorem Stocked.congr (h : Stocked c tasks events height view n) (scope : c'.scope = c.scope)
    (launched : c'.launched = c.launched) : Stocked c' tasks events height view n := by
  refine ⟨h.toLedger.congr scope launched, ?_, ?_, h.tasks_in, h.events_in, h.count⟩
  · rw [scope]
    exact h.scope
  · rw [scope]
    exact h.wanted

theorem Tuned.congr (h : Tuned c events height view) (timer : c'.timer = c.timer) :
    Tuned c' events height view := by
  rw [Tuned, timer]
  exact h

theorem Tuned.view? (h : Tuned c events height view) : c.timer.view? = some view := by
  obtain ⟨armed, harmed, ⟨hview, -⟩, -⟩ := h
  rw [ElectionTimer.view?, harmed, ← hview]
  rfl

/-- All fits another progress in the same view. -/
theorem Aligned.congr (h : Aligned c tasks events height p) (view : q.view = p.view)
    (validating : q.validating = p.validating) : Aligned c tasks events height q := by
  obtain ⟨n, hstocked, htuned, hexamining⟩ := h
  refine ⟨n, view ▸ hstocked, view ▸ htuned, ?_⟩
  rw [Progress.Examining, view, validating]
  exact hexamining

/-! ### Requests and the books -/

theorem Ledger.reach (h : Ledger c tasks events height) (view : View) :
    Ledger (c.reach view) tasks events height := by
  rw [Controller.reach]
  split
  · exact ⟨h.numbers, h.fresh, fun task htask => Nat.le_succ_of_le (h.scopes task htask),
      h.tasks_le, h.events_le⟩
  · exact h

/-- Work that is started gets a number of its own. -/
theorem Ledger.launching (h : Ledger c tasks events height) (work : Work) :
    Ledger (c.launching work) (tasks ++ [c.taskFor height work]) events height := by
  have hreach := h.reach work.view
  refine ⟨?_, fun task htask => ?_, fun task htask => ?_, fun task htask => ?_, h.events_le⟩
  · rw [List.map_append, List.nodup_append]
    refine ⟨h.numbers, List.nodup_singleton _, fun k hk k' hk' => ?_⟩
    obtain ⟨task, htask, rfl⟩ := List.mem_map.1 hk
    rw [List.mem_singleton.1 hk']
    exact Nat.ne_of_lt (h.fresh task htask)
  · rcases List.mem_append.1 htask with htask | htask
    · exact Nat.lt_succ_of_lt (h.fresh task htask)
    · rw [List.mem_singleton.1 htask]
      exact Nat.lt_succ_self _
  · rcases List.mem_append.1 htask with htask | htask
    · exact hreach.scopes task htask
    · rw [List.mem_singleton.1 htask]
      exact Nat.le_refl _
  · rcases List.mem_append.1 htask with htask | htask
    · exact h.tasks_le task htask
    · rw [List.mem_singleton.1 htask]
      exact Nat.le_refl _

theorem Ledger.obey (h : Ledger c tasks events height) (r : Request) :
    Ledger (c.obey now height r) (tasks ++ launchedIn (c.emit height r)) events height := by
  have hnone : tasks ++ [] = tasks := List.append_nil tasks
  cases r with
  | send | decide => exact hnone.symm ▸ h
  | cancelElection => exact hnone.symm ▸ h.congr rfl rfl
  | scheduleElection view => exact hnone.symm ▸ (h.reach view).congr rfl rfl
  | buildProposal view => exact h.launching (.build view)
  | validateProposal m => exact h.launching (.validate m)

/-- **Whatever a term asks for, the books are kept.** -/
theorem Ledger.obeyAll (h : Ledger c tasks events height) (rs : List Request) :
    Ledger (c.obeyAll now height rs) (tasks ++ launchedIn (c.emitAll now height rs)) events
      height := by
  induction rs generalizing c tasks with
  | nil =>
    rw [show launchedIn (c.emitAll now height []) = [] from rfl, List.append_nil]
    exact h
  | cons r rs ih =>
    rw [Controller.obeyAll, Controller.emitAll, launchedIn_append, ← List.append_assoc]
    exact ih (h.obey r)

/-- A view that is reached for the first time has no tasks yet. -/
theorem Stocked.reach (h : Stocked c tasks events height view n) {later : View}
    (lt : view < later) : Stocked (c.reach later) tasks events height later 0 := by
  have hreach : c.reach later = { c with scope := ⟨c.scope.number + 1, later⟩ } :=
    if_pos (by rw [h.scope]; exact lt)
  have hledger := h.toLedger.reach later
  have hfuture : ∀ task ∈ tasks, ¬(task.height = height ∧ task.work.view = later) :=
    fun task htask ⟨hheight, hview⟩ =>
      Nat.not_le_of_lt lt (hview ▸ h.tasks_in task htask hheight)
  rw [hreach] at hledger ⊢
  refine ⟨hledger, rfl, fun task htask => ⟨fun hscope => ?_, fun hhere => ?_⟩,
    fun task htask hheight => Nat.le_trans (h.tasks_in task htask hheight) (Nat.le_of_lt lt),
    fun e he k hk => h.events_in e he k (Nat.lt_trans lt hk), ?_⟩
  · have hle := h.scopes task htask
    rw [hscope] at hle
    exact absurd hle (Nat.not_succ_le_self _)
  · exact absurd hhere (hfuture task htask)
  · rw [examinations, Nat.add_eq_zero_iff, List.countP_eq_zero, List.countP_eq_zero]
    refine ⟨fun task htask hexamines => hfuture task htask (Task.of_examines hexamines),
      fun e he => ?_⟩
    rw [h.events_in e he later lt]
    simp

/-- Work is started for the current view. -/
theorem Stocked.launching (h : Stocked c tasks events height view n) (work : Work)
    (here : work.view = view) :
    Stocked (c.launching work) (tasks ++ [c.taskFor height work]) events height view
      (n + if (c.taskFor height work).examines height view then 1 else 0) := by
  have hreach : c.reach work.view = c := if_neg (by rw [h.scope, here]; exact Nat.lt_irrefl _)
  have hscope : (c.launching work).scope = c.scope := by
    rw [Controller.launching, hreach]
  have htask : (c.taskFor height work).scope = c.scope.number := by
    rw [Controller.taskFor, hreach]
  refine ⟨h.toLedger.launching work, hscope ▸ h.scope, fun task hmem => ?_,
    fun task hmem hheight => ?_, h.events_in, ?_⟩
  · rw [hscope]
    rcases List.mem_append.1 hmem with hmem | hmem
    · exact h.wanted task hmem
    · rw [List.mem_singleton.1 hmem]
      exact ⟨fun _ => ⟨rfl, here⟩, fun _ => htask⟩
  · rcases List.mem_append.1 hmem with hmem | hmem
    · exact h.tasks_in task hmem hheight
    · rw [List.mem_singleton.1 hmem]
      exact Nat.le_of_eq here
  · rw [examinations, List.countP_append, List.countP_singleton, ← h.count, examinations]
    omega

/-! ## What requests come to -/

/-- Requests lead from a controller and its tasks to where all fits a progress. -/
def Controller.Aligns (c : Controller) (now : Nanoseconds) (tasks : List Task)
    (events : List LateEvent) (height : Height) (rs : List Request) (q : Progress) : Prop :=
  Aligned (c.obeyAll now height rs) (tasks ++ launchedIn (c.emitAll now height rs)) events height q

/-- Requests are obeyed one after the other. -/
theorem Controller.Aligns.append {rs rs' : List Request} (h : c.Aligns now tasks events height rs p)
    (rest : ∀ {c' tasks'}, Aligned c' tasks' events height p →
      c'.Aligns now tasks' events height rs' q) :
    c.Aligns now tasks events height (rs ++ rs') q := by
  rw [Controller.Aligns, Controller.obeyAll_append, Controller.emitAll_append, launchedIn_append, ← List.append_assoc]
  exact rest h

/-- The request changes nothing in a view whose timer is armed. -/
def Request.Repeats (view : View) (r : Request) : Prop :=
  (∃ recipients m, r = .send recipients m) ∨ r = .scheduleElection view

namespace Aligned

open Controller

theorem nil (h : Aligned c tasks events height p) : c.Aligns now tasks events height [] p := by
  rw [Aligns, show launchedIn (c.emitAll now height []) = [] from rfl, List.append_nil]
  exact h

/-- The scope and the timer of a view are left as they are when they are asked for again. -/
theorem obey_of_repeats (h : Aligned c tasks events height p) (now : Nanoseconds) {r : Request}
    (repeats : r.Repeats p.view) :
    c.obey now height r = c ∧ launchedIn (c.emit height r) = [] := by
  obtain ⟨n, hstocked, htuned, -⟩ := h
  rcases repeats with ⟨recipients, m, rfl⟩ | rfl
  · exact ⟨rfl, rfl⟩
  · refine ⟨?_, rfl⟩
    have hreach : c.reach p.view = c :=
      if_neg (by rw [hstocked.scope]; exact Nat.lt_irrefl _)
    rw [obey, hreach, ElectionTimer.arm_of_view? htuned.view?]

theorem repeated (h : Aligned c tasks events height p) (now : Nanoseconds) (rs : List Request)
    (repeats : ∀ r ∈ rs, r.Repeats p.view) : c.Aligns now tasks events height rs p := by
  induction rs with
  | nil => exact h.nil
  | cons r rs ih =>
    obtain ⟨hobey, hemit⟩ := h.obey_of_repeats now (repeats r List.mem_cons_self)
    have hrest := ih fun r hr => repeats r (List.mem_cons_of_mem _ hr)
    rw [Aligns, obeyAll, emitAll, launchedIn_append, hobey, hemit]
    exact hrest

/-- A block is asked for. -/
theorem build (h : Aligned c tasks events height p) (now : Nanoseconds) :
    c.Aligns now tasks events height [.buildProposal p.view] p := by
  obtain ⟨n, hstocked, htuned, hexamining⟩ := h
  have hlaunched : Stocked (c.launching (.build p.view))
      (tasks ++ [c.taskFor height (.build p.view)]) events height p.view n :=
    hstocked.launching _ rfl
  exact ⟨n, hlaunched, htuned.congr (timer_reach c p.view), hexamining⟩

/-- A proposal goes to the host, where none is. -/
theorem examine (h : Aligned c tasks events height p) {m : PrePrepare} (view : m.view = p.view)
    (idle : p.validating ≠ some p.view) :
    c.Aligns now tasks events height [.validateProposal m]
      { p with validating := some p.view } := by
  obtain ⟨n, hstocked, htuned, hexamining⟩ := h
  obtain ⟨-, rfl⟩ := hexamining.resolve_right fun hbusy => idle hbusy.1
  have hone : (c.taskFor height (.validate m)).examines height p.view = true := by
    simp [taskFor, Task.examines, view]
  have hlaunched := hstocked.launching (.validate m) view
  rw [hone, if_pos rfl] at hlaunched
  exact ⟨1, hlaunched, htuned.congr (timer_reach c m.view), Or.inr ⟨rfl, rfl⟩⟩

end Aligned

open Controller

/-- The timer of a view is armed afresh, if it is not the one that is armed. -/
theorem Stocked.arm (h : Stocked (c.reach view) tasks events height view n) (now : Nanoseconds)
    (other : c.timer.view? ≠ some view) :
    Stocked (c.obey now height (.scheduleElection view)) tasks events height view n ∧
      Tuned (c.obey now height (.scheduleElection view)) events height view := by
  refine ⟨h.congr rfl rfl, ⟨view, now + electionTimeout c.timer.base view, true, height⟩, ?_,
    ⟨rfl, rfl⟩, Or.inl rfl⟩
  show (c.timer.arm now view height).armed = some _
  rw [ElectionTimer.arm, if_neg other]

/-- **Moving on.**  The timer of a higher view is armed, and the scope is a new one. -/
theorem Stocked.move (h : Stocked c tasks events height p.view n)
    (clock : c.timer.view? = some p.view) {later : View} (lt : p.view < later) :
    c.Aligns now tasks events height [.scheduleElection later] (p.reach later) := by
  have hother : c.timer.view? ≠ some later := by
    rw [clock, ne_eq, Option.some.injEq]
    exact Nat.ne_of_lt lt
  obtain ⟨hstocked, htuned⟩ := (h.reach lt).arm now hother
  rw [Aligns, show launchedIn (c.emitAll now height [.scheduleElection later]) = [] from rfl,
    List.append_nil, p.reach_of_lt lt]
  exact ⟨0, hstocked, htuned, Or.inl ⟨rfl, rfl⟩⟩

theorem Aligned.arming (h : Aligned c tasks events height p) (now : Nanoseconds) (later : View) :
    c.Aligns now tasks events height (Term.arming p later) (p.reach later) := by
  rw [Term.arming]
  split
  · next hlt =>
    obtain ⟨n, hstocked, htuned, -⟩ := h
    exact hstocked.move htuned.view? hlt
  · next hlt =>
    rw [p.reach_of_not_lt hlt]
    exact h.nil

/-! ## What a term does -/

namespace Term

variable {t : Term} {rs : List Request} {stimulus : Stimulus}

/-- A leader that sends its own proposal and installs it stays in the view. -/
theorem aligns_install (h : Aligned c tasks events height p) (recipients : List MemberId)
    (message : Message) (m : PrePrepare) :
    c.Aligns now tasks events height (.send recipients message :: (p.install m).requests)
      (p.install m).progress := by
  obtain ⟨log, phase, hshape⟩ := install_shape p m
  have hrepeated := h.repeated now (.send recipients message :: (p.install m).requests) fun r hr => by
    rcases List.mem_cons.1 hr with rfl | hr
    · exact Or.inl ⟨_, _, rfl⟩
    · exact Or.inr (mem_install hr)
  exact Aligned.congr hrepeated (by rw [hshape]) (by rw [hshape])

theorem Consequence.aligns (h : t.Consequence p rs q) (live : q.phase ≠ .committed)
    (aligned : Aligned c tasks events height p) : c.Aligns now tasks events height rs q := by
  cases h with
  | @repropose view block hash claims =>
    have hclaimed : Aligned c tasks events height { p with lastNewView := some view } :=
      aligned.congr rfl rfl
    exact (hclaimed.arming now view).append fun haligned => aligns_install haligned _ _ _
  | @await view claims =>
    have hclaimed : Aligned c tasks events height { p with lastNewView := some view } :=
      aligned.congr rfl rfl
    refine (hclaimed.arming now view).append fun haligned => ?_
    have hbuilt := haligned.build now
    have hview : (p.claim view).view = view := p.view_claim claims.le
    rw [show (({ p with lastNewView := some view } : Progress).reach view).view = view from hview]
      at hbuilt
    exact Aligned.congr hbuilt rfl rfl
  | @commit m =>
    obtain ⟨log, hshape⟩ := commitTo_shape (t := t) { p with phase := .prepared } m.blockHash
    have hrepeated := aligned.repeated now
      (t.commitTo { p with phase := .prepared } m.blockHash).requests fun r hr => Or.inl ⟨_, _, (mem_commitTo hr).2⟩
    exact Aligned.congr hrepeated (by rw [hshape]) (by rw [hshape])
  | decide => exact absurd rfl live

/-- Consequences are drawn from an open height. -/
theorem Consequences.live (h : t.Consequences p rs q) (live : q.phase ≠ .committed) :
    p.phase ≠ .committed := by
  cases h with
  | none => exact live
  | more first => exact first.live

theorem Consequences.aligns (h : t.Consequences p rs q) (live : q.phase ≠ .committed)
    (aligned : Aligned c tasks events height p) : c.Aligns now tasks events height rs q := by
  induction h generalizing c tasks with
  | none p => exact aligned.nil
  | more first rest ih =>
    exact (first.aligns (rest.live live) aligned).append fun haligned => ih live haligned

end Term

/-! ## What comes to a term -/

/-- How many proposals of a view the host is done with, if this comes to the term. -/
def Stimulus.reports (view : View) : Stimulus → Nat
  | .event e => if e.reports view then 1 else 0
  | _ => 0

/-- Something was taken off the agenda and comes to the term: it may be the timeout of the view,
or the proposal that the term waits for. -/
def Handed (c : Controller) (tasks : List Task) (events : List LateEvent) (height : Height)
    (p : Progress) (stimulus : Stimulus) : Prop :=
  ∃ n, Stocked c tasks events height p.view n ∧ c.timer.view? = some p.view ∧
    (stimulus = .event (.electionTimeout p.view) ∨ Tuned c events height p.view) ∧
      p.Examining (n + stimulus.reports p.view)

namespace Handed

variable {t : Term} {rs : List Request} {stimulus : Stimulus}

theorem congr (h : Handed c tasks events height p stimulus) (scope : c'.scope = c.scope)
    (launched : c'.launched = c.launched) (timer : c'.timer = c.timer) :
    Handed c' tasks events height p stimulus := by
  obtain ⟨n, hstocked, hclock, htuned, hexamining⟩ := h
  refine ⟨n, hstocked.congr scope launched, ?_, htuned.imp_right (·.congr timer), hexamining⟩
  rw [timer]
  exact hclock

/-- Anything else leaves all as it is. -/
theorem aligned (h : Handed c tasks events height p stimulus)
    (timely : stimulus ≠ .event (.electionTimeout p.view)) (unreported : stimulus.reports p.view = 0) :
    Aligned c tasks events height p := by
  obtain ⟨n, hstocked, -, htuned, hexamining⟩ := h
  rw [unreported] at hexamining
  exact ⟨n, hstocked, htuned.resolve_left timely, hexamining⟩

/-- The timer of the view is out of tune, and the member moves on. -/
theorem elapse (h : Handed c tasks events height p stimulus) (now : Nanoseconds) :
    c.Aligns now tasks events height [.scheduleElection (p.view + 1)] (p.reach (p.view + 1)) := by
  obtain ⟨n, hstocked, hclock, -, -⟩ := h
  exact hstocked.move hclock (Nat.lt_succ_self _)

/-- The term hears of the proposal that it waits for, and waits for none. -/
theorem release {m : PrePrepare} {valid : Bool}
    (h : Handed c tasks events height p (.event (.validationFinished m valid)))
    (view : m.view = p.view) : Aligned c tasks events height { p with validating := none } := by
  obtain ⟨n, hstocked, -, htuned, hexamining⟩ := h
  have hone : (Stimulus.event (.validationFinished m valid)).reports p.view = 1 := by
    simp [Stimulus.reports, Event.reports, view]
  rw [hone] at hexamining
  rcases hexamining with ⟨-, hzero⟩ | ⟨-, hsucc⟩
  · exact absurd hzero (Nat.succ_ne_zero _)
  · obtain rfl : n = 0 := Nat.succ.inj hsucc
    exact ⟨0, hstocked, htuned.resolve_left (by simp), Or.inl ⟨rfl, rfl⟩⟩

/-- What is dismissed changes nothing. -/
theorem ignore (h : Handed c tasks events height p stimulus) (live : p.phase ≠ .committed)
    (dismisses : t.Dismisses p stimulus) : Aligned c tasks events height p := by
  rcases stimulus with _ | m | view | ⟨view, proposal⟩ | ⟨m, valid⟩
  · exact dismisses.elim
  · exact h.aligned (by simp) rfl
  · have hother : view ≠ p.view := dismisses.resolve_left live
    exact h.aligned (by simpa using hother) rfl
  · exact h.aligned (by simp) rfl
  · have houtlasts : m.view ≠ p.view ∨ p.validating ≠ some m.view := dismisses.resolve_left live
    refine h.aligned (by simp) (if_neg fun hreports => ?_)
    have hview : m.view = p.view := by simpa [Event.reports] using hreports
    obtain ⟨n, -, -, -, hexamining⟩ := h
    have hone : (Stimulus.event (.validationFinished m valid)).reports p.view = 1 := by
      simp [Stimulus.reports, Event.reports, hview]
    rw [hone] at hexamining
    -- the term waits for what the host is done with
    rcases hexamining with ⟨-, hzero⟩ | ⟨hbusy, -⟩
    · exact absurd hzero (Nat.succ_ne_zero _)
    · rw [← hview] at hbusy
      exact houtlasts.elim (fun hother => hother hview) fun hidle => hidle hbusy

/-- **What an act asks for leads to where all fits.** -/
theorem act (h : Handed c tasks events height p stimulus) (now : Nanoseconds)
    (live : p.phase ≠ .committed) (later : stimulus ≠ .start) (act : t.Act stimulus p rs q) :
    c.Aligns now tasks events height rs q := by
  cases act with
  | ignore dismisses => exact (h.ignore live dismisses).nil
  | start => exact absurd rfl later
  | @examine _ m view phase idle =>
    have haligned := h.aligned (by simp) rfl
    rw [view] at idle
    rw [view]
    exact haligned.examine view idle
  | @follow _ m _ view idle admits =>
    have haligned := h.aligned (by simp) rfl
    obtain ⟨⟨-, hproposal⟩, -⟩ := Term.admitsNewView_iff.1 admits
    obtain ⟨⟨hview, -⟩, -⟩ := Term.admitsProposal_iff.1 hproposal
    have hle : p.view ≤ m.signed.content.view :=
      view.elim Nat.le_of_lt fun heq => Nat.le_of_eq heq.1
    have hreached : (p.reach m.signed.content.view).view = m.signed.content.view :=
      p.view_reach hle
    have hidle : (p.reach m.signed.content.view).validating ≠ some m.signed.content.view := by
      rw [Progress.reach]
      split
      · simp
      · exact idle
    have hmoved : c.Aligns now tasks events height [.scheduleElection m.signed.content.view]
        (p.reach m.signed.content.view) := by
      rcases Nat.lt_or_eq_of_le hle with hlt | heq
      · have harming := haligned.arming now m.signed.content.view
        rwa [Term.arming, if_pos hlt] at harming
      · rw [p.reach_of_not_lt (heq ▸ Nat.lt_irrefl _)]
        exact haligned.repeated now _ fun r hr => Or.inr (heq ▸ List.mem_singleton.1 hr)
    have hexamined := hmoved.append fun hthere =>
      hthere.examine (m := m.prePrepare) (hview.trans hreached.symm) (hreached.symm ▸ hidle)
    exact Aligned.congr hexamined rfl (congrArg some hreached.symm)
  | release _ view => exact (h.release view).nil
  | @approve _ m log _ view =>
    have haligned := h.release view
    obtain ⟨log', hshape⟩ := Term.voteFor_shape (t := t)
      { p with validating := none, log, phase := .collectingPrePrepare } m
    have hrepeated := haligned.repeated now (.scheduleElection p.view :: (t.voteFor
        { p with validating := none, log, phase := .collectingPrePrepare } m).requests)
      fun r hr => by
        rcases List.mem_cons.1 hr with rfl | hr
        · exact Or.inr rfl
        · exact Or.inl ⟨_, _, (Term.mem_voteFor hr).2⟩
    exact Aligned.congr hrepeated (by rw [hshape]) (by rw [hshape])
  | @propose _ block hash =>
    exact Term.aligns_install (h.aligned (by simp) rfl) _ _ _
  | @openPending _ block hash votes =>
    have haligned : Aligned c tasks events height { p with pendingNewView := none } :=
      (h.aligned (by simp) rfl).congr rfl rfl
    exact Term.aligns_install haligned _ _ _
  | watch => exact h.elapse now
  | elapse =>
    have hasked := (h.elapse now).append fun haligned =>
      haligned.repeated now
        (if t.committee.leader (p.view + 1) = t.me then []
          else [.send [t.committee.leader (p.view + 1)] (.viewChange (t.nextRequest p))])
        fun r hr => by
          split at hr
          · exact absurd hr List.not_mem_nil
          · exact Or.inl ⟨_, _, List.mem_singleton.1 hr⟩
    exact Aligned.congr hasked rfl rfl
  | keepPrepare | keepCommit | keepViewChange =>
    exact ((h.aligned (by simp) rfl).congr rfl rfl).nil

/-- **What comes to a term leads to where all fits**, as long as the height is open. -/
theorem react (h : Handed c tasks events t.height p stimulus) (live : p.phase ≠ .committed)
    (later : stimulus ≠ .start) {s : Step} (react : t.react p stimulus = .ok s)
    (undecided : s.progress.phase ≠ .committed) :
    Aligned (c.followed now t s) (tasks ++ launchedIn (c.followedBy now t s)) events t.height
      s.progress := by
  obtain ⟨p₁, rs₁, rs₂, hact, hconsequences, hrequests⟩ := Term.react_drawn react
  have hadopting : Handed (c.adopting t s.progress) tasks events t.height p stimulus :=
    h.congr rfl rfl rfl
  have haligned := (hadopting.act now live later hact).append fun hthere =>
    hconsequences.aligns undecided hthere
  rw [followed, followedBy, launchedIn_append, launchedIn_reports, List.nil_append, hrequests]
  exact haligned

end Handed

/-! ## Starting a height -/

/-- A height whose turn has not come yet has no tasks. -/
theorem Ledger.leave {below : Height} (h : Ledger c tasks events below) (lt : below < height) :
    Stocked (c.leave height) tasks events height 0 0 := by
  have htasks : ∀ task ∈ tasks, task.height ≠ height := fun task htask heq =>
    Nat.not_le_of_lt lt (heq ▸ h.tasks_le task htask)
  have hevents : ∀ e ∈ events, ∀ view, e.reports height view = false := fun e he view => by
    have hne : e.height ≠ height := fun heq => Nat.not_le_of_lt lt (heq ▸ h.events_le e he)
    rw [LateEvent.reports, beq_false_of_ne hne, Bool.false_and]
  refine ⟨⟨h.numbers, h.fresh, fun task htask => Nat.le_succ_of_le (h.scopes task htask),
      fun task htask => Nat.le_trans (h.tasks_le task htask) (Nat.le_of_lt lt),
      fun e he => Nat.le_trans (h.events_le e he) (Nat.le_of_lt lt)⟩,
    rfl, fun task htask => ⟨fun hscope => ?_, fun hhere => absurd hhere.1 (htasks task htask)⟩,
    fun task htask heq => absurd heq (htasks task htask), fun e he view _ => hevents e he view, ?_⟩
  · have hle := h.scopes task htask
    rw [hscope] at hle
    exact absurd hle (Nat.not_succ_le_self _)
  · rw [examinations, Nat.add_eq_zero_iff, List.countP_eq_zero, List.countP_eq_zero]
    refine ⟨fun task htask hexamines => htasks task htask (Task.of_examines hexamines).1,
      fun e he => ?_⟩
    rw [hevents e he]
    simp

/-- **A height is started with all in order.** -/
theorem Stocked.begun (h : Stocked (c.leave height) tasks events height 0 0)
    (now : Nanoseconds) (committee : Committee) :
    Aligned (c.begun now height committee) (tasks ++ launchedIn (c.begunBy now height committee))
      events height (c.firstStep height committee).progress := by
  have hstocked : Stocked (((c.leave height).adopting ((c.leave height).termAt height committee)
      (c.firstStep height committee).progress).reach 0) tasks events height 0 0 := by
    rw [Controller.reach, if_neg (Nat.not_lt_zero _)]
    exact h.congr rfl rfl
  obtain ⟨hfirst, htuned⟩ := hstocked.arm now (by simp [adopting, Controller.leave])
  have hscheduled : ((c.leave height).adopting ((c.leave height).termAt height committee)
      (c.firstStep height committee).progress).Aligns now tasks events height
        [.scheduleElection 0] (c.firstStep height committee).progress := by
    rw [Aligns, Controller.emitAll, Controller.emitAll, List.append_nil]
    exact ⟨0, (List.append_nil tasks).symm ▸ hfirst, htuned, Or.inl ⟨rfl, rfl⟩⟩
  have hasked : ((c.leave height).adopting ((c.leave height).termAt height committee)
      (c.firstStep height committee).progress).Aligns now tasks events height
        ([.scheduleElection 0] ++
          if ((c.leave height).termAt height committee).leads 0 then [.buildProposal 0] else [])
        (c.firstStep height committee).progress := by
    refine hscheduled.append fun haligned => ?_
    split
    · exact haligned.build now
    · exact haligned.nil
  exact hasked

/-! ## What is on the agenda -/

/-- The events that are not handled yet, with the one that is being handled. -/
def Agenda.queue : Agenda → List LateEvent → List LateEvent
  | .heed (.late e), events => e :: events
  | _, events => events

/-- All fits as long as the term is to go on. -/
def Agenda.Awaits (fits : Prop) : Agenda → Prop
  | .heed (.start _) => False
  | .heed _ | .hear _ => fits
  | .close _ | .succeed _ | .start _ => True

/-- The active term is open, and all fits its view, unless its height is over. -/
def Alignment (c : Controller) (a : Agenda) (tasks : List Task) (events : List LateEvent) : Prop :=
  ∃ t p, c.stage = .running t p ∧ Ledger c tasks (a.queue events) t.height ∧
    a.Awaits (p.phase ≠ .committed ∧ Aligned c tasks (a.queue events) t.height p)

variable {a a' : Agenda} {t : Term} {moment : Moment} {es : List Effect}

theorem Ledger.subset {events' : List LateEvent} (h : Ledger c tasks events height)
    (subset : events' ⊆ events) : Ledger c tasks events' height :=
  ⟨h.numbers, h.fresh, h.scopes, h.tasks_le, fun e he => h.events_le e (subset he)⟩

theorem Agenda.subset_queue (a : Agenda) (events : List LateEvent) : events ⊆ a.queue events := by
  rcases a with (_ | _ | e) | _ | _ | _ | _ <;>
    first | exact List.subset_cons_self _ _ | exact List.Subset.refl _

/-- An event that is handled is no longer waiting. -/
theorem Stocked.take {e : LateEvent} (h : Stocked c tasks (e :: events) height view n) :
    ∃ left, Stocked c tasks events height view left ∧
      n = left + if e.reports height view then 1 else 0 := by
  have hevents := List.subset_cons_self e events
  refine ⟨examinations height view tasks events, ⟨h.toLedger.subset hevents, h.scope, h.wanted,
    h.tasks_in, fun e' he' => h.events_in e' (hevents he'), rfl⟩, ?_⟩
  rw [← h.count, examinations, examinations, List.countP_cons, Nat.add_assoc]

/-- **Something on the agenda comes to the active term.** -/
theorem Aligned.handed {metrics : List Metric} {stimulus : Stimulus} {messages : List Message}
    (gives : Gives t p a metrics stimulus messages)
    (h : Aligned c tasks (a.queue events) t.height p) :
    Handed c tasks events t.height p stimulus := by
  obtain ⟨n, hstocked, htuned, hexamining⟩ := h
  cases gives with
  | message => exact ⟨n, hstocked, htuned.view?, Or.inr htuned, hexamining⟩
  | trigger => exact ⟨n, hstocked, htuned.view?, Or.inl rfl, hexamining⟩
  | @late event =>
    obtain ⟨left, htaken, hcount⟩ := Stocked.take hstocked
    have hreports : n = left + (Stimulus.event event).reports p.view := by
      rw [hcount, LateEvent.reports, beq_self_eq_true, Bool.true_and]
      rfl
    refine ⟨left, htaken, htuned.view?, ?_, hreports ▸ hexamining⟩
    obtain ⟨armed, harmed, ⟨hview, hnote⟩, hcome⟩ := htuned
    rcases hcome with hpending | hqueued
    · exact Or.inr ⟨armed, harmed, ⟨hview, hnote⟩, Or.inl hpending⟩
    · rcases List.mem_cons.1 hqueued with heq | hqueued
      · have hevent : Event.electionTimeout armed.view = event := congrArg LateEvent.event heq
        rw [hview] at hevent
        exact Or.inl (congrArg Stimulus.event hevent.symm)
      · exact Or.inr ⟨armed, harmed, ⟨hview, hnote⟩, Or.inr hqueued⟩

/-- A late event of another height changes nothing. -/
theorem Aligned.skip {e : LateEvent} (h : Aligned c tasks (e :: events) height p)
    (other : e.height ≠ height) : Aligned c tasks events height p := by
  obtain ⟨n, hstocked, htuned, hexamining⟩ := h
  obtain ⟨left, htaken, hcount⟩ := Stocked.take hstocked
  rw [LateEvent.reports, beq_false_of_ne other, Bool.false_and, if_neg (by simp),
    Nat.add_zero] at hcount
  refine ⟨left, htaken, ?_, hcount ▸ hexamining⟩
  obtain ⟨armed, harmed, ⟨hview, hnote⟩, hcome⟩ := htuned
  refine ⟨armed, harmed, ⟨hview, hnote⟩, hcome.imp_right fun hqueued => ?_⟩
  rcases List.mem_cons.1 hqueued with heq | hqueued
  · exact absurd ((congrArg LateEvent.height heq).symm.trans hnote) other
  · exact hqueued

namespace Alignment

/-- Only a running term with all in order is spared by an agenda that waits for it. -/
theorem open_of_awaits {fits : Prop} {metrics : List Metric} {stimulus : Stimulus}
    {messages : List Message} (gives : Gives t p a metrics stimulus messages)
    (h : a.Awaits fits) : fits := by
  cases gives <;> exact h

theorem queue_after (decided : Option Decision) (messages : List Message) :
    (Agenda.after decided messages).queue events = events := by
  cases decided <;> rfl

/-- Every move keeps it. -/
theorem move (h : Alignment c a tasks events) (move : Move moment c a es c' a') :
    Alignment c' a' (tasks ++ launchedIn es) events := by
  obtain ⟨t, p, hstage, hledger, hawaits⟩ := h
  cases move with
  | begin => exact hawaits.elim
  | sift =>
    obtain ⟨hlive, n, hstocked, htuned, hexamining⟩ := hawaits
    rw [append_launchedIn tasks (launchedIn_reports _)]
    exact ⟨t, p, hstage, hledger.congr rfl rfl, hlive, n, hstocked.congr rfl rfl,
      htuned.congr rfl, hexamining⟩
  | @react t' p' _ metrics stimulus messages s stage gives react =>
    obtain ⟨rfl, rfl⟩ := Stage.running.inj (hstage.symm.trans stage)
    obtain ⟨hlive, haligned⟩ := open_of_awaits gives hawaits
    have hlater : stimulus ≠ .start := by
      cases gives <;> simp
    have hfollowed : Ledger (c.followed moment.now t s)
        (tasks ++ launchedIn (metrics.map .report ++ c.followedBy moment.now t s)) events
          t.height := by
      have hadopting : Ledger (c.adopting t s.progress) tasks events t.height :=
        (hledger.subset (a.subset_queue events)).congr rfl rfl
      rw [launchedIn_append, launchedIn_reports, List.nil_append, followedBy, launchedIn_append,
        launchedIn_reports, List.nil_append]
      exact hadopting.obeyAll s.requests
    refine ⟨t, s.progress, (resembles_followed c moment.now t s).stage, ?_, ?_⟩
    · rw [queue_after]
      exact hfollowed
    · rw [queue_after]
      rcases Term.react_decides_once react hlive with ⟨hnone, hopen⟩ | ⟨d, hd, -⟩
      · rw [Step.decision?, hnone, launchedIn_append, launchedIn_reports, List.nil_append]
        exact ⟨hopen, (haligned.handed gives).react hlive hlater react hopen⟩
      · rw [Step.decision?, hd]
        trivial
  | skip skips =>
    cases skips with
    | message stage => exact absurd (hstage.symm.trans stage) (by simp)
    | trigger idle =>
      rw [view?, progress?, hstage] at idle
      exact absurd idle (by simp)
    | @late e other =>
      obtain ⟨hlive, haligned⟩ := hawaits
      have hne : e.height ≠ t.height := fun heq => other (by rw [height?, hstage, heq])
      rw [append_launchedIn tasks launchedIn_nil]
      exact ⟨t, p, hstage, hledger.subset (List.subset_cons_self _ _), hlive, haligned.skip hne⟩
    | useless =>
      rw [append_launchedIn tasks launchedIn_nil]
      exact ⟨t, p, hstage, hledger, hawaits⟩
    | unproven =>
      rw [append_launchedIn tasks rfl]
      exact ⟨t, p, hstage, hledger, hawaits⟩
  | adopt =>
    rw [append_launchedIn tasks rfl]
    exact ⟨t, p, hstage, hledger.congr rfl rfl, trivial⟩
  | commit =>
    rw [append_launchedIn tasks rfl]
    exact ⟨t, p, hstage, hledger.congr rfl rfl, trivial⟩
  | succeed =>
    rw [append_launchedIn tasks launchedIn_nil]
    exact ⟨t, p, hstage, hledger, trivial⟩
  | @start height committee release check =>
    have hlt : t.height < height := by
      rw [checkStart, height?, hstage] at check
      dsimp only at check
      split at check
      · assumption
      · exact absurd check (by simp)
    obtain ⟨n, hstocked, htuned, hexamining⟩ :=
      (hledger.leave hlt).begun moment.now committee
    have hstart := resembles_followed (c.leave height) moment.now
      ((c.leave height).termAt height committee) (c.firstStep height committee)
    rw [launchedIn_append, launchedIn_reports, List.append_nil]
    exact ⟨_, _, hstart.stage, hstocked.toLedger.congr rfl rfl,
      by simp [firstStep, Term.start, Progress.initial], n, hstocked.congr rfl rfl,
      htuned.congr rfl, hexamining⟩

end Alignment

/-! ## Between calls -/

theorem Ledger.filter (h : Ledger c tasks events height) (wanted : Task → Bool) :
    Ledger c (tasks.filter wanted) events height where
  numbers := (List.filter_sublist.map _).nodup h.numbers
  fresh task htask := h.fresh task (List.mem_filter.1 htask).1
  scopes task htask := h.scopes task (List.mem_filter.1 htask).1
  tasks_le task htask := h.tasks_le task (List.mem_filter.1 htask).1
  events_le := h.events_le

theorem Ledger.arrive (h : Ledger c tasks events height) {e : LateEvent} (le : e.height ≤ height) :
    Ledger c tasks (events ++ [e]) height := by
  refine { h with events_le := fun e' he' => ?_ }
  rcases List.mem_append.1 he' with he' | he'
  · exact h.events_le e' he'
  · rw [List.mem_singleton.1 he']
    exact le

theorem Tuned.arrive (h : Tuned c events height view) (e : LateEvent) :
    Tuned c (events ++ [e]) height view := by
  obtain ⟨armed, harmed, hhere, hcome⟩ := h
  exact ⟨armed, harmed, hhere, hcome.imp_right (List.mem_append_left _)⟩

/-- What is of no use any more is of another view, so that nothing is missed. -/
theorem Stocked.cancel (h : Stocked c tasks events height view n) :
    Stocked c (tasks.filter c.wants) events height view n := by
  refine ⟨h.toLedger.filter _, h.scope, fun task htask => h.wanted task (List.mem_filter.1 htask).1,
    fun task htask => h.tasks_in task (List.mem_filter.1 htask).1, h.events_in, ?_⟩
  have hkept : (tasks.filter c.wants).countP (·.examines height view) =
      tasks.countP (·.examines height view) := by
    rw [List.countP_filter]
    refine List.countP_congr fun task htask => ?_
    rw [Bool.and_eq_true, and_iff_left_iff_imp]
    intro hexamines
    exact beq_iff_eq.2 ((h.wanted task htask).2 (Task.of_examines hexamines))
  rw [examinations, hkept]
  exact h.count

/-- **The timer fires**, and its event waits. -/
theorem Aligned.fire {armed : Armed Height} (h : Aligned c tasks events height p)
    (pending : c.timer.pending? = some armed) :
    Aligned { c with timer := c.timer.fired } tasks (events ++ [Session.timerEvent armed]) height
      p ∧ armed.note = height := by
  obtain ⟨n, hstocked, ⟨armed', harmed, ⟨hview, hnote⟩, -⟩, hexamining⟩ := h
  rw [ElectionTimer.pending?, Option.filter_eq_some_iff] at pending
  obtain rfl : armed' = armed := Option.some.inj (harmed.symm.trans pending.1)
  have hplain : ∀ later, (Session.timerEvent armed').reports height later = false :=
    fun later => by rw [LateEvent.reports]; exact Bool.and_false _
  have hfired : Stocked { c with timer := c.timer.fired } tasks
      (events ++ [Session.timerEvent armed']) height p.view n := by
    have hledger : Ledger { c with timer := c.timer.fired } tasks
        (events ++ [Session.timerEvent armed']) height :=
      (hstocked.toLedger.arrive (Nat.le_of_eq hnote)).congr rfl rfl
    refine ⟨hledger, hstocked.scope, hstocked.wanted, hstocked.tasks_in,
      fun e he later hlater => ?_, ?_⟩
    · rcases List.mem_append.1 he with he | he
      · exact hstocked.events_in e he later hlater
      · rw [List.mem_singleton.1 he]
        exact hplain later
    · rw [examinations, List.countP_append, List.countP_singleton, hplain, if_neg (by simp),
        Nat.add_zero]
      exact hstocked.count
  refine ⟨⟨n, hfired, ⟨{ armed' with pending := false }, ?_, ⟨hview, hnote⟩, Or.inr ?_⟩,
    hexamining⟩, hnote⟩
  · show c.timer.armed.map _ = _
    rw [harmed]
    rfl
  · exact List.mem_append_right _ (List.mem_singleton.2 rfl)

/-- **The host answers**: a task less, and an event more. -/
theorem Stocked.answer {task : Task} (h : Stocked c tasks events height view n)
    (mem : task ∈ tasks) (answer : Answer) :
    Stocked c (tasks.filter (·.number != task.number)) (events ++ [(task.conclude answer).1]) height
      view n := by
  have hle : (task.conclude answer).1.height ≤ height := by
    rw [Task.height_conclude]
    exact h.tasks_le task mem
  have hledger := (h.toLedger.filter (·.number != task.number)).arrive hle
  refine ⟨hledger, h.scope, fun task htask => h.wanted task (List.mem_filter.1 htask).1,
    fun task htask => h.tasks_in task (List.mem_filter.1 htask).1, fun e he later hlater => ?_, ?_⟩
  · rcases List.mem_append.1 he with he | he
    · exact h.events_in e he later hlater
    · rw [List.mem_singleton.1 he, Task.reports_conclude]
      refine Bool.eq_false_iff.2 fun hexamines => ?_
      obtain ⟨hheight, hview⟩ := Task.of_examines hexamines
      exact Nat.not_le_of_lt hlater (hview ▸ h.tasks_in task mem hheight)
  · rw [examinations, List.countP_append, List.countP_singleton, Task.reports_conclude, ← h.count,
      examinations, countP_without h.numbers mem]
    omega

namespace Alignment

variable {promise : Promise}

/-- Whatever happens keeps it. -/
theorem kept : Session.Invariant promise moment fun _ => Alignment where
  input h _ := h
  late h := h
  move hmove h := h.move hmove
  cancel := fun ⟨t, p, hstage, hledger, hlive, n, hstocked, htuned, hexamining⟩ =>
    ⟨t, p, hstage, hledger.filter _, hlive, n, hstocked.cancel, htuned, hexamining⟩
  timer := by
    intro es c tasks events armed ⟨t, p, hstage, hledger, hlive, haligned⟩ pending
    obtain ⟨hfired, hnote⟩ := haligned.fire pending
    exact ⟨t, p, hstage, (hledger.arrive (Nat.le_of_eq hnote)).congr rfl rfl, hlive, hfired⟩
  answer := by
    intro es c tasks events task answer ⟨t, p, hstage, hledger, hlive, n, hstocked, htuned,
      hexamining⟩ found _
    have hanswered := hstocked.answer (List.mem_of_find?_eq_some found) answer
    exact ⟨t, p, hstage, hanswered.toLedger, hlive, n, hanswered, htuned.arrive _, hexamining⟩

end Alignment

/-- The tasks of a session are of use to its controller. -/
theorem Session.wants_step {s : Session} {happening : Happening}
    (h : ∀ task ∈ s.tasks, s.controller.wants task = true) :
    ∀ task ∈ (s.step moment happening).session.tasks,
      (s.step moment happening).session.controller.wants task = true := by
  have hcall : ∀ (s : Session) (act : Activity Unit), ∀ task ∈ (s.call moment act).session.tasks,
      (s.call moment act).session.controller.wants task = true :=
    fun _ _ task htask => (List.mem_filter.1 htask).2
  cases happening with
  | start height => exact hcall s _
  | input input => exact hcall s _
  | timer =>
    show ∀ task ∈ s.fireTimer.tasks, s.fireTimer.controller.wants task = true
    rw [fireTimer]
    split <;> exact h
  | answer number answer =>
    rw [Session.step, conclude]
    split
    · exact h
    · exact fun task htask => h task (List.mem_filter.1 htask).1
  | attend =>
    rw [Session.step, attend]
    split
    · exact h
    · exact hcall _ _
  | inputsClosed => exact h
  | shutdown => exact h

namespace Lives

variable {config : Config} {capabilities : Capabilities} {first : Height} {promise : Promise}
  {life : Life}

theorem alignment (config : Config) (capabilities : Capabilities) (first : Height)
    (promise : Promise) :
    Invariant config capabilities first promise fun _ _ => Alignment where
  begins := by
    intro moment committee release names free
    have hunborn : Stocked ((Controller.initial config capabilities).leave first) [] [] first 0 0 :=
      ⟨⟨List.nodup_nil, fun _ h => absurd h List.not_mem_nil, fun _ h => absurd h List.not_mem_nil,
        fun _ h => absurd h List.not_mem_nil, fun _ h => absurd h List.not_mem_nil⟩, rfl,
        fun _ h => absurd h List.not_mem_nil, fun _ h => absurd h List.not_mem_nil,
        fun _ h => absurd h List.not_mem_nil, rfl⟩
    obtain ⟨n, hstocked, htuned, hexamining⟩ := hunborn.begun moment.now committee
    have hstart := resembles_followed ((Controller.initial config capabilities).leave first)
      moment.now (((Controller.initial config capabilities).leave first).termAt first committee)
      ((Controller.initial config capabilities).firstStep first committee)
    rw [launchedIn_append, launchedIn_reports, List.append_nil]
    exact ⟨_, _, hstart.stage, hstocked.toLedger.congr rfl rfl,
      by simp [firstStep, Term.start, Progress.initial], n, hstocked.congr rfl rfl,
      htuned.congr rfl, hexamining⟩
  later h := h
  kept _ := Alignment.kept

theorem wants (h : Lives config capabilities first promise life) :
    ∀ task ∈ life.session.tasks, life.session.controller.wants task = true := by
  induction h with
  | unborn => exact fun _ htask => absurd htask List.not_mem_nil
  | next lives allows kept ih => exact Session.wants_step ih

/-- **The timer and the tasks are those of the current view.**  Whenever a running member is at
rest, its election timer is armed for the height and the view of its term, and the timeout is to
come: the timer did not fire yet, or its event still waits.  The scope that is alive is of the
view as well, and every task under way was started for the height and the view.  The host is
examining a proposal of the view, or is done with it while the term has not heard of it, exactly
if the term waits for that; and then it is one proposal. -/
theorem timer_and_tasks_aligned (h : Lives config capabilities first promise life)
    (running : life.Running) :
    ∃ t p, life.session.controller.stage = .running t p ∧
      ((∃ armed, life.session.controller.timer.armed = some armed ∧
          (armed.view = p.view ∧ armed.note = t.height) ∧
            (armed.pending = true ∨ Session.timerEvent armed ∈ life.session.events)) ∧
        life.session.controller.scope.view = p.view) ∧
      (∀ task ∈ life.session.tasks, task.height = t.height ∧ task.work.view = p.view) ∧
      ((p.validating = none ∧
          examinations t.height p.view life.session.tasks life.session.events = 0) ∨
        (p.validating = some p.view ∧
          examinations t.height p.view life.session.tasks life.session.events = 1)) := by
  obtain ⟨t, p, hstage, -, -, n, hstocked, ⟨armed, harmed, hhere, hcome⟩, hexamining⟩ :=
    keeps (alignment config capabilities first promise) h running
  refine ⟨t, p, hstage, ⟨⟨armed, harmed, hhere, hcome⟩, hstocked.scope⟩, fun task htask => ?_, ?_⟩
  · exact (hstocked.wanted task htask).1 (beq_iff_eq.1 (h.wants task htask))
  · have hcount : examinations t.height p.view life.session.tasks life.session.events = n :=
      hstocked.count
    rw [hcount]
    exact hexamining

/-- A member of a committee of four has started height `1` and received a proposal, and then its
timer fires. -/
def examiningLife : Life :=
  (((Life.unborn .standard (Assembly.sample.capabilities 1)).after ⟨0, fun _ _ => .ok [0, 1, 2, 3]⟩
    (.start 1)).after ⟨1, fun _ _ => .ok [0, 1, 2, 3]⟩
      (.input (.message (.prePrepare ((Assembly.sample.capabilities 0).keys.prePrepare 1 0
        Assembly.sampleBlock.1 Assembly.sampleBlock.2))))).after
          ⟨2, fun _ _ => .ok [0, 1, 2, 3]⟩ .timer

theorem examiningLife_lives :
    Lives .standard (Assembly.sample.capabilities 1) 1 .nothing examiningLife := by
  refine .next (.next (.next .unborn ⟨rfl, rfl⟩ trivial) ⟨List.cons_ne_nil _ _, ?_⟩ trivial)
    ⟨List.cons_ne_nil _ _, ?_⟩ trivial
  · decide +kernel
  · decide +kernel

/-- The proposal is examined, and the event of the timer waits. -/
theorem timer_and_tasks_aligned_sample :
    ∃ t p, examiningLife.session.controller.stage = .running t p ∧ (t.height = 1 ∧ p.view = 0) ∧
      (∃ armed, examiningLife.session.controller.timer.armed = some armed ∧ armed.view = 0 ∧
        Session.timerEvent armed ∈ examiningLife.session.events) ∧
      p.validating = some 0 ∧
        examinations 1 0 examiningLife.session.tasks examiningLife.session.events = 1 := by
  have hstand : examiningLife.ending = none ∧
      examiningLife.session.controller.height? = some 1 ∧
      examiningLife.session.controller.view? = some 0 ∧
      examiningLife.session.controller.timer.pending? = none ∧
      examinations 1 0 examiningLife.session.tasks examiningLife.session.events = 1 := by
    decide +kernel
  obtain ⟨hends, hheight, hview, hfired, hone⟩ := hstand
  obtain ⟨t, p, hstage, ⟨⟨armed, harmed, ⟨hview', -⟩, hcome⟩, -⟩, -, hexamining⟩ :=
    timer_and_tasks_aligned examiningLife_lives ⟨List.cons_ne_nil _ _, hends⟩
  rw [Controller.height?, hstage] at hheight
  rw [Controller.view?, Controller.progress?, hstage] at hview
  have hheight : t.height = 1 := Option.some.inj hheight
  have hview : p.view = 0 := Option.some.inj hview
  rw [ElectionTimer.pending?, harmed, Option.filter_some] at hfired
  refine ⟨t, p, hstage, ⟨hheight, hview⟩, ⟨armed, harmed, hview'.trans hview, ?_⟩, ?_, hone⟩
  · refine hcome.resolve_left fun hpending => ?_
    rw [hpending] at hfired
    exact absurd hfired (by simp)
  · rw [hheight, hview, hone] at hexamining
    exact (hexamining.resolve_left fun hnone => absurd hnone.2 (by simp)).1

end Lives

end CommitteeConsensus
