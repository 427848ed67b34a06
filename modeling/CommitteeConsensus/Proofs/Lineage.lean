import CommitteeConsensus.Proofs.Orderly
import CommitteeConsensus.Proofs.Situation

/-!
# Heights only go up, and the chain is linked

A controller starts heights and commits blocks.  Both can happen many times in one call: a
decision is committed, the next height is started, a cached message decides it, and so on; and
a block that the network committed may take the member along over any number of heights.
Whatever the way, the heights that are committed ascend, and so do the heights that are
started (`Lives.heights_ascend_linked`).

What was done to the world is read off the effects.  A commit is an effect of its own.  The
start of a height is reported on the gauge of the height, and nothing else is
(`Term.plain_react` and the other lemmas of that name).

Between calls the active term builds on the last block, or it is the first one.  That part is
a `Situation`; what is added here is where the committee came from, and a bound on the heights
seen so far.  The bound is the active height, but for the moments between a commit and the
start of the next height (`Agenda.horizon`).
-/

namespace CommitteeConsensus

/-! ## What is reported -/

/-- Nothing is said of heights: neither that one was started nor that one was decided. -/
def Metric.Plain : Metric → Prop
  | .set .height _ | .count .decisionsByConsensus _ | .count .decisionsBySync _ => False
  | _ => True

/-- Nothing is said of heights. -/
def Plain (metrics : List Metric) : Prop := ∀ metric ∈ metrics, metric.Plain

theorem plain_nil : Plain [] := fun _ h => absurd h List.not_mem_nil

theorem plain_singleton {metric : Metric} (h : metric.Plain) : Plain [metric] := fun m hm => by
  rw [List.mem_singleton.1 hm]
  exact h

theorem plain_dropped (reason : DropReason) : Plain [.dropped reason] := plain_singleton trivial

theorem plain_view (view : View) : Plain [.set .view view] := plain_singleton trivial

theorem Plain.append {ms ms' : List Metric} (h : Plain ms) (h' : Plain ms') :
    Plain (ms ++ ms') := fun m hm => (List.mem_append.1 hm).elim (h m) (h' m)

theorem Plain.cons {metric : Metric} {ms : List Metric} (h : Plain ms) (first : metric.Plain) :
    Plain (metric :: ms) := (plain_singleton first).append h

namespace Term

variable {t : Term} {p : Progress}

theorem plain_quiet (p : Progress) : Plain (Step.quiet p).metrics := plain_nil

theorem plain_drop (p : Progress) (reason : DropReason) : Plain (Step.drop p reason).metrics :=
  plain_dropped reason

theorem plain_ask (p : Progress) (rs : List Request) : Plain (Step.ask p rs).metrics := plain_nil

theorem plain_andThen {s : Step} {next : Progress → Step} (h : Plain s.metrics)
    (h' : ∀ p, Plain (next p).metrics) : Plain (s.andThen next).metrics := h.append (h' _)

theorem plain_checkCommitted (p : Progress) (hash : BlockHash) :
    Plain (t.checkCommitted p hash).metrics := by
  rw [checkCommitted]
  split
  · exact plain_quiet _
  · split
    · exact plain_quiet _
    · dsimp only
      split
      · exact plain_ask _ _
      · exact plain_quiet _

theorem plain_commitTo (p : Progress) (hash : BlockHash) : Plain (t.commitTo p hash).metrics := by
  rw [commitTo]
  split
  · exact plain_quiet _
  · exact plain_ask _ _

theorem plain_checkPrepared (p : Progress) : Plain (t.checkPrepared p).metrics := by
  rw [checkPrepared]
  split
  · split
    · exact plain_quiet _
    · split
      · exact plain_andThen (plain_commitTo _ _) fun p => plain_checkCommitted p _
      · exact plain_quiet _
  · exact plain_quiet _

theorem plain_voteFor (p : Progress) (m : PrePrepare) : Plain (t.voteFor p m).metrics := by
  rw [voteFor]
  split
  · exact plain_quiet _
  · exact plain_ask _ _

theorem plain_accept (p : Progress) (m : PrePrepare) : Plain (t.accept p m).metrics := by
  rw [accept]
  split
  · exact plain_quiet _
  · exact plain_andThen (plain_ask _ _) fun p => plain_andThen (plain_voteFor p m) fun p =>
      plain_andThen (plain_checkPrepared p) fun p => plain_checkCommitted p _

theorem plain_openView (p : Progress) (view : View) (block : Block) (hash : BlockHash)
    (votes : List Confirmation) : Plain (t.openView p view block hash votes).metrics :=
  plain_andThen (plain_singleton trivial) fun p => plain_accept p _

/-- If something comes of it, nothing is said of heights. -/
def PlainIfOk (result : Except Fault Step) : Prop := ∀ s, result = .ok s → Plain s.metrics

theorem plainIfOk_ok {s : Step} (h : Plain s.metrics) : PlainIfOk (.ok s) := fun s' hs' => by
  rw [← Except.ok.inj hs']
  exact h

theorem plainIfOk_error (fault : Fault) : PlainIfOk (.error fault) := fun s hs =>
  absurd hs (by simp)

theorem PlainIfOk.bind {result : Except Fault Step} {next : Step → Except Fault Step}
    (h : PlainIfOk result) (h' : ∀ s, Plain s.metrics → PlainIfOk (next s)) :
    PlainIfOk (result >>= next) := by
  rcases result with fault | s
  · exact plainIfOk_error fault
  · exact h' s (h s rfl)

theorem PlainIfOk.andThen {result : Except Fault Step} {next : Progress → Step}
    (h : PlainIfOk result) (h' : ∀ p, Plain (next p).metrics) :
    PlainIfOk (result >>= fun s => .ok (s.andThen next)) :=
  h.bind fun _ hs => plainIfOk_ok (plain_andThen hs h')

theorem plain_enterView (p : Progress) (view : View) : PlainIfOk (p.enterView view) := by
  rw [Progress.enterView]
  split
  · exact plainIfOk_ok ((plain_view view).cons trivial)
  · exact plainIfOk_error _

/-- A leader that takes a view on opens it, or waits for a block. -/
theorem plain_openOrWait (votes : List ViewChange) (confirmations : List Confirmation)
    (view : View) (p : Progress) :
    Plain (match reproposal votes with
      | some (block, hash) => t.openView p view block hash confirmations
      | none => Step.ask { p with pendingNewView := some (view, confirmations) }
          [.buildProposal view]).metrics := by
  split
  · exact plain_openView _ _ _ _ _
  · exact plain_ask _ _

theorem plain_checkViewChanges (p : Progress) (view : View) :
    PlainIfOk (t.checkViewChanges p view) := by
  rw [checkViewChanges]
  dsimp only
  split
  · exact plainIfOk_ok (plain_quiet _)
  · have hopen := plain_openOrWait (t := t) (p.log.viewChangesFor t.height view)
      ((p.log.viewChangesFor t.height view).map fun vote => vote.signed) view
    split
    · exact (plain_enterView _ _).bind fun moved hmoved => PlainIfOk.andThen
        (plainIfOk_ok (plain_andThen hmoved fun p => plain_ask _ _)) hopen
    · exact PlainIfOk.andThen (plainIfOk_ok (plain_quiet _)) hopen

theorem plain_onElectionTimeout (p : Progress) (view : View) :
    PlainIfOk (t.onElectionTimeout p view) := by
  rw [onElectionTimeout]
  split
  · exact plainIfOk_ok (plain_quiet _)
  · rcases nextView view with fault | next
    · exact plainIfOk_error fault
    refine (plain_enterView p next).bind fun moved hmoved => ?_
    have hscheduled : Plain (moved.andThen fun p => .ask p [.scheduleElection next]).metrics :=
      plain_andThen hmoved fun p => plain_ask _ _
    dsimp only
    split
    · exact plainIfOk_ok hscheduled
    · split
      · exact (plain_checkViewChanges _ _).bind fun asked hasked =>
          plainIfOk_ok (plain_andThen hscheduled fun _ => hasked)
      · exact plainIfOk_ok (plain_andThen hscheduled fun _ => plain_ask _ _)

theorem plain_onViewChange (p : Progress) (m : ViewChange) : PlainIfOk (t.onViewChange p m) := by
  rw [onViewChange]
  split
  · exact plainIfOk_ok (plain_drop _ _)
  split
  · exact plainIfOk_ok (plain_drop _ _)
  split
  · exact plainIfOk_ok (plain_drop _ _)
  split
  · exact plainIfOk_ok (plain_drop _ _)
  · exact plain_checkViewChanges _ _

theorem plain_onProposalBuilt (p : Progress) (view : View) (proposal : Option (Block × BlockHash)) :
    PlainIfOk (t.onProposalBuilt p view proposal) := by
  unfold onProposalBuilt
  split
  · exact plainIfOk_ok (plain_quiet _)
  split
  · exact plainIfOk_ok (plain_quiet _)
  split
  · split
    · exact plainIfOk_ok (plain_openView _ _ _ _ _)
    · exact plainIfOk_error _
  · split
    · exact plainIfOk_ok (plain_quiet _)
    · exact plainIfOk_ok (plain_andThen (plain_ask _ _) fun p => plain_accept p _)

theorem plain_onNewView (p : Progress) (m : NewView) : PlainIfOk (t.onNewView p m) := by
  rw [onNewView]
  dsimp only
  split
  · exact plainIfOk_ok (plain_drop _ _)
  split
  · exact plainIfOk_ok (plain_drop _ _)
  split
  · exact plainIfOk_ok (plain_drop _ _)
  · split
    · exact (plain_enterView _ _).andThen fun p => plain_ask _ _
    · exact PlainIfOk.andThen (plainIfOk_ok (plain_quiet _)) fun p => plain_ask _ _

theorem plain_onPrePrepare (p : Progress) (m : PrePrepare) :
    Plain (t.onPrePrepare p m).metrics := by
  rw [onPrePrepare]
  split
  · exact plain_drop _ _
  split
  · exact plain_drop _ _
  split
  · exact plain_ask _ _
  · exact plain_drop _ _

theorem plain_onPrepare (p : Progress) (m : Signed PrepareContent) :
    Plain (t.onPrepare p m).metrics := by
  rw [onPrepare]
  dsimp only
  split
  · exact plain_drop _ _
  split
  · exact plain_drop _ _
  split
  · exact plain_drop _ _
  split
  · exact plain_drop _ _
  split
  · exact plain_checkPrepared _
  · exact plain_quiet _

theorem plain_onCommit (p : Progress) (m : Signed CommitContent) :
    Plain (t.onCommit p m).metrics := by
  rw [onCommit]
  dsimp only
  split
  · exact plain_drop _ _
  split
  · exact plain_drop _ _
  split
  · exact plain_drop _ _
  split
  · exact plain_drop _ _
  split
  · exact plain_checkCommitted _ _
  · exact plain_quiet _

theorem plain_onValidated (p : Progress) (m : PrePrepare) (valid : Bool) :
    Plain (t.onValidated p m valid).metrics := by
  rw [onValidated]
  split
  · exact plain_quiet _
  · dsimp only
    split
    · exact plain_accept _ _
    · exact plain_quiet _

theorem plain_handleMessage (p : Progress) (m : Message) : PlainIfOk (t.handleMessage p m) := by
  unfold handleMessage
  split
  · exact plainIfOk_error _
  split
  · exact plainIfOk_ok (plain_quiet _)
  split
  · exact plainIfOk_ok (plain_drop _ _)
  cases m with
  | prePrepare m => exact plainIfOk_ok (plain_onPrePrepare p m)
  | prepare m => exact plainIfOk_ok (plain_onPrepare p m)
  | commit m => exact plainIfOk_ok (plain_onCommit p m)
  | viewChange m => exact plain_onViewChange p m
  | newView m => exact plain_onNewView p m

theorem plain_handleEvent (p : Progress) (e : Event) : PlainIfOk (t.handleEvent p e) := by
  unfold handleEvent
  split
  · exact plainIfOk_ok (plain_quiet _)
  cases e with
  | electionTimeout view => exact plain_onElectionTimeout p view
  | proposalBuilt view proposal => exact plain_onProposalBuilt p view proposal
  | validationFinished m valid => exact plainIfOk_ok (plain_onValidated p m valid)

/-- A term says nothing of heights. -/
theorem plain_react (p : Progress) (stimulus : Stimulus) : PlainIfOk (t.react p stimulus) := by
  cases stimulus with
  | start => exact plainIfOk_ok (plain_view p.view)
  | message m => exact plain_handleMessage p m
  | event e => exact plain_handleEvent p e

end Term

namespace Admission

variable {a : Admission}

theorem plain_cachedLevel (a : Admission) : Plain [a.cachedLevel] := plain_singleton trivial

theorem plain_evictOldest (a : Admission) : Plain a.evictOldest.2 := by
  rw [evictOldest]
  split
  · exact plain_nil
  · split
    · exact plain_nil
    · exact plain_dropped _

theorem plain_hold {m : Message} {held : Admission} {metrics : List Metric}
    (h : a.hold m = .ok (held, metrics)) : Plain metrics := by
  rw [hold] at h
  dsimp only at h
  split at h
  · split at h
    · exact absurd h (by simp)
    · obtain ⟨-, rfl⟩ := Prod.mk.inj (Except.ok.inj h)
      exact (plain_cachedLevel _).cons trivial
  · split at h
    · obtain ⟨-, rfl⟩ := Prod.mk.inj (Except.ok.inj h)
      exact (plain_evictOldest _).append (plain_cachedLevel _)
    · obtain ⟨-, rfl⟩ := Prod.mk.inj (Except.ok.inj h)
      exact plain_cachedLevel _

/-- The filter says nothing of heights. -/
theorem plain_offer {m : Message} {answer : Answer} (h : a.offer m = .ok answer) :
    Plain answer.metrics := by
  rw [offer] at h
  split at h
  · rw [← Except.ok.inj h]
    exact plain_dropped _
  split at h
  · rw [← Except.ok.inj h]
    exact plain_dropped _
  split at h
  · rw [← Except.ok.inj h]
    exact plain_nil
  split at h
  · rw [← Except.ok.inj h]
    exact plain_dropped _
  rcases hheld : a.hold m with fault | ⟨held, metrics⟩
  · rw [hheld] at h
    exact absurd h (by simp [bind, Except.bind])
  · rw [hheld] at h
    rw [← Except.ok.inj h]
    exact plain_hold hheld

theorem plain_setHeight {height : Height} {release : Release}
    (h : a.setHeight height = .ok release) : Plain release.metrics := by
  rw [setHeight] at h
  split at h
  · exact absurd h (by simp)
  · rcases hnext : nextHeight height with fault | next
    · rw [hnext] at h
      exact absurd h (by simp [bind, Except.bind])
    · rw [hnext] at h
      rw [← Except.ok.inj h]
      exact plain_cachedLevel _

end Admission

theorem plain_conclude (task : Task) (answer : Answer) : Plain (task.conclude answer).2 := by
  obtain ⟨number, height, scope, previous, work⟩ := task
  cases work <;> cases answer <;> first | exact plain_nil | exact plain_singleton trivial

/-! ## Heights among effects -/

/-- The height that an effect commits. -/
def Effect.committed? : Effect → Option Height
  | .commit decision => some decision.height
  | _ => none

/-- The height that an effect starts. -/
def Effect.started? : Effect → Option Height
  | .report (.set .height height) => some height
  | _ => none

/-- The heights that were committed, in order. -/
def committedIn (es : List Effect) : List Height := es.filterMap (·.committed?)

/-- The heights that were started, in order. -/
def startedIn (es : List Effect) : List Height := es.filterMap (·.started?)

@[simp] theorem committedIn_append (es es' : List Effect) :
    committedIn (es ++ es') = committedIn es ++ committedIn es' := List.filterMap_append

@[simp] theorem startedIn_append (es es' : List Effect) :
    startedIn (es ++ es') = startedIn es ++ startedIn es' := List.filterMap_append

/-- No height is committed, and none is started. -/
def Uneventful (es : List Effect) : Prop := committedIn es = [] ∧ startedIn es = []

theorem uneventful_nil : Uneventful [] := ⟨rfl, rfl⟩

theorem Uneventful.append {es es' : List Effect} (h : Uneventful es) (h' : Uneventful es') :
    Uneventful (es ++ es') := by
  rw [Uneventful, committedIn_append, startedIn_append, h.1, h.2, h'.1, h'.2]
  exact ⟨rfl, rfl⟩

theorem uneventful_reports {metrics : List Metric} (h : Plain metrics) :
    Uneventful (metrics.map .report) := by
  rw [Uneventful, committedIn, startedIn, List.filterMap_map, List.filterMap_map]
  refine ⟨List.filterMap_eq_nil_iff.2 fun _ _ => rfl,
    List.filterMap_eq_nil_iff.2 fun metric hmetric => ?_⟩
  show (Effect.report metric).started? = none
  unfold Effect.started?
  split
  · next height heq =>
    have hplain : (Metric.set .height height).Plain := Effect.report.inj heq ▸ h metric hmetric
    exact hplain.elim
  · rfl

theorem uneventful_ask (height : Height) (seed : Seed) :
    Uneventful [.askCommittee height seed] := ⟨rfl, rfl⟩

namespace Controller

variable {moment : Moment} {c : Controller} {t : Term} {s : Step}

theorem uneventful_followedBy {now : Nanoseconds} (h : Plain s.metrics) :
    Uneventful (c.followedBy now t s) := by
  refine (uneventful_reports h).append ⟨?_, ?_⟩
  · refine List.filterMap_eq_nil_iff.2 fun effect heffect => ?_
    rcases mem_emitAll heffect with ⟨recipients, m, rfl⟩ | ⟨task, rfl⟩ <;> rfl
  · refine List.filterMap_eq_nil_iff.2 fun effect heffect => ?_
    rcases mem_emitAll heffect with ⟨recipients, m, rfl⟩ | ⟨task, rfl⟩ <;> rfl

/-- Starting a height starts this height, and commits nothing. -/
theorem heights_begunBy (c : Controller) (now : Nanoseconds) (height : Height)
    (committee : Committee) :
    committedIn (c.begunBy now height committee) = [] ∧
      startedIn (c.begunBy now height committee) = [height] := by
  have hfollowed : Uneventful ((c.leave height).followedBy now ((c.leave height).termAt height
      committee) (c.firstStep height committee)) :=
    uneventful_followedBy (plain_view _)
  refine ⟨hfollowed.1, ?_⟩
  show height :: startedIn _ = [height]
  rw [hfollowed.2]

theorem plain_eventMetrics (e : Event) : Plain (eventMetrics e) := by
  cases e with
  | electionTimeout => exact plain_singleton trivial
  | proposalBuilt | validationFinished => exact plain_nil

theorem Gives.plain {p : Progress} {a : Agenda} {metrics : List Metric} {stimulus : Stimulus}
    {messages : List Message} (h : Gives t p a metrics stimulus messages) : Plain metrics := by
  cases h with
  | message | trigger => exact plain_nil
  | late => exact plain_eventMetrics _

theorem Skips.uneventful {a : Agenda} {es : List Effect} {messages : List Message}
    (h : Skips moment c a es messages) : Uneventful es := by
  cases h with
  | message | trigger | late | useless => exact uneventful_nil
  | unproven => exact uneventful_ask _ _

/-- A call that ends early commits nothing at its end, and starts no height but the one that
was on its agenda. -/
theorem Halt.heights {a : Agenda} {es : List Effect} {c' : Controller} {reason : Stop}
    (h : Halt moment c a es c' reason) : committedIn es = [] ∧
      (startedIn es = [] ∨ ∃ height, a = .start height ∧ startedIn es = [height]) := by
  cases h with
  | sift | succeed | check => exact ⟨rfl, Or.inl rfl⟩
  | react stage gives =>
    obtain ⟨hcommits, hstarts⟩ := uneventful_reports gives.plain
    exact ⟨hcommits, Or.inl hstarts⟩
  | sync => exact ⟨rfl, Or.inl rfl⟩
  | committee => exact ⟨rfl, Or.inl rfl⟩
  | @filter height committee =>
    obtain ⟨hcommits, hstarts⟩ := heights_begunBy c moment.now height committee
    exact ⟨hcommits, Or.inr ⟨height, rfl, hstarts⟩⟩

end Controller

/-! ## Heights ascend -/

/-- A bound that all committed heights are below, and the next one to be committed is not. -/
def Agenda.horizon (t : Term) : Agenda → Height
  | .succeed height => height + 1
  | .start height => height
  | _ => t.height

/-- The heights that were committed and started so far ascend, up to where the term is. -/
structure Ascent (es : List Effect) (a : Agenda) (t : Term) : Prop where
  commits : (committedIn es).Pairwise (· < ·)
  below : ∀ height ∈ committedIn es, height < a.horizon t
  starts : (startedIn es).Pairwise (· < ·)
  upTo : ∀ height ∈ startedIn es, height ≤ t.height

theorem pairwise_lt_snoc {l : List Nat} {n : Nat} (h : l.Pairwise (· < ·))
    (below : ∀ m ∈ l, m < n) : (l ++ [n]).Pairwise (· < ·) :=
  List.pairwise_append.2 ⟨h, List.pairwise_singleton _ _, fun m hm k hk => by
    rw [List.mem_singleton.1 hk]
    exact below m hm⟩

variable {es es' : List Effect} {a a' : Agenda} {t t' : Term}

theorem Ascent.quiet (h : Ascent es a t) (uneventful : Uneventful es')
    (le : a.horizon t ≤ a'.horizon t) : Ascent (es ++ es') a' t := by
  obtain ⟨hcommits, hstarts⟩ := uneventful
  refine ⟨?_, ?_, ?_, ?_⟩
  · rw [committedIn_append, hcommits, List.append_nil]
    exact h.commits
  · rw [committedIn_append, hcommits, List.append_nil]
    exact fun height hheight => Nat.lt_of_lt_of_le (h.below height hheight) le
  · rw [startedIn_append, hstarts, List.append_nil]
    exact h.starts
  · rw [startedIn_append, hstarts, List.append_nil]
    exact h.upTo

/-- The height of the term is committed. -/
theorem Ascent.commit {d : Decision} (h : Ascent es (.close d) t) (height : d.height = t.height)
    (counted : committedIn es' = [d.height]) (unstarted : startedIn es' = []) :
    Ascent (es ++ es') (.succeed d.height) t := by
  have hbelow : ∀ k ∈ committedIn es, k < d.height := by
    rw [height]
    exact h.below
  refine ⟨?_, fun k hk => ?_, ?_, ?_⟩
  · rw [committedIn_append, counted]
    exact pairwise_lt_snoc h.commits hbelow
  · rw [committedIn_append, counted] at hk
    show k < d.height + 1
    rcases List.mem_append.1 hk with hk | hk
    · exact Nat.lt_succ_of_lt (hbelow k hk)
    · rw [List.mem_singleton.1 hk]
      exact Nat.lt_succ_self _
  · rw [startedIn_append, unstarted, List.append_nil]
    exact h.starts
  · rw [startedIn_append, unstarted, List.append_nil]
    exact h.upTo

/-- A higher height is started. -/
theorem Ascent.start {height : Height} {messages : List Message} (h : Ascent es (.start height) t)
    (lt : t.height < height) (here : t'.height = height) (uncommitted : committedIn es' = [])
    (counted : startedIn es' = [height]) : Ascent (es ++ es') (.hear messages) t' := by
  refine ⟨?_, ?_, ?_, fun k hk => ?_⟩
  · rw [committedIn_append, uncommitted, List.append_nil]
    exact h.commits
  · rw [committedIn_append, uncommitted, List.append_nil]
    show ∀ k ∈ committedIn es, k < t'.height
    rw [here]
    exact h.below
  · rw [startedIn_append, counted]
    exact pairwise_lt_snoc h.starts fun k hk => Nat.lt_of_le_of_lt (h.upTo k hk) lt
  · rw [startedIn_append, counted] at hk
    rw [here]
    rcases List.mem_append.1 hk with hk | hk
    · exact Nat.le_of_lt (Nat.lt_of_le_of_lt (h.upTo k hk) lt)
    · exact Nat.le_of_eq (List.mem_singleton.1 hk)

/-! ## What a life keeps -/

/-- The blocks that the host builds match their hashes, as the member itself checks it. -/
def Promise.fitting (capabilities : Capabilities) : Promise :=
  ⟨fun _ => True, fun height block hash => capabilities.matchesHash height block hash = true,
    fun _ => True⟩

/-- The committee of a term is what the host once named for its height and seed. -/
def Term.Named (t : Term) (moments : List Moment) : Prop :=
  ∃ moment ∈ moments, moment.committeeOf t.height t.seed = .ok t.committee.members

/-- Heights have ascended to where the controller stands, and its committee was named. -/
def Lineage (promise : Promise) (first : Height) (moments : List Moment) (es : List Effect)
    (c : Controller) (a : Agenda) (tasks : List Task) (events : List LateEvent) : Prop :=
  ∃ t past, Situation promise first c a tasks events t past ∧ Ascent es a t ∧ t.Named moments

namespace Lineage

open Controller

variable {promise : Promise} {first : Height} {moments : List Moment} {moment : Moment}
  {c c' : Controller} {tasks : List Task} {events : List LateEvent}

/-- Every move keeps it. -/
theorem move (h : Lineage promise first moments es c a tasks events) (now : moment ∈ moments)
    (move : Move moment c a es' c' a') :
    Lineage promise first moments (es ++ es') c' a' (tasks ++ launchedIn es') events := by
  obtain ⟨t, past, situation, ascent, named⟩ := h
  cases move with
  | begin => exact situation.fits.elim
  | sift offer =>
    rw [append_launchedIn tasks (launchedIn_reports _)]
    exact ⟨t, past, situation.sift offer,
      ascent.quiet (uneventful_reports (Admission.plain_offer offer)) (Nat.le_refl _), named⟩
  | @react t' p _ metrics stimulus messages s stage gives react =>
    obtain ⟨rfl, rfl⟩ := Stage.running.inj (situation.stage.symm.trans stage)
    have hquiet : Uneventful (metrics.map .report ++ c.followedBy moment.now t s) :=
      (uneventful_reports gives.plain).append
        (uneventful_followedBy (Term.plain_react _ _ s react))
    refine ⟨t, _, situation.react gives react, ascent.quiet hquiet ?_, named⟩
    cases gives <;> cases s.decision? <;> exact Nat.le_refl _
  | skip skips =>
    refine ⟨t, past, situation.skip skips, ascent.quiet skips.uneventful ?_, named⟩
    cases skips <;> exact Nat.le_refl _
  | adopt current fits =>
    have hsituation := situation.adopt current fits
    rw [append_launchedIn tasks rfl]
    exact ⟨t, past, hsituation,
      ascent.quiet ⟨rfl, rfl⟩ (Nat.le_succ_of_le hsituation.fits.1), named⟩
  | commit =>
    rw [append_launchedIn tasks rfl]
    exact ⟨t, past, situation.commit,
      ascent.commit (situation.certifies situation.fits).1 rfl rfl, named⟩
  | succeed next_eq =>
    rw [append_launchedIn tasks launchedIn_nil]
    exact ⟨t, past, situation.succeed next_eq,
      ascent.quiet uneventful_nil (Nat.le_of_eq (eq_succ_of_nextHeight next_eq).symm), named⟩
  | @start height committee release check names free =>
    obtain ⟨hcommits, hstarts⟩ := heights_begunBy c moment.now height committee
    obtain ⟨hquiet, hquiet'⟩ := uneventful_reports (Admission.plain_setHeight free)
    obtain ⟨below, rfl, hle, -⟩ := situation.fits
    refine ⟨_, _, situation.ready.start free, ascent.start (Nat.lt_succ_of_le hle) rfl ?_ ?_,
      moment, now, names.committeeOf⟩
    · rw [committedIn_append, hcommits, hquiet, List.nil_append]
    · rw [startedIn_append, hstarts, hquiet', List.append_nil]

/-- Whatever happens keeps it. -/
theorem kept (now : moment ∈ moments) :
    Session.Invariant promise moment (Lineage promise first moments) where
  input := fun ⟨t, past, situation, ascent, named⟩ kept =>
    ⟨t, past, situation.input kept, ⟨ascent.commits, ascent.below, ascent.starts, ascent.upTo⟩, named⟩
  late := fun ⟨t, past, situation, ascent, named⟩ =>
    ⟨t, past, situation.late, ⟨ascent.commits, ascent.below, ascent.starts, ascent.upTo⟩, named⟩
  move := fun move h => h.move now move
  cancel := fun ⟨t, past, situation, ascent, named⟩ =>
    ⟨t, past, situation.cancel _, ascent, named⟩
  timer := fun ⟨t, past, situation, ascent, named⟩ pending =>
    ⟨t, past, situation.fire pending, ascent, named⟩
  answer := fun ⟨t, past, situation, ascent, named⟩ found keeps =>
    ⟨t, past, situation.answer (List.mem_of_find?_eq_some found) keeps _,
      ascent.quiet (uneventful_reports (plain_conclude _ _)) (Nat.le_refl _), named⟩

end Lineage

namespace Lives

variable {config : Config} {capabilities : Capabilities} {first : Height} {life : Life}

/-- Every life has a lineage, under any promise on blocks that the member itself checks. -/
theorem lineage_of_checks {promise : Promise}
    (checks : ∀ height block hash, capabilities.matchesHash height block hash = true →
      promise.proposal height block hash) :
    Invariant config capabilities first promise (Lineage promise first) where
  begins := by
    intro moment committee release names free
    obtain ⟨hcommits, hstarts⟩ := Controller.heights_begunBy
      (Controller.initial config capabilities) moment.now first committee
    obtain ⟨hquiet, hquiet'⟩ := uneventful_reports (Admission.plain_setHeight free)
    have hnamed : (((Controller.initial config capabilities).leave first).termAt first
        committee).Named [moment] := ⟨moment, List.mem_cons_self, names.committeeOf⟩
    refine ⟨_, _, situation_first moment committee checks free,
      ⟨?_, ?_, ?_, ?_⟩, hnamed⟩
    · rw [committedIn_append, hcommits, hquiet]
      exact List.Pairwise.nil
    · rw [committedIn_append, hcommits, hquiet]
      exact fun _ hk => absurd hk List.not_mem_nil
    · rw [startedIn_append, hstarts, hquiet']
      exact List.pairwise_singleton _ _
    · rw [startedIn_append, hstarts, hquiet']
      exact fun _ hk => Nat.le_of_eq (List.mem_singleton.1 hk)
  later := fun ⟨t, past, situation, ascent, moment, hmoment, named⟩ =>
    ⟨t, past, situation, ascent, moment, List.mem_append_left _ hmoment, named⟩
  kept := Lineage.kept

theorem lineage (config : Config) (capabilities : Capabilities) (first : Height) :
    Invariant config capabilities first (.fitting capabilities)
      (Lineage (.fitting capabilities) first) :=
  lineage_of_checks fun _ _ _ hmatches => hmatches

/-- The heights of a life ascend up to its end, even if a call was stopped half-way. -/
theorem ascend (h : Lives config capabilities first (.fitting capabilities) life) :
    (committedIn life.effects).Pairwise (· < ·) ∧ (startedIn life.effects).Pairwise (· < ·) := by
  by_cases hends : life.ending = none
  · rcases eq_or_ne life.moments [] with hnone | hsome
    · rw [h.eq_unborn hnone]
      exact ⟨List.Pairwise.nil, List.Pairwise.nil⟩
    · obtain ⟨t, past, -, ascent, -⟩ := keeps (lineage config capabilities first) h ⟨hsome, hends⟩
      exact ⟨ascent.commits, ascent.starts⟩
  rcases ends (lineage config capabilities first) h hends with ⟨moment, c, reason, hhalt⟩ |
    ⟨es, c, a, tasks, events, ⟨t, past, situation, ascent, -⟩, heffects⟩
  · obtain ⟨hcommits, hstarts⟩ := hhalt.heights
    rw [hcommits]
    refine ⟨List.Pairwise.nil, ?_⟩
    rcases hstarts with hstarts | ⟨height, -, hstarts⟩ <;> rw [hstarts]
    · exact List.Pairwise.nil
    · exact List.pairwise_singleton _ _
  · rcases heffects with rfl | ⟨moment, tail, c', reason, heffects, hhalt⟩
    · exact ⟨ascent.commits, ascent.starts⟩
    · obtain ⟨hcommits, hstarts⟩ := hhalt.heights
      rw [heffects, committedIn_append, startedIn_append, hcommits, List.append_nil]
      refine ⟨ascent.commits, ?_⟩
      rcases hstarts with hstarts | ⟨height, rfl, hstarts⟩ <;> rw [hstarts]
      · rw [List.append_nil]
        exact ascent.starts
      · obtain ⟨below, rfl, hle, -⟩ := situation.fits
        exact pairwise_lt_snoc ascent.starts fun k hk =>
          Nat.lt_succ_of_le (Nat.le_trans (ascent.upTo k hk) hle)

/-- **Heights only go up, and the chain is linked.**  Committed heights ascend, and so do the
heights that are started.  As long as a member runs it has an active term.  That term is of the
first height and nothing was before it, or it follows the last block, which matches its proof,
and has the seed that the proof draws.  Its committee is what the host named for its height and
seed. -/
theorem heights_ascend_linked (h : Lives config capabilities first (.fitting capabilities) life) :
    ((committedIn life.effects).Pairwise (· < ·) ∧ (startedIn life.effects).Pairwise (· < ·)) ∧
      (life.Running → ∃ t p, life.session.controller.stage = .running t p ∧
        ((life.session.controller.tip = none ∧ t.height = first ∧ t.seed = 0) ∨
          ∃ tip, life.session.controller.tip = some tip ∧ tip.proof.height + 1 = t.height ∧
            capabilities.matchesHash tip.proof.height tip.block tip.proof.blockHash = true ∧
              t.seed = tip.proof.nextSeed) ∧
        ∃ moment ∈ life.moments, moment.committeeOf t.height t.seed = .ok t.committee.members) := by
  refine ⟨h.ascend, fun running => ?_⟩
  obtain ⟨t, past, situation, -, named⟩ := keeps (lineage config capabilities first) h running
  exact ⟨t, past.progress, situation.stage, situation.fits.1.linked, named⟩

/-- The member of a committee of one starts height `1`, builds a block, and decides it. -/
def soloLife : Life :=
  (((Life.unborn .standard (Assembly.sample.capabilities 0)).after ⟨0, fun _ _ => .ok [0]⟩
    (.start 1)).after ⟨1, fun _ _ => .ok [0]⟩
      (.answer 0 (.proposal Assembly.sampleBlock.1 Assembly.sampleBlock.2))).after
        ⟨2, fun _ _ => .ok [0]⟩ .attend

theorem soloLife_lives : Lives .standard (Assembly.sample.capabilities 0) 1
    (.fitting (Assembly.sample.capabilities 0)) soloLife := by
  refine .next (.next (.next .unborn ⟨rfl, rfl⟩ trivial) ⟨List.cons_ne_nil _ _, ?_⟩ ?_)
    ⟨List.cons_ne_nil _ _, ?_⟩ trivial
  · decide +kernel
  · show ∀ task ∈ _, _ → (Assembly.sample.capabilities 0).matchesHash _ _ _ = true
    decide +kernel
  · decide +kernel

/-- It has committed height `1`, and works on height `2`. -/
theorem heights_ascend_linked_sample :
    (committedIn soloLife.effects = [1] ∧ startedIn soloLife.effects = [1, 2]) ∧
      ∃ t p tip, soloLife.session.controller.stage = .running t p ∧ t.height = 2 ∧
        soloLife.session.controller.tip = some tip ∧ tip.proof.height = 1 ∧
          t.seed = tip.proof.nextSeed ∧ t.committee.members = [0] := by
  have hheights : committedIn soloLife.effects = [1] ∧ startedIn soloLife.effects = [1, 2] := by
    decide +kernel
  have hstand : soloLife.ending = none ∧ soloLife.session.controller.height? = some 2 ∧
      soloLife.session.controller.tip ≠ none := by
    decide +kernel
  obtain ⟨hends, hheight, htip⟩ := hstand
  obtain ⟨-, hruns⟩ := heights_ascend_linked soloLife_lives
  obtain ⟨t, p, hstage, hlinked, moment, hmoment, hnamed⟩ := hruns ⟨List.cons_ne_nil _ _, hends⟩
  rw [Controller.height?, hstage] at hheight
  have htwo : t.height = 2 := Option.some.inj hheight
  rcases hlinked with ⟨hnone, -⟩ | ⟨tip, htip', hbelow, -, hseed⟩
  · exact absurd hnone htip
  · have hone : tip.proof.height = 1 := Nat.succ.inj (hbelow.trans htwo)
    refine ⟨hheights, t, p, tip, hstage, htwo, htip', hone, hseed, ?_⟩
    have hmembers : moment.committeeOf t.height t.seed = .ok [0] := by
      simp only [soloLife, Life.after, Life.unborn, List.nil_append, List.cons_append, List.mem_cons,
        List.not_mem_nil, or_false] at hmoment
      rcases hmoment with rfl | rfl | rfl <;> rfl
    exact (Except.ok.inj (hmembers.symm.trans hnamed)).symm

end Lives

end CommitteeConsensus
