import CommitteeConsensus.Proofs.Recovery
import Mathlib.Data.Finset.Card

/-!
# From height to height within a call

A height that decides as soon as it is started is committed, the next one is started, and so on,
all within one call.  Nothing in this loop counts down.  What ends it is the cache: a height that
was started within a call decides through a message that was cached when the call began, and
nothing is cached in between (`Controller.Move.passes`).

So the heights that one call commits are consecutive.  Those that it starts are consecutive as
well, and the two lists run side by side: the one that was started last is at most one ahead.
`Passage` says so with four bounds, each move shifts one of them, and the limits on a call are
read off at its end (`Controller.passage_of_respond`).
-/

namespace CommitteeConsensus

/-! ## Heights with cached messages -/

namespace Admission

variable {a : Admission} {m : Message}

/-- The heights that messages are cached for. -/
def stocked (a : Admission) : List Height := (a.byHeight.filter (!·.2.isEmpty)).map (·.1)

theorem mem_stocked {height : Height} : height ∈ a.stocked ↔ ∃ m, a.Holds height m := by
  rw [stocked, List.mem_map]
  constructor
  · rintro ⟨⟨k, entries⟩, hmem, rfl⟩
    obtain ⟨hentries, hsome⟩ := List.mem_filter.1 hmem
    obtain ⟨⟨arrival, m⟩, hm⟩ := List.exists_mem_of_ne_nil entries (by simpa using hsome)
    exact ⟨m, entries, arrival, hentries, hm⟩
  · rintro ⟨m, entries, arrival, hentries, hm⟩
    refine ⟨(height, entries), List.mem_filter.2 ⟨hentries, ?_⟩, rfl⟩
    simpa using List.ne_nil_of_mem hm

/-- A message that passes leaves the filter as it is. -/
theorem offer_of_passed {answer : Answer} (offer : a.offer m = .ok answer)
    (passed : answer.passed ≠ none) : answer.admission = a := by
  rw [Admission.offer] at offer
  split at offer
  · rw [← Except.ok.inj offer]
  · split at offer
    · rw [← Except.ok.inj offer]
    · split at offer
      · rw [← Except.ok.inj offer]
      · split at offer
        · rw [← Except.ok.inj offer]
        · rcases hheld : a.hold m with fault | ⟨held, metrics⟩
          · rw [hheld] at offer
            exact absurd offer (by simp [bind, Except.bind])
          · rw [hheld] at offer
            obtain rfl := Except.ok.inj offer
            exact absurd rfl passed

end Admission

/-! ## Passages -/

/-- A call has committed the heights from `first` up to `next`, and started those from `low` up
to `high`, neither bound included.  Of those that it started, `fed` holds of the ones that it
committed. -/
structure Passage (fed : Height → Prop) (first low next high : Nat)
    (commits starts : List Height) : Prop where
  commits_eq : commits = List.range' first (next - first)
  starts_eq : starts = List.range' low (high - low)
  first_le : first ≤ next
  low_le : low ≤ high
  low_near : first ≤ low ∧ low ≤ first + 1
  high_near : next ≤ high ∧ high ≤ next + 1
  fed : ∀ k, low ≤ k → k < next → fed k

namespace Passage

variable {fed : Height → Prop} {first low next high : Nat} {commits starts : List Height}

theorem mem_commits (h : Passage fed first low next high commits starts) {k : Height} :
    k ∈ commits ↔ first ≤ k ∧ k < next := by
  rw [h.commits_eq, List.mem_range'_1, Nat.add_sub_cancel' h.first_le]

theorem mem_starts (h : Passage fed first low next high commits starts) {k : Height} :
    k ∈ starts ↔ low ≤ k ∧ k < high := by
  rw [h.starts_eq, List.mem_range'_1, Nat.add_sub_cancel' h.low_le]

/-- A call that is about to start a height has done neither yet. -/
theorem outset (fed : Height → Prop) (height : Height) :
    Passage fed height height height height [] [] where
  commits_eq := by rw [Nat.sub_self]; rfl
  starts_eq := by rw [Nat.sub_self]; rfl
  first_le := Nat.le_refl _
  low_le := Nat.le_refl _
  low_near := ⟨Nat.le_refl _, Nat.le_succ _⟩
  high_near := ⟨Nat.le_refl _, Nat.le_succ _⟩
  fed := fun _ hle hlt => absurd hlt (Nat.not_lt_of_le hle)

/-- A call within a height did not start this height. -/
theorem within (fed : Height → Prop) (height : Height) :
    Passage fed height (height + 1) height (height + 1) [] [] where
  commits_eq := by rw [Nat.sub_self]; rfl
  starts_eq := by rw [Nat.sub_self]; rfl
  first_le := Nat.le_refl _
  low_le := Nat.le_refl _
  low_near := ⟨Nat.le_succ _, Nat.le_refl _⟩
  high_near := ⟨Nat.le_succ _, Nat.le_refl _⟩
  fed := fun _ hle hlt => absurd hlt (Nat.not_lt_of_le (Nat.le_of_succ_le hle))

/-- One height more is started. -/
theorem start (h : Passage fed first low next next commits starts) :
    Passage fed first low next (next + 1) commits (starts ++ [next]) where
  commits_eq := h.commits_eq
  starts_eq := by
    have hle := h.low_le
    rw [h.starts_eq, Nat.succ_sub hle, List.range'_1_concat, Nat.add_sub_cancel' hle]
  first_le := h.first_le
  low_le := Nat.le_succ_of_le h.low_le
  low_near := h.low_near
  high_near := ⟨Nat.le_succ _, Nat.le_refl _⟩
  fed := h.fed

/-- One height more is committed. -/
theorem commit (h : Passage fed first low next (next + 1) commits starts)
    (hfed : low ≤ next → fed next) :
    Passage fed first low (next + 1) (next + 1) (commits ++ [next]) starts where
  commits_eq := by
    have hle := h.first_le
    rw [h.commits_eq, Nat.succ_sub hle, List.range'_1_concat, Nat.add_sub_cancel' hle]
  starts_eq := h.starts_eq
  first_le := Nat.le_succ_of_le h.first_le
  low_le := h.low_le
  low_near := h.low_near
  high_near := ⟨Nat.le_refl _, Nat.le_succ _⟩
  fed := by
    intro k hlow hlt
    rcases Nat.lt_succ_iff_lt_or_eq.1 hlt with hlt | rfl
    · exact h.fed k hlow hlt
    · exact hfed hlow

/-! ### What a passage comes to -/

theorem commits_consecutive (h : Passage fed first low next high commits starts) :
    commits = List.range' first commits.length := by
  rw [h.commits_eq, List.length_range']

theorem fed_of_mem (h : Passage fed first low next high commits starts) {k : Height}
    (started : k ∈ starts) (committed : k ∈ commits) : fed k :=
  h.fed k (h.mem_starts.1 started).1 (h.mem_commits.1 committed).2

/-- All committed heights but the first one were started, and so they were fed. -/
theorem length_commits_le (h : Passage fed first low next high commits starts)
    {stock : List Height} (stocked : ∀ k, fed k → k ∈ stock) :
    commits.length ≤ stock.toFinset.card + 1 := by
  have hlow := h.low_near.2
  have hsub : (List.range' (first + 1) (next - first - 1)).toFinset ⊆ stock.toFinset := by
    intro k hk
    rw [List.mem_toFinset, List.mem_range'_1] at hk
    exact List.mem_toFinset.2 (stocked k (h.fed k (by omega) (by omega)))
  have hcard := Finset.card_le_card hsub
  rw [List.toFinset_card_of_nodup (List.nodup_range' ..), List.length_range'] at hcard
  rw [h.commits_eq, List.length_range']
  omega

/-- The heights that were started go one beyond those that were committed, at the most. -/
theorem le_of_mem_starts (h : Passage fed first low next high commits starts) {k : Height}
    (started : k ∈ starts) : k ≤ first + commits.length := by
  rw [h.commits_eq, List.length_range', Nat.add_sub_cancel' h.first_le]
  exact Nat.le_of_lt_succ (Nat.lt_of_lt_of_le (h.mem_starts.1 started).2 h.high_near.2)

/-- Only the height that was started last may be undecided. -/
theorem length_undecided_le (h : Passage fed first low next high commits starts) :
    (starts.filter (· ∉ commits)).length ≤ 1 := by
  have hnodup : starts.Nodup := by
    rw [h.starts_eq]
    exact List.nodup_range' ..
  have hlast : starts.filter (· ∉ commits) ⊆ [next] := by
    intro k hk
    obtain ⟨hstarted, hopen⟩ := List.mem_filter.1 hk
    obtain ⟨hlow, hhigh⟩ := h.mem_starts.1 hstarted
    have hle : k ≤ next := Nat.le_of_lt_succ (Nat.lt_of_lt_of_le hhigh h.high_near.2)
    have hge : next ≤ k := Nat.le_of_not_lt fun hlt =>
      of_decide_eq_true hopen (h.mem_commits.2 ⟨Nat.le_trans h.low_near.1 hlow, hlt⟩)
    exact List.mem_singleton.2 (Nat.le_antisymm hle hge)
  exact ((hnodup.filter _).subperm hlast).length_le

end Passage

/-! ## Calls pass -/

/-- Where the agenda is in a passage.  The height that messages or a decision are of was not
started within the call, or it was fed. -/
def Agenda.Proceeds (fed : Height → Prop) (current : Option Height) (low next high : Height) :
    Agenda → Prop
  | .hear [] => True
  | .heed (.start height) | .start height => next = height ∧ high = height
  | .heed (.input (.sync _ proof _)) => next = proof.height + 1 ∧ high = proof.height + 1
  | .succeed height => next = height + 1 ∧ high = height + 1
  | .close d => next = d.height ∧ high = next + 1 ∧ (low ≤ next → fed next)
  | .heed _ | .hear (_ :: _) =>
    (∀ height, current = some height → next = height) ∧ high = next + 1 ∧ (low ≤ next → fed next)

namespace Controller

variable {moment : Moment} {c c' : Controller} {t : Term} {p : Progress} {a a' : Agenda}
  {es es' : List Effect} {fed : Height → Prop} {low next high : Height}

/-- A call, up to some point, is a passage from a height on.  What is cached at this point was
cached at the beginning, unless there is nothing left to do. -/
structure Passes (source : Admission) (first : Nat) (es : List Effect) (c : Controller)
    (a : Agenda) : Prop where
  passage : ∃ low next high, Passage (fun k => ∃ m, source.Holds k m) first low next high
    (committedIn es) (startedIn es) ∧
      a.Proceeds (fun k => ∃ m, source.Holds k m) c.height? low next high
  holds : a ≠ .hear [] → ∀ k m, c.admission.Holds k m → source.Holds k m

theorem Gives.proceeds {metrics : List Metric} {stimulus : Stimulus} {messages : List Message}
    {current : Option Height} (gives : Gives t p a metrics stimulus messages)
    (h : a.Proceeds fed current low next high) :
    (∀ height, current = some height → next = height) ∧ high = next + 1 ∧
      (low ≤ next → fed next) := by
  cases gives <;> exact h

theorem Skips.proceeds {messages : List Message} {current : Option Height}
    (skips : Skips moment c a es messages) (h : a.Proceeds fed current low next high) :
    (Agenda.hear messages).Proceeds fed current low next high := by
  cases skips with
  | @message log m messages =>
    cases messages with
    | nil => trivial
    | cons => exact h
  | trigger | late | useless | unproven => trivial

namespace Passes

variable {source : Admission} {first : Nat}

/-- Effects that say nothing of heights. -/
theorem quiet (h : Passes source first es c a) (uneventful : Uneventful es')
    (proceeds : ∀ low next high,
      a.Proceeds (fun k => ∃ m, source.Holds k m) c.height? low next high →
        a'.Proceeds (fun k => ∃ m, source.Holds k m) c'.height? low next high)
    (holds : a' ≠ .hear [] → ∀ k m, c'.admission.Holds k m → source.Holds k m) :
    Passes source first (es ++ es') c' a' := by
  obtain ⟨hcommits, hstarts⟩ := uneventful
  obtain ⟨low, next, high, hpassage, hproceeds⟩ := h.passage
  refine ⟨⟨low, next, high, ?_, proceeds low next high hproceeds⟩, holds⟩
  rw [committedIn_append, startedIn_append, hcommits, hstarts, List.append_nil, List.append_nil]
  exact hpassage

/-- Before a height is started. -/
theorem start (c : Controller) (height : Height) :
    Passes c.admission height [] c (.start height) :=
  ⟨⟨_, _, _, .outset _ height, rfl, rfl⟩, fun _ _ _ hm => hm⟩

/-- At the beginning of a call. -/
theorem heed (c : Controller) (cue : Cue) : ∃ first, Passes c.admission first [] c (.heed cue) := by
  have hwithin : ∃ low next high, Passage (fun k => ∃ m, c.admission.Holds k m)
      (c.height?.getD 0) low next high (committedIn []) (startedIn []) ∧
        (∀ height, c.height? = some height → next = height) ∧ high = next + 1 ∧
          (low ≤ next → ∃ m, c.admission.Holds next m) := by
    refine ⟨_, _, _, .within _ (c.height?.getD 0), fun height hheight => ?_, rfl,
      fun hle => absurd hle (Nat.not_succ_le_self _)⟩
    rw [hheight]
    rfl
  have hsame : Agenda.heed cue ≠ .hear [] → ∀ k m, c.admission.Holds k m → c.admission.Holds k m :=
    fun _ _ _ hm => hm
  cases cue with
  | start height => exact ⟨height, ⟨_, _, _, .outset _ height, rfl, rfl⟩, hsame⟩
  | late late => exact ⟨_, hwithin, hsame⟩
  | input input =>
    cases input with
    | message | triggerElection => exact ⟨_, hwithin, hsame⟩
    | sync block proof previous =>
      exact ⟨proof.height + 1, ⟨_, _, _, .outset _ (proof.height + 1), rfl, rfl⟩, hsame⟩

end Passes

/-- **Every move passes on.**  A height is entered with the messages that were cached for it, and
a height is decided through one of them or through what the call was made for. -/
theorem Move.passes {source : Admission} {first : Nat} (move : Move moment c a es' c' a')
    (h : Passes source first es c a) : Passes source first (es ++ es') c' a' := by
  have hholds := h.holds fun hrest => by
    subst hrest
    exact move.not_rest
  cases move with
  | begin => exact h.quiet uneventful_nil (fun _ _ _ hproceeds => hproceeds) fun _ => hholds
  | @sift m answer offer =>
    refine h.quiet (uneventful_reports (Admission.plain_offer offer)) ?_ ?_
    · intro low next high hproceeds
      cases answer.passed with
      | none => trivial
      | some m => exact hproceeds
    · intro hpassed
      have hsame : answer.admission = c.admission := Admission.offer_of_passed offer fun hnone =>
        hpassed (by rw [hnone]; rfl)
      show ∀ k m, answer.admission.Holds k m → _
      rw [hsame]
      exact hholds
  | @react t p _ metrics stimulus messages s stage gives react =>
    have hquiet : Uneventful (metrics.map .report ++ c.followedBy moment.now t s) :=
      (uneventful_reports gives.plain).append
        (uneventful_followedBy (Term.plain_react _ _ s react))
    refine h.quiet hquiet (fun low next high hproceeds => ?_) fun _ => ?_
    · obtain ⟨hnext, hhigh, hfed⟩ := gives.proceeds hproceeds
      rw [height?_followed]
      rw [height?_of_stage stage] at hnext
      rcases hdecided : s.decision? with _ | d
      · cases messages with
        | nil => trivial
        | cons => exact ⟨hnext, hhigh, hfed⟩
      · have hheight : d.height = t.height := Term.react_decision_height react hdecided
        exact ⟨(hnext t.height rfl).trans hheight.symm, hhigh, hfed⟩
    · rw [admission_followed]
      exact hholds
  | skip skips =>
    exact h.quiet skips.uneventful (fun _ _ _ hproceeds => skips.proceeds hproceeds) fun _ => hholds
  | adopt =>
    exact h.quiet ⟨rfl, rfl⟩ (fun _ _ _ hproceeds => hproceeds) fun _ => hholds
  | @commit d =>
    obtain ⟨low, next, high, hpassage, rfl, rfl, hfed⟩ := h.passage
    refine ⟨⟨low, d.height + 1, d.height + 1, ?_, rfl, rfl⟩, fun _ => hholds⟩
    rw [committedIn_append, startedIn_append]
    show Passage _ first low _ _ (_ ++ [d.height]) (_ ++ [])
    rw [List.append_nil]
    exact hpassage.commit hfed
  | succeed next_eq =>
    refine h.quiet uneventful_nil (fun low next high hproceeds => ?_) fun _ => hholds
    rw [eq_succ_of_nextHeight next_eq]
    exact hproceeds
  | @start height committee release check names free =>
    obtain ⟨hcommits, hstarts⟩ := heights_begunBy c moment.now height committee
    obtain ⟨hquiet, hquiet'⟩ := uneventful_reports (Admission.plain_setHeight free)
    have hfreed := Admission.freed_of_setHeight free
    obtain ⟨low, next, high, hpassage, hnext, hhigh⟩ := h.passage
    rw [hnext, hhigh] at hpassage
    refine ⟨⟨low, height, height + 1, ?_, ?_⟩, fun _ k m hm => hholds k m (hfreed.holds k m hm)⟩
    · rw [committedIn_append, startedIn_append, committedIn_append, startedIn_append, hcommits,
        hstarts, hquiet, hquiet', List.append_nil, List.append_nil, List.append_nil]
      exact hpassage.start
    · have hcurrent : (c.begun moment.now height committee).height? = some height :=
        height?_followed _ _ _ _
      show (Agenda.hear release.released).Proceeds _ (c.begun moment.now height committee).height?
        _ _ _
      rw [hcurrent]
      rcases hreleased : release.released with _ | ⟨m, messages⟩
      · trivial
      · refine ⟨fun _ hsome => Option.some.inj hsome, rfl, fun _ => ⟨m, ?_⟩⟩
        refine hholds height m (hfreed.released m ?_)
        rw [hreleased]
        exact List.mem_cons_self

/-- A call that ends early has started one height more at most. -/
theorem Halt.passage {source : Admission} {first : Nat} {reason : Stop}
    (halt : Halt moment c a es' c' reason) (h : Passes source first es c a) :
    ∃ low next high, Passage (fun k => ∃ m, source.Holds k m) first low next high
      (committedIn (es ++ es')) (startedIn (es ++ es')) := by
  obtain ⟨hcommits, hstarts⟩ := halt.heights
  obtain ⟨low, next, high, hpassage, hproceeds⟩ := h.passage
  rw [committedIn_append, startedIn_append, hcommits, List.append_nil]
  rcases hstarts with hstarts | ⟨height, rfl, hstarts⟩
  · rw [hstarts, List.append_nil]
    exact ⟨low, next, high, hpassage⟩
  · obtain ⟨hnext, hhigh⟩ := hproceeds
    rw [hnext, hhigh] at hpassage
    rw [hstarts]
    exact ⟨low, height, height + 1, hpassage.start⟩

/-- A call is a passage as a whole. -/
theorem Course.passage {source : Admission} {first : Nat} {o : Outcome Unit}
    (h : Course moment c a o) (passes : Passes source first [] c a) :
    ∃ low next high, Passage (fun k => ∃ m, source.Holds k m) first low next high
      (committedIn o.effects) (startedIn o.effects) := by
  rcases h.induct (fun move passes => move.passes passes) passes with
    ⟨-, hpasses⟩ | ⟨c', a', body, tail, reason, -, heffects, hpasses, hhalt⟩
  · obtain ⟨low, next, high, hpassage, -⟩ := hpasses.passage
    exact ⟨low, next, high, hpassage⟩
  · rw [heffects]
    exact hhalt.passage hpasses

/-- The start of a height leads on by one height for each that has cached messages, and by one
more. -/
theorem Course.le_of_startedIn {height : Height} {o : Outcome Unit}
    (h : Course moment c (.start height) o) {k : Height} (started : k ∈ startedIn o.effects) :
    k ≤ height + c.admission.stocked.length + 1 := by
  obtain ⟨low, next, high, hpassage⟩ := h.passage (Passes.start c height)
  have hcommits := hpassage.length_commits_le fun k hfed => Admission.mem_stocked.2 hfed
  have hcard : c.admission.stocked.toFinset.card + 1 ≤ c.admission.stocked.length + 1 :=
    Nat.succ_le_succ c.admission.stocked.toFinset_card_le
  exact (hpassage.le_of_mem_starts started).trans
    (Nat.add_le_add_left (hcommits.trans hcard) height)

/-- **The loop over the heights ends and skips none.**  Every call is a finite course of moves.
The heights that it commits are consecutive; each of them that it also started had a message
cached when the call began, so that it commits at most one height more than there were heights
with cached messages; and it starts at most one height that it does not decide. -/
theorem passage_of_respond (moment : Moment) (c : Controller) (cue : Cue) :
    let o := (respond cue).run moment c
    Course moment c (.heed cue) o ∧
      (∃ first, committedIn o.effects = List.range' first (committedIn o.effects).length) ∧
      (∀ k ∈ startedIn o.effects, k ∈ committedIn o.effects → ∃ m, c.admission.Holds k m) ∧
      (committedIn o.effects).length ≤ c.admission.stocked.toFinset.card + 1 ∧
      ((startedIn o.effects).filter (· ∉ committedIn o.effects)).length ≤ 1 := by
  intro o
  have hcourse : Course moment c (.heed cue) o := course_respond moment c cue
  obtain ⟨first, hpasses⟩ := Passes.heed c cue
  obtain ⟨low, next, high, hpassage⟩ := hcourse.passage hpasses
  exact ⟨hcourse, ⟨first, hpassage.commits_consecutive⟩,
    fun k hstarted hcommitted => hpassage.fed_of_mem hstarted hcommitted,
    hpassage.length_commits_le fun k hfed => Admission.mem_stocked.2 hfed,
    hpassage.length_undecided_le⟩

end Controller

end CommitteeConsensus
