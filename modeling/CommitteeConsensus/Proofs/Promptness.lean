import CommitteeConsensus.Proofs.Twins
import CommitteeConsensus.Proofs.Upkeep
import CommitteeConsensus.Proofs.Waitlist

/-!
# Early messages

A message of a height ahead is cached and replayed when its height is started.  A replay is not
how messages of the current height come: it gives the messages to the term one by one until the
term decides, and only then is anything settled, whereas a message that comes through the filter
settles at once what it decides.  Yet no one can tell by what a controller does whether messages
came before their height was started or right after (`Serves.early_as_prompt`).

* Early messages are cached, and that is all (`respondAll_early`).  They are the last ones to be
  released, and once their height has come the filter keeps what it would have kept without them
  (`Keeps.twins_moved`).
* A height is started alike, whatever the filter holds.
* From there message follows upon message, on either way (`alike_replay`).  The messages after
  one that decides come to nothing: a replay leaves them out, and to the filter they are of a
  past height by then (`respondAll_past`).
-/

namespace CommitteeConsensus

/-- A message comes from the network. -/
abbrev Cue.message (m : Message) : Cue := .input (.message m)

/-! ## Calls in a row -/

namespace Outcome

variable {R : Admission → Admission → Prop} {o o' : Outcome Unit}

theorem goOn_done (o : Outcome Unit) : (o.goOn fun _ c => ⟨c, [], .ok ()⟩) = o := by
  rcases hresult : o.result with reason | _
  · rw [goOn_of_error hresult, ← hresult]
  · rw [goOn_of_ok hresult, ← hresult, List.append_nil]

/-- What follows and comes to nothing makes no difference. -/
theorem Alike.goOn_idle (h : o.Alike R o') {next : Unit → Controller → Outcome Unit}
    (idle : o'.result = .ok () → ∃ metrics : List Metric,
      next () o'.controller = ⟨o'.controller, metrics.map .report, .ok ()⟩) :
    o.Alike R (o'.goOn next) := by
  rcases hresult : o'.result with reason | _
  · rw [goOn_of_error hresult, ← hresult]
    exact h
  · obtain ⟨metrics, hnext⟩ := idle hresult
    rw [Outcome.goOn_of_ok hresult, hnext]
    refine ⟨h.controller, ?_, hresult.symm.trans h.result⟩
    show deedsIn (o'.effects ++ metrics.map .report) = deedsIn o.effects
    rw [deedsIn_append, deedsIn_reports, List.append_nil, h.deeds]

end Outcome

namespace Controller

open Activity

/-- Calls, one after the other, up to the first that stops. -/
def respondAll : List (Moment × Cue) → Controller → Outcome Unit
  | [], c => ⟨c, [], .ok ()⟩
  | call :: calls, c => ((respond call.2).run call.1 c).goOn fun _ => respondAll calls

theorem respondAll_append (calls calls' : List (Moment × Cue)) (c : Controller) :
    respondAll (calls ++ calls') c = (respondAll calls c).goOn fun _ => respondAll calls' := by
  induction calls generalizing c with
  | nil => rfl
  | cons call calls ih =>
    show Outcome.goOn _ _ = Outcome.goOn (Outcome.goOn _ _) _
    rw [Outcome.goOn_assoc]
    exact congrArg _ (funext fun _ => funext ih)

/-- One call more, after calls that went on to their end. -/
theorem respondAll_snoc {calls : List (Moment × Cue)} {c c' : Controller} {es : List Effect}
    (h : respondAll calls c = ⟨c', es, .ok ()⟩) (moment : Moment) (cue : Cue) :
    respondAll (calls ++ [(moment, cue)]) c =
      ⟨((respond cue).run moment c').controller, es ++ ((respond cue).run moment c').effects,
        ((respond cue).run moment c').result⟩ := by
  have hsole : respondAll [(moment, cue)] c' = (respond cue).run moment c' := Outcome.goOn_done _
  rw [respondAll_append, h, Outcome.goOn_of_ok rfl, hsole]

end Controller

/-! ## A message at the filter -/

/-- The filter has room for messages, beside what is cached, and neither drops them nor lets
them pass. -/
structure Admission.Welcomes (a : Admission) (cached messages : List Message) : Prop where
  others : ∀ m ∈ messages, m.sender ≠ a.me
  ahead : ∀ m ∈ messages, a.height < m.height ∧ m.height ≤ satAdd a.height a.limits.heightsAhead
  perSender : ∀ m ∈ messages,
    ((cached ++ messages).filter (·.sender == m.sender)).length ≤ a.limits.perSender
  total : (cached ++ messages).length ≤ a.limits.total

namespace Admission

variable {a a' : Admission} {l l' : List Entry} {m : Message} {messages : List Message}
  {height : Height}

/-- The messages of entries by one sender. -/
theorem length_bySameSender (l : List Entry) (s : MemberId) :
    (bySameSender l s).length = ((l.map (·.2)).filter (·.sender == s)).length := by
  rw [List.filter_map, List.length_map]
  rfl

/-- The first of the messages that are welcome is cached. -/
theorem Keeps.offer_welcome (keeps : a.Keeps l)
    (welcome : a.Welcomes (l.map (·.2)) (m :: messages)) :
    a.offer m = .ok ⟨a.held m, none, [(a.held m).cachedLevel]⟩ := by
  obtain ⟨hahead, hnear⟩ := welcome.ahead m List.mem_cons_self
  have hentries : (l ++ [a.entryOf m]).map (·.2) = l.map (·.2) ++ [m] := by
    rw [List.map_append]
    rfl
  have hpart : (l.map (·.2) ++ [m]).Sublist (l.map (·.2) ++ m :: messages) :=
    (List.Sublist.refl _).append (List.singleton_sublist.2 List.mem_cons_self)
  have hsender : (bySameSender (l ++ [a.entryOf m]) m.sender).length ≤ a.limits.perSender := by
    rw [length_bySameSender, hentries]
    exact Nat.le_trans (hpart.filter _).length_le (welcome.perSender m List.mem_cons_self)
  have htotal : (l ++ [a.entryOf m]).length ≤ a.limits.total := by
    have hlength : (l ++ [a.entryOf m]).length = (l.map (·.2) ++ [m]).length := by
      rw [← hentries, List.length_map]
    rw [hlength]
    exact Nat.le_trans hpart.length_le welcome.total
  have hhold := keeps.hold_of_room (Nat.not_lt_of_le hsender) (Nat.not_lt_of_le htotal)
  rw [Admission.offer, if_neg (welcome.others m List.mem_cons_self),
    if_neg (Nat.not_lt_of_lt hahead), if_neg (Nat.ne_of_gt hahead),
    if_neg (Nat.not_lt_of_le hnear), hhold]
  rfl

/-- The other messages are welcome after the first one. -/
theorem Welcomes.tail (welcome : a.Welcomes (l.map (·.2)) (m :: messages)) :
    (a.held m).Welcomes ((l ++ [a.entryOf m]).map (·.2)) messages := by
  have hall : (l ++ [a.entryOf m]).map (·.2) ++ messages = l.map (·.2) ++ m :: messages := by
    rw [List.map_append, List.append_assoc]
    rfl
  refine ⟨fun m' hm' => welcome.others m' (List.mem_cons_of_mem _ hm'),
    fun m' hm' => welcome.ahead m' (List.mem_cons_of_mem _ hm'), fun m' hm' => ?_, ?_⟩
  · rw [hall]
    exact welcome.perSender m' (List.mem_cons_of_mem _ hm')
  · rw [hall]
    exact welcome.total

/-- **Two filters that keep the same above a height** are twins once they are moved there. -/
theorem Keeps.twins_moved (keeps : a.Keeps l) (keeps' : a'.Keeps l') (gate : a'.gate = a.gate)
    (same : above height l' = above height l) : (a.moved height).Twins (a'.moved height) where
  me := congrArg Prod.fst gate
  height := rfl
  limits := congrArg (fun gate => gate.2.2) gate
  byHeight := by
    refine Table.ext (keeps'.moved height).heights (keeps.moved height).heights fun k => ?_
    rw [(keeps'.moved height).shelves, (keeps.moved height).shelves, same]
  bySender := by
    refine Table.ext (keeps'.moved height).senders (keeps.moved height).senders fun s => ?_
    rw [keeps'.queue_moved, keeps.queue_moved, same]

/-- Entries of a height are not above it. -/
theorem above_append_of_height {new : List Entry} (here : ∀ e ∈ new, e.2.height = height) :
    above height (l ++ new) = above height l := by
  have hnone : above height new = [] := by
    refine List.filter_eq_nil_iff.2 fun e he habove => ?_
    rw [decide_eq_true_iff, here e he] at habove
    exact Nat.lt_irrefl _ habove
  rw [above, List.filter_append]
  exact (congrArg _ hnone).trans (List.append_nil _)

/-- Entries of a height come last on its shelf. -/
theorem shelf_append_of_height {new : List Entry} (here : ∀ e ∈ new, e.2.height = height) :
    shelf (l ++ new) height = shelf l height ++ new := by
  rw [shelf, List.filter_append]
  exact congrArg _ (List.filter_eq_self.2 fun e he => beq_iff_eq.2 (here e he))

/-- Of two filters the first keeps the same entries as the second, and behind them some more. -/
def Besides (new : List Entry) (a a' : Admission) : Prop :=
  a'.gate = a.gate ∧ ∃ l, a.Keeps (l ++ new) ∧ a'.Keeps l

/-- What is kept besides is released last, and then the filters are twins. -/
theorem Besides.setHeight {new : List Entry} (h : Besides new a a')
    (here : ∀ e ∈ new, e.2.height = height) (up : a'.height ≤ height) (last : height < maxWord) :
    ∃ release release', a.setHeight height = .ok release ∧ a'.setHeight height = .ok release' ∧
      release'.admission.gate = (a'.me, height, a'.limits) ∧
        release.admission.Twins release'.admission ∧
          release.released = release'.released ++ new.map (·.2) := by
  obtain ⟨hgate, l, hkeeps, hkeeps'⟩ := h
  have hheight : a'.height = a.height := congrArg (fun gate => gate.2.1) hgate
  obtain ⟨release, hfree⟩ := setHeight_ok (a := a) (hheight ▸ up) last
  obtain ⟨release', hfree'⟩ := setHeight_ok up last
  obtain ⟨hadmission, hreleased⟩ := release_eq_of_setHeight hfree
  obtain ⟨hadmission', hreleased'⟩ := release_eq_of_setHeight hfree'
  refine ⟨release, release', hfree, hfree', gate_of_setHeight hfree', ?_, ?_⟩
  · rw [hadmission, hadmission']
    exact hkeeps.twins_moved hkeeps' hgate (above_append_of_height here).symm
  · rw [hreleased, hkeeps.released, shelf_append_of_height here, List.map_append, hreleased',
      hkeeps'.released]

end Admission

namespace Controller

open Activity

variable {moment : Moment} {c : Controller} {m : Message} {messages : List Message}
  {calls : List (Moment × Cue)} {height : Height}

/-- A message of a past height comes to nothing. -/
theorem receive_past (past : m.height < c.admission.height) :
    ∃ metrics : List Metric,
      (receive m).run moment c = ⟨c, metrics.map .report, .ok ()⟩ := by
  rw [receive, run_look_bind, Admission.offer]
  by_cases hown : m.sender = c.admission.me
  · rw [if_pos hown]
    exact ⟨[.dropped .ownMessage], rfl⟩
  · rw [if_neg hown, if_pos past]
    exact ⟨[.dropped .pastHeight], rfl⟩

/-- Messages of a past height come to nothing. -/
theorem respondAll_past (past : ∀ m ∈ messages, m.height < c.admission.height)
    (cues : calls.map (·.2) = messages.map .message) :
    ∃ metrics : List Metric, respondAll calls c = ⟨c, metrics.map .report, .ok ()⟩ := by
  induction messages generalizing calls with
  | nil =>
    obtain rfl := List.map_eq_nil_iff.1 cues
    exact ⟨[], rfl⟩
  | cons m messages ih =>
    obtain ⟨⟨moment, cue⟩, calls, rfl, rfl, hcues⟩ := List.map_eq_cons_iff.1 cues
    obtain ⟨metrics, hfirst⟩ : ∃ metrics : List Metric,
        (receive m).run moment c = ⟨c, metrics.map .report, .ok ()⟩ :=
      receive_past (past m List.mem_cons_self)
    obtain ⟨metrics', hrest⟩ := ih (fun m hm => past m (List.mem_cons_of_mem _ hm)) hcues
    refine ⟨metrics ++ metrics', ?_⟩
    show ((receive m).run moment c).goOn _ = _
    rw [hfirst, Outcome.goOn_of_ok rfl, hrest, List.map_append]

/-- A message of the current height passes the filter. -/
theorem receive_current (other : m.sender ≠ c.admission.me)
    (current : m.height = c.admission.height) :
    (receive m).run moment c = (pass m >>= settle).run moment c := by
  rw [receive, run_look_bind, Admission.offer, if_neg other,
    if_neg (Nat.not_lt_of_le (Nat.le_of_eq current.symm)), if_pos current]
  rfl

/-- **Early messages are cached**, one behind the other, and that is all. -/
theorem respondAll_early {l : List Entry} (keeps : c.admission.Keeps l)
    (welcome : c.admission.Welcomes (l.map (·.2)) messages)
    (cues : calls.map (·.2) = messages.map .message) :
    ∃ (a : Admission) (new : List Entry) (metrics : List Metric),
      respondAll calls c = ⟨{ c with admission := a }, metrics.map .report, .ok ()⟩ ∧
        a.gate = c.admission.gate ∧ a.Keeps (l ++ new) ∧ new.map (·.2) = messages := by
  induction messages generalizing calls c l with
  | nil =>
    obtain rfl := List.map_eq_nil_iff.1 cues
    refine ⟨c.admission, [], [], rfl, rfl, ?_, rfl⟩
    rw [List.append_nil]
    exact keeps
  | cons m messages ih =>
    obtain ⟨⟨moment, cue⟩, calls, rfl, rfl, hcues⟩ := List.map_eq_cons_iff.1 cues
    have hfirst : (receive m).run moment c = ⟨{ c with admission := c.admission.held m },
        [.report (c.admission.held m).cachedLevel], .ok ()⟩ := by
      rw [receive, run_look_bind, keeps.offer_welcome welcome]
      rfl
    obtain ⟨a, new, metrics, hrest, hgate, hkeeps, hnew⟩ :=
      ih (c := { c with admission := c.admission.held m }) keeps.held welcome.tail hcues
    refine ⟨a, c.admission.entryOf m :: new, (c.admission.held m).cachedLevel :: metrics, ?_,
      hgate, ?_, ?_⟩
    · show ((receive m).run moment c).goOn _ = _
      rw [hfirst, Outcome.goOn_of_ok rfl, hrest]
      rfl
    · rw [← List.append_cons] at hkeeps
      exact hkeeps
    · rw [List.map_cons, hnew]
      rfl

/-! ## Message by message -/

/-- What comes of giving messages to the term of a height: the filter is left alone, and a
decision is of this height. -/
structure Dwells (c : Controller) (height : Height) (o : Outcome (Option Decision)) : Prop where
  height?_eq : o.controller.height? = some height
  admission : o.controller.admission = c.admission
  decided : ∀ d, o.result = .ok (some d) → d.height = height

theorem dwells_pass (current : c.height? = some height) (m : Message) :
    c.Dwells height ((pass m).run moment c) := by
  rw [pass, run_look_bind]
  rcases hstage : c.stage with log | ⟨t, p⟩
  · exact ⟨current, rfl, fun d hd => absurd hd (by simp)⟩
  · obtain rfl : t.height = height :=
      Option.some.inj ((height?_of_stage hstage).symm.trans current)
    dsimp only
    rcases hreact : t.handleMessage p m with fault | s
    · rw [follow_run_error]
      exact ⟨current, rfl, fun d hd => absurd hd (by simp)⟩
    · have hreact' : t.react p (.message m) = .ok s := hreact
      rw [follow_run moment c t (Term.length_decisionsIn_of_react hreact')]
      refine ⟨height?_followed _ _ _ _, admission_followed _ _ _ _, fun d hd => ?_⟩
      exact Term.react_decision_height hreact' (Except.ok.inj hd)

theorem dwells_replay (current : c.height? = some height) {decided : Option Decision}
    (decision : ∀ d, decided = some d → d.height = height) (messages : List Message) :
    c.Dwells height ((replay decided messages).run moment c) := by
  induction messages generalizing decided c with
  | nil =>
    rcases decided with _ | d
    · exact ⟨current, rfl, fun d hd => absurd hd (by simp [replay])⟩
    · exact ⟨current, rfl, fun d' hd => decision d' (Except.ok.inj hd)⟩
  | cons m messages ih =>
    rcases decided with _ | d
    · have hpass : c.Dwells height ((pass m).run moment c) := dwells_pass current m
      rw [replay, run_bind_eq_goOn]
      rcases hresult : ((pass m).run moment c).result with reason | decided
      · rw [Outcome.goOn_of_error hresult]
        exact ⟨hpass.height?_eq, hpass.admission, fun d hd => absurd hd (by simp)⟩
      · rw [Outcome.goOn_of_ok hresult]
        have hrest := ih hpass.height?_eq fun d hd => hpass.decided d (hd ▸ hresult)
        exact ⟨hrest.height?_eq, hrest.admission.trans hpass.admission, hrest.decided⟩
    · exact ⟨current, rfl, fun d' hd => decision d' (Except.ok.inj hd)⟩

theorem replay_append (decided : Option Decision) (messages messages' : List Message) :
    replay decided (messages ++ messages') =
      replay decided messages >>= fun decided => replay decided messages' := by
  induction messages generalizing decided with
  | nil => rcases decided with _ | d <;> rfl
  | cons m messages ih =>
    rcases decided with _ | d
    · rw [List.cons_append, replay, replay, bind_assoc]
      exact congrArg _ (funext ih)
    · rcases messages' with _ | ⟨m', messages'⟩ <;> rfl

section Alike

variable {host : Height → Seed → Except HostError (List MemberId)} {early prompt : Moment}
  {c' : Controller}

/-- Once a decision is settled, the messages of its height come to nothing. -/
theorem alike_settle {d : Decision} (twins : c.Twins Admission.Twins c')
    (same : prompt.committeeOf = early.committeeOf) (past : ∀ m ∈ messages, m.height = d.height)
    (cues : calls.map (·.2) = messages.map .message) :
    ((settle (some d)).run early c).Alike Admission.Twins
      (((settle (some d)).run prompt c').goOn fun _ => respondAll calls) := by
  refine (steady_settle same (some d) c c' twins).goOn_idle fun ok => respondAll_past ?_ cues
  have hcourse : Course prompt c' (.after (some d) []) ((settle (some d)).run prompt c') :=
    course_settle
  intro m hm
  rw [past m hm]
  exact hcourse.left ok

/-- **To replay messages and settle is as good as to receive them**, one after the other. -/
theorem alike_replay {decided : Option Decision} (twins : c.Twins Admission.Twins c')
    (current : c'.height? = some height) (level : c'.admission.height = height)
    (decision : ∀ d, decided = some d → d.height = height)
    (others : ∀ m ∈ messages, m.sender ≠ c'.admission.me)
    (of_height : ∀ m ∈ messages, m.height = height)
    (cues : calls.map (·.2) = messages.map .message)
    (early_host : early.committeeOf = host) (prompt_host : prompt.committeeOf = host)
    (hosts : ∀ call ∈ calls, call.1.committeeOf = host) :
    ((replay decided messages >>= settle).run early c).Alike Admission.Twins
      (((settle decided).run prompt c').goOn fun _ => respondAll calls) := by
  -- a message is a call of its own on one side and part of one call on the other; what was decided
  -- so far is carried along, since from a decision on the sides go on differently
  induction messages generalizing c c' decided prompt calls with
  | nil =>
    rcases decided with _ | d
    · obtain rfl := List.map_eq_nil_iff.1 cues
      exact ⟨twins, rfl, rfl⟩
    · exact alike_settle twins (prompt_host.trans early_host.symm)
        (fun m hm => absurd hm List.not_mem_nil) cues
  | cons m messages ih =>
    rcases decided with _ | d
    · obtain ⟨⟨moment, cue⟩, calls, rfl, rfl, hcues⟩ := List.map_eq_cons_iff.1 cues
      have hreceive : (receive m).run moment c' = (pass m >>= settle).run moment c' :=
        receive_current (others m List.mem_cons_self)
          ((of_height m List.mem_cons_self).trans level.symm)
      have hpass : c'.Dwells height ((pass m).run moment c') := dwells_pass current m
      have hsame : ((pass m).run early c).Alike Admission.Twins ((pass m).run moment c') :=
        steady_pass m c c' twins
      rw [replay, bind_assoc, run_bind_eq_goOn]
      show Outcome.Alike _ _ (((receive m).run moment c').goOn fun _ => respondAll calls)
      rw [hreceive, run_bind_eq_goOn, Outcome.goOn_assoc]
      refine hsame.goOn fun decided hdecided => ?_
      have hadmission := hpass.admission
      refine ih hsame.controller hpass.height?_eq ?_ (fun d hd => ?_) ?_
        (fun m hm => of_height m (List.mem_cons_of_mem _ hm)) hcues
        (hosts _ List.mem_cons_self) fun call hcall => hosts call (List.mem_cons_of_mem _ hcall)
      · rw [hadmission]
        exact level
      · subst hd
        exact hpass.decided d (hsame.result.trans hdecided)
      · rw [hadmission]
        exact fun m hm => others m (List.mem_cons_of_mem _ hm)
    · exact alike_settle twins (prompt_host.trans early_host.symm)
        (fun m hm => (of_height m hm).trans (decision d rfl).symm) cues

/-- **The filter follows alike**, and what was cached is replayed alike, whether the messages of
the height are cached or come right after. -/
theorem alike_release {new : List Entry}
    (twins : c.Twins (Admission.Besides new) c') (current : c'.height? = some height)
    (up : c'.admission.height ≤ height) (last : height < maxWord)
    (here : ∀ e ∈ new, e.2.height = height)
    (others : ∀ m ∈ new.map (·.2), m.sender ≠ c'.admission.me)
    (cues : calls.map (·.2) = (new.map (·.2)).map .message)
    (early_host : early.committeeOf = host) (prompt_host : prompt.committeeOf = host)
    (hosts : ∀ call ∈ calls, call.1.committeeOf = host) :
    ((release height none >>= settle).run early c).Alike Admission.Twins
      (((release height none >>= settle).run prompt c').goOn fun _ => respondAll calls) := by
  obtain ⟨free, free', hfree, hfree', hgate, hadmission, hreleased⟩ :=
    twins.admission.setHeight here up last
  have htwins : Controller.Twins Admission.Twins { c with admission := free.admission }
      { c' with admission := free'.admission } := twins.withAdmission hadmission
  have hreport : ((report free.metrics).run early { c with admission := free.admission }).Alike
      Admission.Twins ((report free'.metrics).run prompt { c' with admission := free'.admission }) :=
    alike_report _ _ htwins
  have hlevel : free'.admission.height = height := congrArg (fun gate => gate.2.1) hgate
  have hme : free'.admission.me = c'.admission.me := congrArg Prod.fst hgate
  rw [release, bind_assoc, run_look_bind, run_look_bind, hfree, hfree']
  simp only [bind_assoc]
  rw [run_require_bind_ok, run_require_bind_ok, run_change_bind, run_change_bind,
    run_bind_eq_goOn, run_bind_eq_goOn, Outcome.goOn_assoc]
  refine hreport.goOn fun _ _ => ?_
  -- what both release comes first, and the messages that came early follow on it
  rw [hreleased, replay_append, bind_assoc, run_bind_eq_goOn, run_bind_eq_goOn, Outcome.goOn_assoc]
  have hsteady : Steady Admission.Twins early prompt (replay none free'.released) :=
    steady_replay none _
  have hsame := hsteady _ _ htwins
  refine hsame.goOn fun decided hdecided => ?_
  have hcurrent : height? { c' with admission := free'.admission } = some height := current
  have hdwells : Dwells { c' with admission := free'.admission } height
      ((replay none free'.released).run prompt { c' with admission := free'.admission }) :=
    dwells_replay hcurrent (fun d hd => absurd hd (by simp)) _
  have hadmission' := hdwells.admission
  refine alike_replay hsame.controller hdwells.height?_eq ?_ (fun d hd => ?_) ?_ ?_ cues early_host
    prompt_host hosts
  · rw [hadmission']
    exact hlevel
  · subst hd
    exact hdwells.decided d (hsame.result.trans hdecided)
  · rw [hadmission', hme]
    exact others
  · intro m hm
    obtain ⟨e, he, rfl⟩ := List.mem_map.1 hm
    exact here e he

/-- **A height is started alike**, whether its messages are cached or come right after. -/
theorem alike_setHeight {a : Admission} {new : List Entry} {committee : Committee}
    (besides : a.Besides new c.admission) (check : c.checkStart height = .ok ())
    (names : prompt.Names height (c.leave height).seed committee)
    (up : c.admission.height ≤ height) (last : height < maxWord)
    (here : ∀ e ∈ new, e.2.height = height)
    (others : ∀ m ∈ new.map (·.2), m.sender ≠ c.admission.me)
    (cues : calls.map (·.2) = (new.map (·.2)).map .message)
    (early_host : early.committeeOf = host) (prompt_host : prompt.committeeOf = host)
    (hosts : ∀ call ∈ calls, call.1.committeeOf = host) :
    ((setHeight height).run early { c with admission := a }).Alike Admission.Twins
      (((setHeight height).run prompt c).goOn fun _ => respondAll calls) := by
  have htwins : Controller.Twins (Admission.Besides new) { c with admission := a } c :=
    ⟨rfl, rfl, besides, rfl, rfl, rfl, rfl, rfl⟩
  have hraise := steady_raise (prompt_host.trans early_host.symm) height _ _ htwins
  have hrun := raise_run check (committee_run_of_names names _)
  have hcontroller := congrArg Outcome.controller hrun
  have hadmission : ((raise height).run prompt c).controller.admission = c.admission := by
    rw [hcontroller]
    exact admission_begun _ _ _ _
  have hok : ((raise height).run early { c with admission := a }).result = .ok none :=
    hraise.result.symm.trans (congrArg Outcome.result hrun)
  rw [setHeight, startHeight_eq, bind_assoc, run_bind_eq_goOn, run_bind_eq_goOn,
    Outcome.goOn_assoc]
  refine hraise.goOn_of_ok hok (alike_release hraise.controller ?_ ?_ last here ?_ cues early_host
    prompt_host hosts)
  · rw [hcontroller]
    exact height?_begun _ _ _ _
  · rw [hadmission]
    exact up
  · rw [hadmission]
    exact others

end Alike

/-! ## Before their height or right after -/

/-- Messages of a height ahead, by others, that can be cached without evicting any. -/
structure Early (c : Controller) (height : Height) (messages : List Message) : Prop where
  ahead : ∃ current, c.height? = some current ∧ current < height ∧
    height ≤ current + c.config.limits.heightsAhead
  last : height < maxWord
  of_height : ∀ m ∈ messages, m.height = height
  others : ∀ m ∈ messages, m.sender ≠ c.me
  perSender : ∀ m ∈ messages, ((c.admission.cached ++ messages).filter
    (·.sender == m.sender)).length ≤ c.config.limits.perSender
  total : (c.admission.cached ++ messages).length ≤ c.config.limits.total

variable {moment : Moment} {c : Controller} {height : Height} {messages : List Message}

theorem Early.welcome {l : List Entry} (h : c.Early height messages) (inStep : c.InStep)
    (keeps : c.admission.Keeps l) : c.admission.Welcomes (l.map (·.2)) messages := by
  obtain ⟨current, hcurrent, hbelow, hnear⟩ := h.ahead
  have hlevel : c.admission.height = current := inStep.level current hcurrent
  have hperm : (c.admission.cached ++ messages).Perm (l.map (·.2) ++ messages) :=
    (keeps.perm_shelves.map _).append_right _
  refine ⟨fun m hm => ?_, fun m hm => ?_, fun m hm => ?_, ?_⟩
  · rw [inStep.tidy.me]
    exact h.others m hm
  · rw [hlevel, inStep.tidy.limits, h.of_height m hm]
    exact ⟨hbelow, Nat.le_min.2 ⟨hnear, Nat.le_of_lt h.last⟩⟩
  · rw [inStep.tidy.limits, ← (hperm.filter _).length_eq]
    exact h.perSender m hm
  · rw [inStep.tidy.limits, ← hperm.length_eq]
    exact h.total

/-- A height ahead can be started, and the start leads up, whatever is cached. -/
theorem Early.rises (h : c.Early height messages) {a : Admission}
    (inStep : InStep { c with admission := a }) :
    Rises 0 { c with admission := a } (.heed (.start height)) := by
  obtain ⟨current, hcurrent, hbelow, -⟩ := h.ahead
  exact ⟨inStep, current, hcurrent, Nat.zero_le _, Nat.lt_trans hbelow h.last, hbelow⟩

theorem Early.checkStart (h : c.Early height messages) : c.checkStart height = .ok () := by
  obtain ⟨current, hcurrent, hbelow, -⟩ := h.ahead
  rw [Controller.checkStart, hcurrent]
  exact if_pos hbelow

theorem Early.filter_le (h : c.Early height messages) (inStep : c.InStep) :
    c.admission.height ≤ height := by
  obtain ⟨current, hcurrent, hbelow, -⟩ := h.ahead
  rw [inStep.level current hcurrent]
  exact Nat.le_of_lt hbelow

end Controller

namespace Serves

open Controller

variable {config : Config} {capabilities : Capabilities} {s : Service}

/-- **Early messages are as good as prompt ones.**  A controller with an active term is given
messages of a height ahead and then called to start the height; or it is called to start the
height and then given the messages.  If the host names committees, and no height that is started
is the last of all, then every call goes on to its end, on either way.  The same is done to the
world in the same order, and the controller is left with the same term, log, tip and cache. -/
theorem early_as_prompt (h : Serves config capabilities .anything s) (alive : s.Alive)
    {height : Height} {messages : List Message} (comes : s.controller.Early height messages)
    {early prompt : List (Moment × Cue)}
    (early_cues : early.map (·.2) = messages.map .message ++ [.start height])
    (prompt_cues : prompt.map (·.2) = .start height :: messages.map .message)
    {host : Height → Seed → Except HostError (List MemberId)}
    (hosts : ∀ call ∈ early ++ prompt, call.1.committeeOf = host)
    (willing : ∀ call ∈ early ++ prompt, call.1.Willing)
    (room : ∀ k ∈ startedIn (respondAll early s.controller).effects, k < maxWord) :
    (respondAll early s.controller).result = .ok () ∧
      (respondAll early s.controller).Alike Admission.Twins
        (respondAll prompt s.controller) := by
  have hinStep := h.inStep alive
  obtain ⟨l, hkeeps⟩ := hinStep.tidy.keeps
  obtain ⟨deliveries, starts, rfl, hdeliveries, hstarts⟩ := List.map_eq_append_iff.1 early_cues
  obtain ⟨⟨eve, cue⟩, rest, rfl, rfl, hrest⟩ := List.map_eq_cons_iff.1 hstarts
  obtain rfl := List.map_eq_nil_iff.1 hrest
  obtain ⟨⟨day, cue⟩, calls, rfl, rfl, hcalls⟩ := List.map_eq_cons_iff.1 prompt_cues
  obtain ⟨a, new, metrics, hcached, hgate, hkeeps', hnew⟩ :=
    respondAll_early hkeeps (comes.welcome hinStep hkeeps) hdeliveries
  have heve : (eve, Cue.start height) ∈ (deliveries ++ [(eve, .start height)]) ++
      (day, .start height) :: calls := by simp
  have hday : (day, Cue.start height) ∈ (deliveries ++ [(eve, .start height)]) ++
      (day, .start height) :: calls := by simp
  -- the height is started by the controller that cached the messages, and by the one that did not
  have hafter : InStep { s.controller with admission := a } := hinStep.replace hkeeps' hgate
  obtain ⟨committee, hnames⟩ := willing _ hday height (s.controller.leave height).seed
  have halike : ((setHeight height).run eve { s.controller with admission := a }).Alike
      Admission.Twins (respondAll ((day, .start height) :: calls) s.controller) := by
    refine alike_setHeight ⟨hgate.symm, l, hkeeps', hkeeps⟩ comes.checkStart hnames
      (comes.filter_le hinStep) comes.last (fun e he => ?_) ?_ ?_ (hosts _ heve) (hosts _ hday)
      fun call hcall => hosts call (List.mem_append_right _ (List.mem_cons_of_mem _ hcall))
    · exact comes.of_height e.2 (hnew ▸ List.mem_map_of_mem he)
    · rw [hnew, hinStep.tidy.me]
      exact comes.others
    · rw [hnew]
      exact hcalls
  rw [respondAll_snoc hcached] at room ⊢
  refine ⟨?_, halike.controller, ?_, halike.result⟩
  · have hcourse := course_respond eve { s.controller with admission := a } (.start height)
    refine hcourse.ok (comes.rises hafter) (((willing _ heve).grants _).grantsFrom 0)
      fun k hk => room k ?_
    rw [startedIn_append]
    exact List.mem_append_right _ hk
  · show deedsIn _ = deedsIn (_ ++ _)
    rw [deedsIn_append, deedsIn_reports, List.nil_append]
    exact halike.deeds

/-! ### A decision on the way -/

/-- The host names the same four members for every height. -/
def fourMoment (now : Nanoseconds) : Moment := ⟨now, fun _ _ => .ok [0, 1, 2, 3]⟩

theorem fourMoment_willing (now : Nanoseconds) : (fourMoment now).Willing :=
  fun _ _ => ⟨⟨[0, 1, 2, 3], by decide⟩, [0, 1, 2, 3], rfl, rfl⟩

/-- Calls at one instant. -/
def callsAt (now : Nanoseconds) (cues : List Cue) : List (Moment × Cue) :=
  cues.map fun cue => (fourMoment now, cue)

theorem map_callsAt (now : Nanoseconds) (cues : List Cue) : (callsAt now cues).map (·.2) = cues := by
  rw [callsAt, List.map_map]
  exact List.map_id cues

/-- Member `1` has started height `1`. -/
def settingOut : Service :=
  (Service.fresh .standard (Assembly.sample.capabilities 1)).call (fourMoment 0) (.start 1)

/-- What two members prepared in view `0` of height `2`. -/
def preparedAhead : Prepared :=
  ⟨(Assembly.plainKeys 0).prePrepare 2 0 (Assembly.plainBlock 2)
      (Assembly.plainHash (Assembly.plainBlock 2)),
    [2, 3].map fun i =>
      (Assembly.plainKeys i).prepare 2 0 (Assembly.plainHash (Assembly.plainBlock 2))⟩

/-- Votes for view `1` of height `2`, which member `1` leads, and the requests of all others for
this view.  The last request makes the member propose, and the votes are there already; one more
commit comes after that. -/
def votesAhead : List Message :=
  ([2, 3].map fun i => .prepare
      ((Assembly.plainKeys i).prepare 2 1 (Assembly.plainHash (Assembly.plainBlock 2)))) ++
    ([2, 3].map fun i => .commit
      ((Assembly.plainKeys i).commit 2 1 (Assembly.plainHash (Assembly.plainBlock 2)) 0)) ++
    ([0, 2, 3].map fun i => .viewChange
      ((Assembly.plainKeys i).viewChange 2 1 (some preparedAhead))) ++
    [.commit ((Assembly.plainKeys 0).commit 2 1 (Assembly.plainHash (Assembly.plainBlock 2)) 0)]

/-- The votes, and then the call to start their height. -/
def votesFirst : List (Moment × Cue) := callsAt 1 (votesAhead.map .message ++ [.start 2])

/-- The call to start a height, and then the votes for it. -/
def heightFirst : List (Moment × Cue) := callsAt 2 (.start 2 :: votesAhead.map .message)

theorem settingOut_early : settingOut.controller.Early 2 votesAhead where
  ahead := ⟨1, by decide +kernel, by decide, by decide +kernel⟩
  last := by decide
  of_height := by decide +kernel
  others := by decide +kernel
  perSender := by decide +kernel
  total := by decide +kernel

/-- The seventh message decides height `2`; height `3` is started before the last one comes. -/
theorem early_as_prompt_deciding :
    committedIn (respondAll votesFirst settingOut.controller).effects = [2] ∧
      startedIn (respondAll votesFirst settingOut.controller).effects = [2, 3] ∧
      (respondAll votesFirst settingOut.controller).result = .ok () ∧
      (respondAll votesFirst settingOut.controller).Alike Admission.Twins
        (respondAll heightFirst settingOut.controller) := by
  have hmoment : ∀ call ∈ votesFirst ++ heightFirst, ∃ now, call.1 = fourMoment now := by
    intro call hcall
    rcases List.mem_append.1 hcall with hcall | hcall
    · obtain ⟨cue, -, rfl⟩ := List.mem_map.1 hcall
      exact ⟨1, rfl⟩
    · obtain ⟨cue, -, rfl⟩ := List.mem_map.1 hcall
      exact ⟨2, rfl⟩
  have hhosts : ∀ call ∈ votesFirst ++ heightFirst,
      call.1.committeeOf = (fourMoment 0).committeeOf := by
    intro call hcall
    obtain ⟨now, hnow⟩ := hmoment call hcall
    rw [hnow]
    rfl
  have hwilling : ∀ call ∈ votesFirst ++ heightFirst, call.1.Willing := by
    intro call hcall
    obtain ⟨now, hnow⟩ := hmoment call hcall
    rw [hnow]
    exact fourMoment_willing now
  have hstarted : startedIn (respondAll votesFirst settingOut.controller).effects = [2, 3] := by
    decide +kernel
  have halive : settingOut.Alive := alive_of_result (.ok ()) (by decide +kernel) (by simp)
  have hserves : Serves .standard (Assembly.sample.capabilities 1) .anything settingOut :=
    .call .fresh (alive_of_result (.ok ()) rfl (by simp)) trivial
  refine ⟨by decide +kernel, hstarted, ?_⟩
  refine early_as_prompt hserves halive settingOut_early (map_callsAt _ _) (map_callsAt _ _)
    hhosts hwilling ?_
  rw [hstarted]
  decide

end Serves

end CommitteeConsensus
