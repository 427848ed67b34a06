import CommitteeConsensus.Proofs.Indexes

/-!
# The filter as one waiting list

What the filter answers can be said without any index.  There is one list of messages that
wait, in the order of their arrival.  A message of a height ahead goes to its end; if its sender
then has too many, the sender's first one leaves, and otherwise the first one of all leaves a
list that is too long.  A change of height takes the messages of the heights up to the new one
out, and gives those of the new one back.

`Waitlist` is this list, with each message under the number of its offer, and with the fate of
each message that does not wait any more.  `Admission.answers_eq` is the refinement: whatever
calls are made, the filter answers what the list answers.  Since the list does not lose a ticket
and does not make one up (`Waitlist.account`), every message that was offered has exactly one
fate, or waits.
-/

namespace CommitteeConsensus

/-! ## Calls of the filter -/

/-- A call of the filter. -/
inductive Call
  | offer (message : Message)
  | moveTo (height : Height)
  deriving DecidableEq

namespace Call

/-- The heights moved to do not descend, and have a successor. -/
def Rising : Height → List Call → Prop
  | _, [] => True
  | height, offer _ :: calls => Rising height calls
  | height, moveTo next :: calls => height ≤ next ∧ next < maxWord ∧ Rising next calls

/-- The height after a call. -/
def heightAfter (height : Height) : Call → Height
  | offer _ => height
  | moveTo next => next

/-- The message that is offered. -/
def offered? : Call → Option Message
  | offer message => some message
  | moveTo _ => none

theorem Rising.head {height : Height} {call : Call} {calls : List Call}
    (h : Rising height (call :: calls)) : Rising height [call] := by
  cases call with
  | offer m => exact trivial
  | moveTo next => exact ⟨h.1, h.2.1, trivial⟩

theorem Rising.tail {height : Height} {call : Call} {calls : List Call}
    (h : Rising height (call :: calls)) : Rising (call.heightAfter height) calls := by
  cases call with
  | offer m => exact h
  | moveTo next => exact h.2.2

end Call

/-- What the caller of the filter sees of a call: the messages it is given, the metrics that are
reported, and how many messages are cached after the call. -/
structure Reply where
  given : List Message
  metrics : List Metric
  cached : Nat
  deriving DecidableEq

namespace Admission

/-- One call. -/
def answer (a : Admission) : Call → Except Fault (Admission × Reply)
  | .offer message => do
    let answer ← a.offer message
    .ok (answer.admission,
      ⟨answer.passed.toList, answer.metrics, answer.admission.cachedCount⟩)
  | .moveTo height => do
    let release ← a.setHeight height
    .ok (release.admission,
      ⟨release.released, release.metrics, release.admission.cachedCount⟩)

/-- One call after the other. -/
def answers (a : Admission) : List Call → Except Fault (Admission × List Reply)
  | [] => .ok (a, [])
  | call :: calls => do
    let (next, reply) ← a.answer call
    let (last, replies) ← next.answers calls
    .ok (last, reply :: replies)

/-- The messages that are cached. -/
def cached (a : Admission) : List Message := (a.byHeight.flatMap (·.2)).map (·.2)

end Admission

/-! ## The waiting list -/

/-- A message with the number of its offer. -/
abbrev Ticket := Message × Nat

/-- What became of a message that does not wait any more. -/
inductive Fate
  /-- It was given back at once. -/
  | passed
  /-- It was dropped at once. -/
  | dropped
  /-- It waited, and had to make room. -/
  | evicted
  /-- It waited, and was given back when its height came. -/
  | released
  /-- It waited, and its height was left out. -/
  | skipped
  deriving DecidableEq

/-- Whether a message was given back. -/
def Fate.delivers : Fate → Bool
  | passed | released => true
  | dropped | evicted | skipped => false

structure Waitlist where
  me : MemberId
  height : Height
  limits : Limits
  /-- The tickets of the messages that wait, in the order of their arrival. -/
  waiting : List Ticket
  /-- How many messages were offered so far. -/
  offers : Nat
  deriving DecidableEq

namespace Waitlist

/-- What comes of a call. -/
structure Outcome where
  list : Waitlist
  reply : Reply
  fates : List (Fate × Ticket)
  deriving DecidableEq

/-- A list on which nothing waits. -/
def start (me : MemberId) (height : Height) (limits : Limits) : Waitlist :=
  ⟨me, height, limits, [], 0⟩

variable (w : Waitlist)

/-- Gives a message its fate at once. -/
def dismiss (m : Message) (fate : Fate) (given : List Message) (metrics : List Metric) : Outcome :=
  ⟨{ w with offers := w.offers + 1 }, ⟨given, metrics, w.waiting.length⟩, [(fate, m, w.offers)]⟩

/-- What is left to wait after a message was added, and the tickets that had to make room. -/
def store (left evicted : List Ticket) (metrics : List Metric) : Outcome :=
  ⟨{ w with waiting := left, offers := w.offers + 1 },
    ⟨[], metrics ++ [.set .cachedMessages left.length], left.length⟩, evicted.map (.evicted, ·)⟩

/-- Lets a message wait. -/
def enqueue (m : Message) : Outcome :=
  let all := w.waiting ++ [(m, w.offers)]
  if w.limits.perSender < (all.filter (·.1.sender == m.sender)).length then
    w.store (all.eraseP (·.1.sender == m.sender)) (all.find? (·.1.sender == m.sender)).toList
      [.dropped .senderLimit]
  else if w.limits.total < all.length then
    w.store all.tail all.head?.toList [.dropped .cacheFull]
  else w.store all [] []

def offer (m : Message) : Outcome :=
  if m.sender = w.me then w.dismiss m .dropped [] [.dropped .ownMessage]
  else if m.height < w.height then w.dismiss m .dropped [] [.dropped .pastHeight]
  else if m.height = w.height then w.dismiss m .passed [m] []
  else if satAdd w.height w.limits.heightsAhead < m.height then
    w.dismiss m .dropped [] [.dropped .tooFarAhead]
  else w.enqueue m

def moveTo (height : Height) : Outcome :=
  let left := w.waiting.filter (decide <| height < ·.1.height)
  let released := w.waiting.filter (·.1.height == height)
  let skipped := w.waiting.filter (decide <| ·.1.height < height)
  ⟨{ w with height, waiting := left },
    ⟨released.map (·.1), [.set .cachedMessages left.length], left.length⟩,
    released.map (.released, ·) ++ skipped.map (.skipped, ·)⟩

/-- One call. -/
def answer : Call → Outcome
  | .offer m => w.offer m
  | .moveTo height => w.moveTo height

/-- What comes of several calls. -/
structure Record where
  list : Waitlist
  replies : List Reply
  fates : List (Fate × Ticket)
  deriving DecidableEq

/-- One call after the other. -/
def answers (w : Waitlist) : List Call → Record
  | [] => ⟨w, [], []⟩
  | call :: calls =>
    let outcome := w.answer call
    let record := outcome.list.answers calls
    ⟨record.list, outcome.reply :: record.replies, outcome.fates ++ record.fates⟩

/-! ## The accounts of the list -/

variable {w} {m : Message} {call : Call} {calls : List Call}

/-- The tickets of an outcome: those with a fate, and those that wait. -/
def Outcome.tickets (o : Outcome) : List Ticket := o.fates.map (·.2) ++ o.list.waiting

/-- The messages that were given back, by their fate. -/
def delivered (fates : List (Fate × Ticket)) : List Message :=
  (fates.filter (·.1.delivers)).map (·.2.1)

/-- The ticket of an offered message. -/
def ticket (w : Waitlist) (call : Call) : List Ticket := call.offered?.toList.map (·, w.offers)

theorem perm_dismiss (fate : Fate) (given : List Message) (metrics : List Metric) :
    (w.dismiss m fate given metrics).tickets.Perm (w.waiting ++ [(m, w.offers)]) :=
  (List.perm_append_singleton _ _).symm

theorem perm_store {left evicted all : List Ticket} (metrics : List Metric)
    (h : all.Perm (evicted ++ left)) : (w.store left evicted metrics).tickets.Perm all := by
  have hmap : (evicted.map (Fate.evicted, ·)).map (·.2) = evicted := by
    rw [List.map_map]
    exact List.map_id _
  rw [Outcome.tickets, store]
  dsimp only
  rw [hmap]
  exact h.symm

theorem perm_eraseP {p : Ticket → Bool} (l : List Ticket) :
    l.Perm ((l.find? p).toList ++ l.eraseP p) := by
  induction l with
  | nil => exact List.Perm.refl _
  | cons t rest ih =>
    rw [List.find?_cons, List.eraseP_cons]
    rcases p t with _ | _
    · exact (ih.cons t).trans List.perm_middle.symm
    · exact List.Perm.refl _

theorem perm_enqueue : (w.enqueue m).tickets.Perm (w.waiting ++ [(m, w.offers)]) := by
  rw [enqueue]
  split
  · exact perm_store _ (perm_eraseP _)
  · split
    · refine perm_store _ ?_
      rcases w.waiting ++ [(m, w.offers)] with _ | ⟨t, rest⟩
      · exact List.Perm.refl _
      · exact List.Perm.refl _
    · exact perm_store _ (List.Perm.refl _)

/-- A list falls into what is at a height, below it and above it. -/
theorem perm_moveTo (height : Height) : (w.moveTo height).tickets.Perm w.waiting := by
  rw [Outcome.tickets, moveTo]
  dsimp only
  rw [List.map_append, List.map_map, List.map_map]
  induction w.waiting with
  | nil => exact List.Perm.refl _
  | cons t rest ih =>
    rw [List.filter_cons, List.filter_cons, List.filter_cons]
    simp only [beq_iff_eq, decide_eq_true_iff]
    rcases Nat.lt_trichotomy t.1.height height with hlt | heq | hgt
    · rw [if_neg (Nat.ne_of_lt hlt), if_pos hlt, if_neg (Nat.lt_asymm hlt), List.map_cons,
        List.append_assoc, List.cons_append]
      rw [List.append_assoc] at ih
      exact List.perm_middle.trans (ih.cons t)
    · rw [if_pos heq, if_neg (Nat.not_lt_of_le (Nat.le_of_eq heq.symm)),
        if_neg (Nat.not_lt_of_le (Nat.le_of_eq heq))]
      exact ih.cons t
    · rw [if_neg (Nat.ne_of_gt hgt), if_neg (Nat.lt_asymm hgt), if_pos hgt]
      exact List.perm_middle.trans (ih.cons t)

/-- **A call loses no ticket and makes none up.** -/
theorem perm_answer : (w.answer call).tickets.Perm (w.waiting ++ w.ticket call) := by
  cases call with
  | offer m =>
    rw [answer, offer]
    split
    · exact perm_dismiss _ _ _
    · split
      · exact perm_dismiss _ _ _
      · split
        · exact perm_dismiss _ _ _
        · split
          · exact perm_dismiss _ _ _
          · exact perm_enqueue
  | moveTo height =>
    rw [ticket, Call.offered?, Option.toList_none, List.map_nil, List.append_nil]
    exact perm_moveTo height

/-- What a call gives back is what it lets pass or releases. -/
theorem given_answer : (w.answer call).reply.given = delivered (w.answer call).fates := by
  have hstore : ∀ left evicted metrics,
      (w.store left evicted metrics).reply.given =
        delivered (w.store left evicted metrics).fates := by
    intro left evicted metrics
    rw [delivered, store, List.filter_eq_nil_iff.2, List.map_nil]
    intro x hx
    obtain ⟨t, -, rfl⟩ := List.mem_map.1 hx
    exact Bool.false_ne_true
  cases call with
  | offer m =>
    rw [answer, offer]
    split
    · rfl
    · split
      · rfl
      · split
        · rfl
        · split
          · rfl
          · rw [enqueue]
            split
            · exact hstore _ _ _
            · split
              · exact hstore _ _ _
              · exact hstore _ _ _
  | moveTo height =>
    rw [answer, delivered, moveTo]
    dsimp only
    have hreleased : ∀ l : List Ticket,
        (l.map (Fate.released, ·)).filter (·.1.delivers) = l.map (Fate.released, ·) := by
      intro l
      refine List.filter_eq_self.2 fun x hx => ?_
      obtain ⟨t, -, rfl⟩ := List.mem_map.1 hx
      rfl
    have hskipped : ∀ l : List Ticket,
        (l.map (Fate.skipped, ·)).filter (·.1.delivers) = [] := by
      intro l
      refine List.filter_eq_nil_iff.2 fun x hx => ?_
      obtain ⟨t, -, rfl⟩ := List.mem_map.1 hx
      exact Bool.false_ne_true
    rw [List.filter_append, hreleased, hskipped, List.append_nil, List.map_map]
    rfl

theorem offers_answer : (w.answer call).list.offers = w.offers + (w.ticket call).length := by
  cases call with
  | offer m =>
    rw [answer, offer, enqueue]
    repeat' split
    all_goals rfl
  | moveTo height => rfl

/-- **The accounts of a whole run**: the tickets with a fate and those that wait are the
tickets of the messages that were offered, and those that waited before. -/
theorem account (calls : List Call) : ∀ w : Waitlist,
    (((w.answers calls).fates.map (·.2)) ++ (w.answers calls).list.waiting).Perm
      (w.waiting ++ (calls.filterMap Call.offered?).zipIdx w.offers) := by
  induction calls with
  | nil =>
    intro w
    rw [List.filterMap_nil, List.zipIdx_nil, List.append_nil]
    exact List.Perm.refl _
  | cons call calls ih =>
    intro w
    have hrest := ih (w.answer call).list
    have hcall : ((w.answer call).fates.map (·.2) ++ (w.answer call).list.waiting).Perm
      (w.waiting ++ w.ticket call) := perm_answer
    have hzip : ((call :: calls).filterMap Call.offered?).zipIdx w.offers =
        w.ticket call ++ (calls.filterMap Call.offered?).zipIdx (w.answer call).list.offers := by
      rw [offers_answer]
      cases call with
      | offer m => rfl
      | moveTo height => rfl
    rw [hzip, answers]
    dsimp only
    rw [List.map_append, List.append_assoc, ← List.append_assoc w.waiting]
    refine (hrest.append_left _).trans ?_
    rw [← List.append_assoc]
    exact hcall.append_right _

theorem given_answers (calls : List Call) : ∀ w : Waitlist,
    (w.answers calls).replies.flatMap (·.given) = delivered (w.answers calls).fates := by
  induction calls with
  | nil => exact fun w => rfl
  | cons call calls ih =>
    intro w
    rw [answers, List.flatMap_cons, ih, given_answer, delivered, delivered, delivered,
      List.filter_append, List.map_append]

end Waitlist

/-! ## The filter answers as the list does -/

section Maps

variable {α β γ : Type} {l : List α} {k : List β} {f : α → γ} {g : β → γ}

theorem map_filter_eq (h : l.map f = k.map g) (p : γ → Bool) :
    (l.filter (p ∘ f)).map f = (k.filter (p ∘ g)).map g := by
  rw [← List.filter_map, ← List.filter_map, h]

theorem map_eraseP_eq (h : l.map f = k.map g) (p : γ → Bool) :
    (l.eraseP (p ∘ f)).map f = (k.eraseP (p ∘ g)).map g := by
  rw [← List.eraseP_map, ← List.eraseP_map, h]

theorem length_eq_of_map_eq (h : l.map f = k.map g) : l.length = k.length := by
  rw [← List.length_map (f := f), h, List.length_map]

end Maps

namespace Admission

variable {a : Admission} {w : Waitlist} {m : Message} {call : Call}

/-- A filter and a list on which the same messages wait, in the same order. -/
structure Mirrors (a : Admission) (w : Waitlist) : Prop where
  gate : a.gate = (w.me, w.height, w.limits)
  keeps : ∃ l, a.Keeps l ∧ l.map (·.2) = w.waiting.map (·.1)

theorem mirrors_start (me : MemberId) (height : Height) (limits : Limits) :
    (start me height limits).Mirrors (Waitlist.start me height limits) :=
  ⟨rfl, [], keeps_start me height limits, rfl⟩

namespace Mirrors

theorem me_eq (mirrors : a.Mirrors w) : a.me = w.me := congrArg Prod.fst mirrors.gate

theorem height_eq (mirrors : a.Mirrors w) : a.height = w.height :=
  congrArg (fun g => g.2.1) mirrors.gate

theorem limits_eq (mirrors : a.Mirrors w) : a.limits = w.limits :=
  congrArg (fun g => g.2.2) mirrors.gate

theorem cachedCount_eq (mirrors : a.Mirrors w) : a.cachedCount = w.waiting.length := by
  obtain ⟨l, keeps, hsame⟩ := mirrors.keeps
  rw [keeps.cachedCount, length_eq_of_map_eq hsame]

theorem perm_cached (mirrors : a.Mirrors w) : a.cached.Perm (w.waiting.map (·.1)) := by
  obtain ⟨l, keeps, hsame⟩ := mirrors.keeps
  rw [← hsame]
  exact keeps.perm_shelves.map _

/-- A list of the same messages as another filter keeps reports the same level. -/
theorem cachedLevel_eq (mirrors : a.Mirrors w) :
    a.cachedLevel = .set .cachedMessages w.waiting.length := by
  rw [cachedLevel, mirrors.cachedCount_eq]

/-- **Caching.**  The three cases are those of the filter; which of them it is depends on the
messages that wait only, and so does what leaves. -/
theorem hold (mirrors : a.Mirrors w) (m : Message) : ∃ a' metrics,
    a.hold m = .ok (a', metrics) ∧ a'.Mirrors (w.enqueue m).list ∧
      (w.enqueue m).reply = ⟨[], metrics, a'.cachedCount⟩ := by
  obtain ⟨l, keeps, hsame⟩ := mirrors.keeps
  have hall : (l ++ [a.entryOf m]).map (·.2) = (w.waiting ++ [(m, w.offers)]).map (·.1) := by
    rw [List.map_append, List.map_append, hsame]
    rfl
  have hgate : a.gate = (w.me, w.height, w.limits) := mirrors.gate
  have hmine : (bySameSender (l ++ [a.entryOf m]) m.sender).length =
      ((w.waiting ++ [(m, w.offers)]).filter (·.1.sender == m.sender)).length :=
    length_eq_of_map_eq (map_filter_eq hall (·.sender == m.sender))
  have hlength : (l ++ [a.entryOf m]).length = (w.waiting ++ [(m, w.offers)]).length :=
    length_eq_of_map_eq hall
  rw [Waitlist.enqueue, ← hmine, ← hlength, ← mirrors.limits_eq]
  by_cases hover : a.limits.perSender < (bySameSender (l ++ [a.entryOf m]) m.sender).length
  · obtain ⟨a', e, hheld, hgate', hfind, hkeeps⟩ := keeps.hold_of_overdrawn hover
    rw [if_pos hover]
    rw [← eraseP_eq_without keeps.held.arrivals hfind] at hkeeps
    have hmirrors : a'.Mirrors (w.store
        ((w.waiting ++ [(m, w.offers)]).eraseP (·.1.sender == m.sender))
        ((w.waiting ++ [(m, w.offers)]).find? (·.1.sender == m.sender)).toList
        [.dropped .senderLimit]).list :=
      ⟨hgate'.trans hgate, _, hkeeps, map_eraseP_eq hall (·.sender == m.sender)⟩
    refine ⟨a', _, hheld, hmirrors, ?_⟩
    rw [hmirrors.cachedLevel_eq, hmirrors.cachedCount_eq]
    rfl
  · rw [if_neg hover]
    by_cases hfull : a.limits.total < (l ++ [a.entryOf m]).length
    · obtain ⟨a', hheld, hgate', hkeeps⟩ := keeps.hold_of_full hover hfull
      rw [if_pos hfull]
      have hmirrors : a'.Mirrors (w.store (w.waiting ++ [(m, w.offers)]).tail
          (w.waiting ++ [(m, w.offers)]).head?.toList [.dropped .cacheFull]).list := by
        refine ⟨hgate'.trans hgate, _, hkeeps, ?_⟩
        rw [List.map_tail, hall, ← List.map_tail]
        rfl
      refine ⟨a', _, hheld, hmirrors, ?_⟩
      rw [hmirrors.cachedLevel_eq, hmirrors.cachedCount_eq]
      rfl
    · rw [if_neg hfull]
      have hmirrors : (a.held m).Mirrors (w.store (w.waiting ++ [(m, w.offers)]) [] []).list :=
        ⟨hgate, _, keeps.held, hall⟩
      refine ⟨a.held m, _, keeps.hold_of_room hover hfull, hmirrors, ?_⟩
      rw [hmirrors.cachedLevel_eq, hmirrors.cachedCount_eq]
      rfl

theorem offer (mirrors : a.Mirrors w) (m : Message) : ∃ a',
    a.answer (.offer m) = .ok (a', (w.offer m).reply) ∧ a'.Mirrors (w.offer m).list := by
  -- an answer at once leaves the cache as it is
  have hdismiss : ∀ fate passed metrics,
      a.offer m = .ok ⟨a, passed, metrics⟩ → ∃ a',
        a.answer (.offer m) = .ok (a', (w.dismiss m fate passed.toList metrics).reply) ∧
          a'.Mirrors (w.dismiss m fate passed.toList metrics).list := by
    intro fate passed metrics hoffer
    refine ⟨a, ?_, mirrors.gate, mirrors.keeps⟩
    rw [Admission.answer, hoffer, Waitlist.dismiss, ← mirrors.cachedCount_eq]
    rfl
  rw [Waitlist.offer, ← mirrors.me_eq, ← mirrors.height_eq, ← mirrors.limits_eq]
  by_cases hown : m.sender = a.me
  · rw [if_pos hown]
    refine hdismiss .dropped none [.dropped .ownMessage] ?_
    rw [Admission.offer, if_pos hown]
  · rw [if_neg hown]
    by_cases hpast : m.height < a.height
    · rw [if_pos hpast]
      refine hdismiss .dropped none [.dropped .pastHeight] ?_
      rw [Admission.offer, if_neg hown, if_pos hpast]
    · rw [if_neg hpast]
      by_cases hcurrent : m.height = a.height
      · rw [if_pos hcurrent]
        refine hdismiss .passed (some m) [] ?_
        rw [Admission.offer, if_neg hown, if_neg hpast, if_pos hcurrent]
      · rw [if_neg hcurrent]
        by_cases hfar : satAdd a.height a.limits.heightsAhead < m.height
        · rw [if_pos hfar]
          refine hdismiss .dropped none [.dropped .tooFarAhead] ?_
          rw [Admission.offer, if_neg hown, if_neg hpast, if_neg hcurrent, if_pos hfar]
        · rw [if_neg hfar]
          obtain ⟨a', metrics, hheld, hmirrors, hreply⟩ := mirrors.hold m
          refine ⟨a', ?_, hmirrors⟩
          rw [Admission.answer, Admission.offer, if_neg hown, if_neg hpast, if_neg hcurrent,
            if_neg hfar, hheld, hreply]
          rfl

theorem moveTo (mirrors : a.Mirrors w) {height : Height} (hle : w.height ≤ height)
    (hlast : height < maxWord) : ∃ a',
      a.answer (.moveTo height) = .ok (a', (w.moveTo height).reply) ∧
        a'.Mirrors (w.moveTo height).list := by
  obtain ⟨l, keeps, hsame⟩ := mirrors.keeps
  have hmirrors : (a.moved height).Mirrors (w.moveTo height).list := by
    refine ⟨?_, _, keeps.moved height, map_filter_eq hsame (decide <| height < ·.height)⟩
    rw [Admission.gate, Admission.moved, mirrors.me_eq, mirrors.limits_eq]
    rfl
  refine ⟨a.moved height, ?_, hmirrors⟩
  have hreleased : (shelf l height).map (·.2) =
      (w.waiting.filter (·.1.height == height)).map (·.1) :=
    map_filter_eq hsame (·.height == height)
  have hset : a.setHeight height = .ok ⟨a.moved height,
      (w.waiting.filter (·.1.height == height)).map (·.1), [(a.moved height).cachedLevel]⟩ := by
    rw [setHeight, if_neg, nextHeight_of_lt hlast, keeps.released, hreleased]
    · rfl
    · rw [mirrors.height_eq]
      exact Nat.not_lt_of_le hle
  rw [Admission.answer, hset, hmirrors.cachedLevel_eq]
  refine congrArg Except.ok (Prod.ext rfl ?_)
  show Reply.mk _ _ (a.moved height).cachedCount = _
  rw [hmirrors.cachedCount_eq]
  rfl

/-- **One call** is answered as by the list, and they still mirror each other. -/
theorem answer (mirrors : a.Mirrors w) (rising : Call.Rising w.height [call]) : ∃ a',
    a.answer call = .ok (a', (w.answer call).reply) ∧ a'.Mirrors (w.answer call).list := by
  cases call with
  | offer m => exact mirrors.offer m
  | moveTo height => exact mirrors.moveTo rising.1 rising.2.1

theorem height_answer (w : Waitlist) (call : Call) :
    (w.answer call).list.height = call.heightAfter w.height := by
  cases call with
  | offer m =>
    rw [Waitlist.answer, Waitlist.offer, Waitlist.enqueue]
    repeat' split
    all_goals rfl
  | moveTo height => rfl

/-- **A run of calls.** -/
theorem answers (calls : List Call) : ∀ {a : Admission} {w : Waitlist}, a.Mirrors w →
    Call.Rising w.height calls → ∃ a', a.answers calls = .ok (a', (w.answers calls).replies) ∧
      a'.Mirrors (w.answers calls).list := by
  induction calls with
  | nil => exact fun {a w} mirrors _ => ⟨a, rfl, mirrors⟩
  | cons call calls ih =>
    intro a w mirrors rising
    obtain ⟨next, hnext, hmirrors⟩ := mirrors.answer rising.head
    have hrest : Call.Rising (w.answer call).list.height calls := by
      rw [height_answer]
      exact rising.tail
    obtain ⟨last, hlast, hmirrors'⟩ := ih hmirrors hrest
    refine ⟨last, ?_, hmirrors'⟩
    rw [Admission.answers, hnext]
    show (next.answers calls >>= _) = _
    rw [hlast]
    rfl

end Mirrors

/-- **The filter is its waiting list.**  Whatever is asked of a filter, as long as the heights
moved to do not descend, it answers what the waiting list answers: the same messages are given
back, the same metrics are reported, and as many messages are cached, after every call.  In the
end the messages that are cached are those that wait.

The tickets with a fate and those that wait are, each once, those of the messages that were
offered: none is lost, and none has two fates.  In particular no message is given back twice, as
what is given back is what passed or was released. -/
theorem answers_eq_waitlist (me : MemberId) (height : Height) (limits : Limits)
    (calls : List Call) (rising : Call.Rising height calls) :
    ∃ a, (start me height limits).answers calls =
        .ok (a, ((Waitlist.start me height limits).answers calls).replies) ∧
      a.cachedCount = ((Waitlist.start me height limits).answers calls).list.waiting.length ∧
      a.cached.Perm (((Waitlist.start me height limits).answers calls).list.waiting.map (·.1)) ∧
      (((Waitlist.start me height limits).answers calls).fates.map (·.2) ++
        ((Waitlist.start me height limits).answers calls).list.waiting).Perm
          (calls.filterMap Call.offered?).zipIdx ∧
      ((Waitlist.start me height limits).answers calls).replies.flatMap (·.given) =
        Waitlist.delivered ((Waitlist.start me height limits).answers calls).fates := by
  obtain ⟨a, hanswers, hmirrors⟩ := (mirrors_start me height limits).answers calls rising
  exact ⟨a, hanswers, hmirrors.cachedCount_eq, hmirrors.perm_cached,
    Waitlist.account calls (Waitlist.start me height limits),
    Waitlist.given_answers calls (Waitlist.start me height limits)⟩

/-- A Prepare of view `0` for no block in particular. -/
def bareVote (height : Height) (sender : MemberId) : Message :=
  .prepare ⟨⟨height, 0, Digest.zero⟩, sender, []⟩

/-- Every rule of the filter of member `0` at height `5`, which caches two messages of a sender
and three in all: the third message of member `1` evicts its first, and the second of member `3`
the one that waits longest; height `7` is left out. -/
def crowdedCalls : List Call :=
  [.offer (bareVote 6 1), .offer (bareVote 7 1), .offer (bareVote 6 1), .offer (bareVote 6 0),
    .offer (bareVote 4 2), .offer (bareVote 5 2), .offer (bareVote 11 2), .offer (bareVote 8 2),
    .offer (bareVote 6 3), .moveTo 6, .offer (bareVote 7 3), .moveTo 8]

/-- The fates of the messages, by the numbers of their offers; none waits in the end. -/
theorem answers_eq_waitlist_crowded : Call.Rising 5 crowdedCalls ∧
    ∃ a, (start 0 5 ⟨5, 2, 3, 0⟩).answers crowdedCalls =
        .ok (a, ((Waitlist.start 0 5 ⟨5, 2, 3, 0⟩).answers crowdedCalls).replies) ∧
      a.cachedCount = 0 ∧
      ((Waitlist.start 0 5 ⟨5, 2, 3, 0⟩).answers crowdedCalls).fates.map
          (fun fate => (fate.2.2, fate.1)) =
        [(0, .evicted), (3, .dropped), (4, .dropped), (5, .passed), (6, .dropped), (1, .evicted),
          (2, .released), (8, .released), (7, .released), (9, .skipped)] := by
  have hrising : Call.Rising 5 crowdedCalls := by
    simp only [crowdedCalls, Call.Rising]
    decide
  obtain ⟨a, hanswers, hcount, -, -, -⟩ :=
    answers_eq_waitlist 0 5 ⟨5, 2, 3, 0⟩ crowdedCalls hrising
  refine ⟨hrising, a, hanswers, ?_, ?_⟩
  · rw [hcount]
    decide
  · decide

end Admission

end CommitteeConsensus
