import CommitteeConsensus.Proofs.Waitlist

/-!
# What the filter takes up

Anybody can write any sender into a message of a height ahead.  So the filter must not grow with
the senders that are claimed, and this rests on one thing: a sender of whom nothing is cached any
more has no queue.  Messages leave the cache in three ways, and each of them has to see to it.

* A sender over its limit loses its first message.  Its last one has just come, and there are at
  least two of them if one was allowed.
* The oldest message of all leaves, and with it the queue that it was alone in.
* A change of height cuts all queues, and drops the empty ones.

That both indexes are indexes of one list (`Admission.Keeps`) does not say this, as a sender may
have no queue or an empty one there.  Together with the bounds on the list it makes up the
invariant of the calls (`Admission.Compact`).  What it means for the two tables themselves is
`Admission.Indexed`, and how large they get is `Admission.Bounded`.
-/

namespace CommitteeConsensus

/-! ## Tables of lists -/

section NoneEmpty

variable {β : Type} {key : Nat} {table : List (Nat × List β)}

/-- No list in the table is empty. -/
def NoneEmpty (table : List (Nat × List β)) : Prop := ∀ e ∈ table, e.2 ≠ []

theorem noneEmpty_nil : NoneEmpty ([] : List (Nat × List β)) :=
  fun _ he => absurd he List.not_mem_nil

theorem NoneEmpty.alter {f : Option (List β) → Option (List β)} (h : NoneEmpty table)
    (hf : ∀ old left, f old = some left → left ≠ []) : NoneEmpty (Table.alter key f table) := by
  rintro ⟨k, left⟩ he
  rcases Table.mem_alter he with he | ⟨-, old, -, heq⟩
  · exact h _ he
  · exact hf old left heq

/-- A table without empty lists has no more keys than there is in its lists. -/
theorem NoneEmpty.length_le (h : NoneEmpty table) :
    table.length ≤ (table.flatMap (·.2)).length := by
  induction table with
  | nil => exact Nat.le_refl _
  | cons e rest ih =>
    have hrest : rest.length ≤ (rest.flatMap (·.2)).length :=
      ih fun e he => h e (List.mem_cons_of_mem _ he)
    have hfirst : 0 < e.2.length := List.length_pos_of_ne_nil (h e List.mem_cons_self)
    rw [List.flatMap_cons, List.length_append, List.length_cons]
    omega

end NoneEmpty

namespace Admission

variable {a a' : Admission} {l : List Entry} {e : Entry} {m : Message} {h : Height}
  {s : MemberId}

/-! ## The queues -/

/-- The places of the cached messages: their heights and the numbers of their arrivals. -/
def cachedPlaces (a : Admission) : List (Height × Arrival) :=
  a.byHeight.flatMap fun shelf => shelf.2.map fun e => (shelf.1, e.1)

/-- The places in the queues of all senders. -/
def queuedPlaces (a : Admission) : List (Height × Arrival) := a.bySender.flatMap (·.2)

theorem eq_of_place_eq {e' : Entry} (asc : Table.Ascending l) (he : e ∈ l) (he' : e' ∈ l)
    (heq : e.place = e'.place) : e = e' := eq_of_arrival_eq asc he he' (congrArg Prod.snd heq)

theorem nodup_map_place (asc : Table.Ascending l) : (l.map Entry.place).Nodup := by
  refine List.pairwise_map.2 (asc.imp fun {e e'} hlt heq => ?_)
  exact Nat.ne_of_lt hlt (congrArg Prod.snd heq)

theorem mem_places {place : Height × Arrival} :
    place ∈ places l s ↔ ∃ e ∈ l, e.2.sender = s ∧ e.place = place := by
  rw [places, List.mem_map]
  refine exists_congr fun e => ?_
  rw [mem_bySameSender, and_assoc]

namespace Keeps

/-- A queue that is not empty is the queue of its sender. -/
theorem mem_bySender_iff (keeps : a.Keeps l) (queues : NoneEmpty a.bySender)
    {queue : List (Height × Arrival)} :
    (s, queue) ∈ a.bySender ↔ places l s = queue ∧ places l s ≠ [] := by
  rw [← Table.get?_eq_some_iff keeps.senders, ← keeps.queues]
  constructor
  · intro hfound
    rw [hfound]
    exact ⟨rfl, queues _ (Table.mem_of_get? hfound)⟩
  · rintro ⟨hqueue, hne⟩
    rcases hfound : Table.get? s a.bySender with _ | found
    · rw [hfound] at hne
      exact absurd rfl hne
    · rw [hfound] at hqueue
      rw [← hqueue]
      rfl

/-- The queues hold the places of the list, each once. -/
theorem perm_queuedPlaces (keeps : a.Keeps l) (queues : NoneEmpty a.bySender) :
    a.queuedPlaces.Perm (l.map Entry.place) := by
  have hnodup : (l.map Entry.place).Nodup := nodup_map_place keeps.arrivals
  refine (List.perm_ext_iff_of_nodup (List.nodup_flatMap.2 ⟨?_, ?_⟩) hnodup).2 fun place => ?_
  · rintro ⟨s, queue⟩ hmem
    obtain ⟨rfl, -⟩ := (keeps.mem_bySender_iff queues).1 hmem
    exact nodup_map_place keeps.arrivals.bySameSender
  · refine (List.Pairwise.and_mem.1 keeps.senders).imp ?_
    rintro ⟨s, queue⟩ ⟨s', queue'⟩ ⟨hmem, hmem', hlt⟩ place hplace hplace'
    obtain ⟨rfl, -⟩ := (keeps.mem_bySender_iff queues).1 hmem
    obtain ⟨rfl, -⟩ := (keeps.mem_bySender_iff queues).1 hmem'
    -- one place is the place of one entry, which has one sender
    obtain ⟨e, he, hsender, hat⟩ := mem_places.1 hplace
    obtain ⟨e', he', hsender', hat'⟩ := mem_places.1 hplace'
    obtain rfl := eq_of_place_eq keeps.arrivals he he' (hat.trans hat'.symm)
    exact Nat.ne_of_lt hlt (hsender.symm.trans hsender')
  · rw [List.mem_flatMap, List.mem_map]
    constructor
    · rintro ⟨⟨s, queue⟩, hmem, hplace⟩
      obtain ⟨rfl, -⟩ := (keeps.mem_bySender_iff queues).1 hmem
      obtain ⟨e, he, -, hat⟩ := mem_places.1 hplace
      exact ⟨e, he, hat⟩
    · rintro ⟨e, he, rfl⟩
      have hplace : e.place ∈ places l e.2.sender := mem_places.2 ⟨e, he, rfl, rfl⟩
      refine ⟨(e.2.sender, places l e.2.sender), ?_, hplace⟩
      exact (keeps.mem_bySender_iff queues).2 ⟨rfl, List.ne_nil_of_mem hplace⟩

theorem perm_cachedPlaces (keeps : a.Keeps l) : a.cachedPlaces.Perm (l.map Entry.place) := by
  have hplaces : a.cachedPlaces = (a.byHeight.flatMap (·.2)).map Entry.place := by
    rw [cachedPlaces, List.map_flatMap]
    refine List.flatMap_congr fun ⟨h, es⟩ hmem => ?_
    obtain ⟨rfl, -⟩ := keeps.mem_byHeight_iff.1 hmem
    refine List.map_congr_left fun e he => ?_
    rw [Entry.place, (mem_shelf.1 he).2]
  rw [hplaces]
  exact keeps.perm_shelves.map _

end Keeps

/-! ### No sender without messages -/

/-- Without one of its places a queue is not empty, or is no queue any more. -/
theorem ne_nil_of_withoutPlace {n : Arrival} (old : Option (List (Height × Arrival)))
    (left : List (Height × Arrival)) (hleft : withoutPlace h n old = some left) : left ≠ [] := by
  rcases old with _ | queue
  · exact absurd hleft (by simp [withoutPlace])
  · have hfilled : filled (queue.filter (· != (h, n))) = some left := hleft
    obtain ⟨rfl, hne⟩ := filled_eq_some_iff.1 hfilled
    exact hne

theorem noneEmpty_held (queues : NoneEmpty a.bySender) : NoneEmpty (a.held m).bySender := by
  refine queues.alter fun old left hleft => ?_
  rw [← Option.some.inj hleft]
  exact List.append_ne_nil_of_right_ne_nil _ (List.cons_ne_nil _ _)

theorem noneEmpty_evictOldest (queues : NoneEmpty a.bySender) :
    NoneEmpty a.evictOldest.1.bySender := by
  rw [evictOldest]
  split
  · exact queues
  · split
    · exact queues
    · exact queues.alter ne_nil_of_withoutPlace

/-- **Caching leaves no empty queue** if a sender may have a message at all: who is over the
limit has another message besides the one it loses. -/
theorem noneEmpty_hold {metrics : List Metric} (queues : NoneEmpty a.bySender)
    (one : 0 < a.limits.perSender) (hheld : a.hold m = .ok (a', metrics)) :
    NoneEmpty a'.bySender := by
  rw [hold_eq] at hheld
  by_cases hover : a.limits.perSender < (a.queueOf m).length
  · rw [if_pos hover] at hheld
    rcases hqueue : a.queueOf m with _ | ⟨⟨height, first⟩, left⟩
    · rw [hqueue] at hover
      exact absurd hover (Nat.not_lt_zero _)
    · rw [hqueue] at hheld hover
      obtain rfl := congrArg Prod.fst (Except.ok.inj hheld)
      refine (noneEmpty_held queues).alter fun old left' hleft => ?_
      rw [← Option.some.inj hleft]
      rw [List.length_cons] at hover
      exact List.ne_nil_of_length_pos (by omega)
  · rw [if_neg hover] at hheld
    by_cases hfull : a.limits.total < (a.held m).cachedCount
    · rw [if_pos hfull] at hheld
      obtain rfl := congrArg Prod.fst (Except.ok.inj hheld)
      exact noneEmpty_evictOldest (noneEmpty_held queues)
    · rw [if_neg hfull] at hheld
      obtain rfl := congrArg Prod.fst (Except.ok.inj hheld)
      exact noneEmpty_held queues

theorem noneEmpty_moved : NoneEmpty (a.moved h).bySender := by
  rintro ⟨s, left⟩ he
  obtain ⟨⟨s', queue⟩, -, heq⟩ := List.mem_filterMap.1 he
  dsimp only at heq
  split at heq
  · exact absurd heq (by simp)
  · next hne =>
    obtain ⟨-, rfl⟩ := Prod.mk.inj (Option.some.inj heq)
    exact fun hnil => hne (List.isEmpty_iff.2 hnil)

/-! ## The invariant -/

/-- **A filter that keeps a list within its limits**, and no queue of a sender that has nothing
on it. -/
structure Compact (a : Admission) (l : List Entry) : Prop where
  keeps : a.Keeps l
  queues : NoneEmpty a.bySender
  ahead : ∀ e ∈ l, a.height < e.2.height ∧ e.2.height ≤ satAdd a.height a.limits.heightsAhead
  perSender : ∀ s, (bySameSender l s).length ≤ a.limits.perSender
  total : l.length ≤ a.limits.total

theorem compact_start (me : MemberId) (height : Height) (limits : Limits) :
    (start me height limits).Compact [] where
  keeps := keeps_start me height limits
  queues := noneEmpty_nil
  ahead := fun _ he => absurd he List.not_mem_nil
  perSender := fun _ => Nat.zero_le _
  total := Nat.zero_le _

theorem length_bySameSender_append : (bySameSender (l ++ [e]) s).length =
    (bySameSender l s).length + if e.2.sender = s then 1 else 0 := by
  have hplaces : (places (l ++ [e]) s).length =
      (places l s).length + if e.2.sender = s then 1 else 0 := by
    rw [places_append]
    split
    · exact List.length_append
    · rfl
  rwa [places, places, List.length_map, List.length_map] at hplaces

namespace Compact

theorem length_bySameSender_le (compact : a.Compact l) {l' : List Entry}
    (hsub : l'.Sublist (l ++ [a.entryOf m])) (hne : m.sender ≠ s) :
    (bySameSender l' s).length ≤ a.limits.perSender := by
  have hall : (bySameSender (l ++ [a.entryOf m]) s).length = (bySameSender l s).length := by
    rw [length_bySameSender_append, if_neg (show (a.entryOf m).2.sender ≠ s from hne)]
    rfl
  refine Nat.le_trans (hsub.filter _).length_le ?_
  rw [← bySameSender, hall]
  exact compact.perSender s

/-- A filter that keeps some of the old list and of a message within the window. -/
theorem next (compact : a.Compact l) {l' : List Entry} (hgate : a'.gate = a.gate)
    (keeps : a'.Keeps l') (queues : NoneEmpty a'.bySender)
    (hsub : l'.Sublist (l ++ [a.entryOf m]))
    (hahead : a.height < m.height ∧ m.height ≤ satAdd a.height a.limits.heightsAhead)
    (hmine : (bySameSender l' m.sender).length ≤ a.limits.perSender)
    (htotal : l'.length ≤ a.limits.total) : a'.Compact l' := by
  have hheight : a'.height = a.height := congrArg (fun g => g.2.1) hgate
  have hlimits : a'.limits = a.limits := congrArg (fun g => g.2.2) hgate
  refine ⟨keeps, queues, fun e he => ?_, fun s => ?_, ?_⟩
  · rw [hheight, hlimits]
    rcases List.mem_append.1 (hsub.subset he) with hold | hnew
    · exact compact.ahead e hold
    · rwa [List.mem_singleton.1 hnew]
  · rw [hlimits]
    by_cases heq : m.sender = s
    · rwa [← heq]
    · exact compact.length_bySameSender_le hsub heq
  · rwa [hlimits]

/-- **Caching**, in the three cases of the filter. -/
theorem hold (compact : a.Compact l) (one : 0 < a.limits.perSender)
    (hahead : a.height < m.height ∧ m.height ≤ satAdd a.height a.limits.heightsAhead) :
    ∃ a' metrics l', a.hold m = .ok (a', metrics) ∧ a'.gate = a.gate ∧ a'.Compact l' := by
  have hmine : (bySameSender (l ++ [a.entryOf m]) m.sender).length ≤ a.limits.perSender + 1 := by
    rw [length_bySameSender_append, if_pos (show (a.entryOf m).2.sender = m.sender from rfl)]
    exact Nat.succ_le_succ (compact.perSender m.sender)
  have hlength : (l ++ [a.entryOf m]).length ≤ a.limits.total + 1 := by
    rw [List.length_append]
    exact Nat.succ_le_succ compact.total
  by_cases hover : a.limits.perSender < (bySameSender (l ++ [a.entryOf m]) m.sender).length
  · obtain ⟨a', e, hheld, hgate, hfind, hkeeps⟩ := compact.keeps.hold_of_overdrawn hover
    have hasc : Table.Ascending (l ++ [a.entryOf m]) := compact.keeps.held.arrivals
    refine ⟨a', _, _, hheld, hgate, compact.next hgate hkeeps
      (noneEmpty_hold compact.queues one hheld) List.filter_sublist hahead ?_ ?_⟩
    · -- the entry that leaves is the first of its sender
      obtain ⟨rest, hentries⟩ : ∃ rest,
          bySameSender (l ++ [a.entryOf m]) m.sender = e :: rest := by
        refine List.head?_eq_some_iff.1 ?_
        rw [bySameSender, List.head?_filter, hfind]
      rw [hentries] at hmine
      rw [bySameSender_without, hentries, without_cons_self (hentries ▸ hasc.bySameSender)]
      exact Nat.le_of_succ_le_succ hmine
    · have hless : (without (l ++ [a.entryOf m]) e.1).length < (l ++ [a.entryOf m]).length := by
        rw [without, List.length_filter_lt_length_iff_exists]
        exact ⟨e, List.mem_of_find?_eq_some hfind, by simp⟩
      omega
  · by_cases hfull : a.limits.total < (l ++ [a.entryOf m]).length
    · obtain ⟨a', hheld, hgate, hkeeps⟩ := compact.keeps.hold_of_full hover hfull
      have hsub : (l ++ [a.entryOf m]).tail.Sublist (l ++ [a.entryOf m]) := List.tail_sublist _
      refine ⟨a', _, _, hheld, hgate, compact.next hgate hkeeps
        (noneEmpty_hold compact.queues one hheld) hsub hahead ?_ ?_⟩
      · exact Nat.le_trans (hsub.filter _).length_le (Nat.le_of_not_lt hover)
      · rw [List.length_tail]
        omega
    · have hheld := compact.keeps.hold_of_room hover hfull
      exact ⟨a.held m, _, _, hheld, rfl, compact.next rfl compact.keeps.held
        (noneEmpty_held compact.queues) (List.Sublist.refl _) hahead (Nat.le_of_not_lt hover)
        (Nat.le_of_not_lt hfull)⟩

theorem offer (compact : a.Compact l) (one : 0 < a.limits.perSender) (m : Message) :
    ∃ a' reply l', a.answer (.offer m) = .ok (a', reply) ∧ a'.gate = a.gate ∧ a'.Compact l' := by
  rw [answer, Admission.offer]
  split
  · exact ⟨a, _, l, rfl, rfl, compact⟩
  · split
    · exact ⟨a, _, l, rfl, rfl, compact⟩
    · split
      · exact ⟨a, _, l, rfl, rfl, compact⟩
      · split
        · exact ⟨a, _, l, rfl, rfl, compact⟩
        · next hpast hcurrent hfar =>
          have habove : a.height < m.height :=
            Nat.lt_of_le_of_ne (Nat.le_of_not_lt hpast) (Ne.symm hcurrent)
          obtain ⟨a', metrics, l', hheld, hgate, hcompact⟩ :=
            compact.hold one ⟨habove, Nat.le_of_not_lt hfar⟩
          refine ⟨a', ⟨[], metrics, a'.cachedCount⟩, l', ?_, hgate, hcompact⟩
          rw [hheld]
          rfl

/-- **Moving** leaves less on the list, and the window of what stays ends no earlier. -/
theorem moveTo (compact : a.Compact l) (hup : a.height ≤ h) (hlast : h < maxWord) :
    ∃ reply, a.answer (.moveTo h) = .ok (a.moved h, reply) ∧
      (a.moved h).Compact (above h l) := by
  refine ⟨⟨((Table.get? h a.byHeight).getD []).map (·.2), [(a.moved h).cachedLevel],
    (a.moved h).cachedCount⟩, ?_, ?_⟩
  · rw [answer, setHeight, if_neg (Nat.not_lt_of_le hup), nextHeight_of_lt hlast]
    rfl
  · refine ⟨compact.keeps.moved h, noneEmpty_moved, fun e he => ?_, fun s => ?_, ?_⟩
    · obtain ⟨he, habove⟩ := List.mem_filter.1 he
      refine ⟨of_decide_eq_true habove, Nat.le_trans (compact.ahead e he).2 ?_⟩
      exact satAdd_le_satAdd a.limits.heightsAhead hup
    · exact Nat.le_trans (List.filter_sublist.filter _).length_le (compact.perSender s)
    · exact Nat.le_trans (List.length_filter_le _ _) compact.total

/-- **One call.** -/
theorem answer {call : Call} (compact : a.Compact l) (one : 0 < a.limits.perSender)
    (rising : Call.Rising a.height [call]) : ∃ a' reply l', a.answer call = .ok (a', reply) ∧
      a'.gate = (a.me, call.heightAfter a.height, a.limits) ∧ a'.Compact l' := by
  cases call with
  | offer m => exact compact.offer one m
  | moveTo h =>
    obtain ⟨reply, hanswer, hcompact⟩ := compact.moveTo rising.1 rising.2.1
    exact ⟨_, reply, _, hanswer, rfl, hcompact⟩

/-- **A run of calls.** -/
theorem answers (calls : List Call) : ∀ {a : Admission} {l : List Entry}, a.Compact l →
    0 < a.limits.perSender → Call.Rising a.height calls →
      ∃ a' replies l', a.answers calls = .ok (a', replies) ∧
        a'.gate = (a.me, calls.foldl Call.heightAfter a.height, a.limits) ∧ a'.Compact l' := by
  induction calls with
  | nil => exact fun {a l} compact _ _ => ⟨a, [], l, rfl, rfl, compact⟩
  | cons call calls ih =>
    intro a l compact one rising
    obtain ⟨next, reply, l', hnext, hgate, hcompact⟩ := compact.answer one rising.head
    have hme : next.me = a.me := congrArg Prod.fst hgate
    have hheight : next.height = call.heightAfter a.height := congrArg (fun g => g.2.1) hgate
    have hlimits : next.limits = a.limits := congrArg (fun g => g.2.2) hgate
    obtain ⟨last, replies, l'', hlast, hgate', hcompact'⟩ :=
      ih hcompact (by rwa [hlimits]) (by rw [hheight]; exact rising.tail)
    refine ⟨last, reply :: replies, l'', ?_, ?_, hcompact'⟩
    · rw [Admission.answers, hnext]
      show (next.answers calls >>= _) = _
      rw [hlast]
      rfl
    · rw [hgate', hme, hheight, hlimits]
      rfl

end Compact

/-! ## What it means for the tables -/

/-- **The two tables agree.**  In the queues of the senders are the places of the cached
messages, each once, in the queue of the sender of the message, by ascending arrival; and there
is neither a sender nor a height without messages. -/
structure Indexed (a : Admission) : Prop where
  heights : Table.Ascending a.byHeight
  shelves : ∀ shelf ∈ a.byHeight, Table.Ascending shelf.2
  senders : Table.Ascending a.bySender
  same : a.queuedPlaces.Perm a.cachedPlaces
  once : a.queuedPlaces.Nodup
  owner : ∀ s queue, (s, queue) ∈ a.bySender → ∀ place ∈ queue,
    ∃ m, a.messageAt? place.1 place.2 = some m ∧ m.sender = s ∧ m.height = place.1
  arrivals : ∀ s queue, (s, queue) ∈ a.bySender → queue.Pairwise fun p p' => p.2 < p'.2
  queues_ne : NoneEmpty a.bySender
  shelves_ne : NoneEmpty a.byHeight

/-- **The two tables are small**: the heights are within the window, the queues are not longer
than a sender may have messages, and neither the cached messages nor, therefore, the senders
with a queue are more than may be cached in all. -/
structure Bounded (a : Admission) : Prop where
  ahead : ∀ h shelf, (h, shelf) ∈ a.byHeight →
    a.height < h ∧ h ≤ satAdd a.height a.limits.heightsAhead
  perSender : ∀ s queue, (s, queue) ∈ a.bySender → queue.length ≤ a.limits.perSender
  senders : a.bySender.length ≤ a.cachedCount
  total : a.cachedCount ≤ a.limits.total

namespace Compact

theorem indexed (compact : a.Compact l) : a.Indexed where
  heights := compact.keeps.heights
  shelves := by
    rintro ⟨h, es⟩ hmem
    obtain ⟨rfl, -⟩ := compact.keeps.mem_byHeight_iff.1 hmem
    exact compact.keeps.arrivals.filter _
  senders := compact.keeps.senders
  same := (compact.keeps.perm_queuedPlaces compact.queues).trans compact.keeps.perm_cachedPlaces.symm
  once := (compact.keeps.perm_queuedPlaces compact.queues).nodup_iff.2
    (nodup_map_place compact.keeps.arrivals)
  owner := by
    intro s queue hmem place hplace
    obtain ⟨rfl, -⟩ := (compact.keeps.mem_bySender_iff compact.queues).1 hmem
    obtain ⟨e, he, hsender, rfl⟩ := mem_places.1 hplace
    exact ⟨e.2, compact.keeps.messageAt he, hsender, rfl⟩
  arrivals := by
    intro s queue hmem
    obtain ⟨rfl, -⟩ := (compact.keeps.mem_bySender_iff compact.queues).1 hmem
    exact List.pairwise_map.2 compact.keeps.arrivals.bySameSender
  queues_ne := compact.queues
  shelves_ne := by
    rintro ⟨h, es⟩ hmem
    obtain ⟨rfl, hne⟩ := compact.keeps.mem_byHeight_iff.1 hmem
    exact hne

theorem bounded (compact : a.Compact l) : a.Bounded where
  ahead := by
    intro h es hmem
    obtain ⟨-, hne⟩ := compact.keeps.mem_byHeight_iff.1 hmem
    obtain ⟨e, he⟩ := List.exists_mem_of_ne_nil _ hne
    obtain ⟨hmem', rfl⟩ := mem_shelf.1 he
    exact compact.ahead e hmem'
  perSender := by
    intro s queue hmem
    obtain ⟨rfl, -⟩ := (compact.keeps.mem_bySender_iff compact.queues).1 hmem
    rw [places, List.length_map]
    exact compact.perSender s
  senders := by
    have hqueued : a.queuedPlaces.length = a.cachedCount := by
      rw [(compact.keeps.perm_queuedPlaces compact.queues).length_eq, List.length_map,
        compact.keeps.cachedCount]
    rw [← hqueued]
    exact compact.queues.length_le
  total := by
    rw [compact.keeps.cachedCount]
    exact compact.total

end Compact

/-- **The filter is exact and small, whatever is claimed.**  Whatever messages are offered, with
whatever senders, heights and contents, and whatever heights are moved to as long as they do not
descend: after every call both tables say the same about the same messages, and they are within
the limits.

A sender must be allowed one message.  Under a limit of none, a sender whose only message was
refused at once would keep an empty queue. -/
theorem answers_exact (me : MemberId) (height : Height) (limits : Limits) (calls : List Call)
    (rising : Call.Rising height calls) (one : 0 < limits.perSender) :
    ∃ a replies, (start me height limits).answers calls = .ok (a, replies) ∧
      a.gate = (me, calls.foldl Call.heightAfter height, limits) ∧ a.Indexed ∧ a.Bounded := by
  obtain ⟨a, replies, l, hanswers, hgate, hcompact⟩ :=
    (compact_start me height limits).answers calls one rising
  exact ⟨a, replies, hanswers, hgate, hcompact.indexed, hcompact.bounded⟩

/-- Messages that claim the senders `1` to `5`, with a change of height between them. -/
def claimingCalls : List Call :=
  [.offer (bareVote 6 1), .offer (bareVote 7 1), .offer (bareVote 6 1), .offer (bareVote 8 2),
    .offer (bareVote 6 3), .moveTo 6, .offer (bareVote 7 4), .offer (bareVote 9 5),
    .offer (bareVote 7 2)]

/-- The filter that caches two messages of a sender and three in all: sender `1` overdraws and
then has to make room for sender `3`, whose message is released with the other one of height `6`.
The first message of sender `2` makes room for its second. -/
theorem answers_exact_claiming : Call.Rising 5 claimingCalls ∧
    ∃ a replies, (start 0 5 ⟨5, 2, 3, 0⟩).answers claimingCalls = .ok (a, replies) ∧
      a.Indexed ∧ a.Bounded ∧ a.height = 6 ∧
      a.bySender = [(2, [(7, 7)]), (4, [(7, 5)]), (5, [(9, 6)])] := by
  have hrising : Call.Rising 5 claimingCalls := by
    simp only [claimingCalls, Call.Rising]
    decide
  obtain ⟨a, replies, hanswers, hgate, hindexed, hbounded⟩ :=
    answers_exact 0 5 ⟨5, 2, 3, 0⟩ claimingCalls hrising (by decide)
  refine ⟨hrising, a, replies, hanswers, hindexed, hbounded, ?_, ?_⟩
  · exact congrArg (fun g => g.2.1) hgate
  · have hqueues : (fun r => r.1.bySender) <$> (start 0 5 ⟨5, 2, 3, 0⟩).answers claimingCalls =
        .ok [(2, [(7, 7)]), (4, [(7, 5)]), (5, [(9, 6)])] := by rfl
    rw [hanswers] at hqueues
    exact Except.ok.inj hqueues

end Admission

end CommitteeConsensus
