import CommitteeConsensus.Proofs.Tables

/-!
# Two indexes of one list

The filter keeps what it caches in two tables: the messages by height, and the places of each
sender's messages.  Two rules evict from both, and a change of height cuts both.  Here it is
shown that they are never more than two indexes of one list, the entries in the order of their
arrival: `Admission.Keeps` says so, and each operation of the filter is described by what it
does to the list.

* Caching appends an entry (`Keeps.held`).
* An eviction takes one entry out, be it the first of a sender (`Keeps.evict_of_sender`) or the
  first of all (`Keeps.evictOldest`).
* A change of height keeps the entries of the heights above (`Keeps.moved`) and releases those
  of its own (`Keeps.released`).
-/

namespace CommitteeConsensus

/-! ## What the tables are indexes of -/

/-- A list as the value of a table: no entries at all are no value. -/
def filled {β : Type} (l : List β) : Option (List β) := if l.isEmpty then none else some l

section Filled

variable {β : Type} {l es : List β}

@[simp] theorem filled_nil : filled ([] : List β) = none := rfl

theorem filled_of_ne_nil (h : l ≠ []) : filled l = some l := by
  rw [filled, if_neg]
  intro hempty
  exact h (List.isEmpty_iff.1 hempty)

@[simp] theorem getD_filled : (filled l).getD [] = l := by
  by_cases h : l = []
  · subst h
    rfl
  · rw [filled_of_ne_nil h]
    rfl

theorem filled_eq_some_iff : filled l = some es ↔ l = es ∧ l ≠ [] := by
  constructor
  · intro h
    by_cases hnil : l = []
    · subst hnil
      exact absurd h (by simp)
    · rw [filled_of_ne_nil hnil] at h
      exact ⟨Option.some.inj h, hnil⟩
  · rintro ⟨rfl, h⟩
    exact filled_of_ne_nil h

end Filled

/-- A cached message with the number of its arrival. -/
abbrev Entry := Arrival × Message

/-- The entries of one height. -/
def shelf (l : List Entry) (height : Height) : List Entry := l.filter (·.2.height == height)

/-- Where an entry is cached. -/
def Entry.place (e : Entry) : Height × Arrival := (e.2.height, e.1)

/-- The entries of one sender. -/
def bySameSender (l : List Entry) (sender : MemberId) : List Entry :=
  l.filter (·.2.sender == sender)

/-- Where the entries of one sender are cached. -/
def places (l : List Entry) (sender : MemberId) : List (Height × Arrival) :=
  (bySameSender l sender).map Entry.place

/-- The list without the entry of one arrival. -/
def without (l : List Entry) (arrival : Arrival) : List Entry := l.filter (·.1 != arrival)

section Lists

variable {l : List Entry} {e e' : Entry} {h : Height} {s : MemberId} {n : Arrival}

theorem mem_shelf : e ∈ shelf l h ↔ e ∈ l ∧ e.2.height = h := by
  rw [shelf, List.mem_filter, beq_iff_eq]

theorem mem_bySameSender : e ∈ bySameSender l s ↔ e ∈ l ∧ e.2.sender = s := by
  rw [bySameSender, List.mem_filter, beq_iff_eq]

theorem mem_without : e ∈ without l n ↔ e ∈ l ∧ e.1 ≠ n := by
  rw [without, List.mem_filter, bne_iff_ne]

theorem eq_of_arrival_eq (asc : Table.Ascending l) (he : e ∈ l) (he' : e' ∈ l)
    (heq : e.1 = e'.1) : e = e' := by
  have hfound : Table.get? e.1 l = some e.2 := Table.get?_of_mem asc he
  have hfound' : Table.get? e'.1 l = some e'.2 := Table.get?_of_mem asc he'
  rw [heq, hfound'] at hfound
  exact Prod.ext heq (Option.some.inj hfound).symm

theorem without_of_not_mem (hnot : ∀ e ∈ l, e.1 ≠ n) : without l n = l :=
  List.filter_eq_self.2 fun e he => bne_iff_ne.2 (hnot e he)

theorem without_cons_self (asc : Table.Ascending (e :: l)) : without (e :: l) e.1 = l := by
  have hnot : ∀ e' ∈ l, e'.1 ≠ e.1 := fun e' he' =>
    Nat.ne_of_gt ((List.pairwise_cons.1 asc).1 e' he')
  rw [without, List.filter_cons, if_neg (by simp)]
  exact without_of_not_mem hnot

theorem shelf_without : shelf (without l n) h = without (shelf l h) n := by
  rw [shelf, without, without, shelf, List.filter_comm]

theorem bySameSender_without : bySameSender (without l n) s = without (bySameSender l s) n := by
  rw [bySameSender, without, without, bySameSender, List.filter_comm]

theorem Table.Ascending.bySameSender (asc : Table.Ascending l) :
    Table.Ascending (bySameSender l s) := asc.filter _

/-- Taking an entry out is felt on the shelf of its height only. -/
theorem shelf_without_of_ne (asc : Table.Ascending l) (he : e ∈ l) (hne : h ≠ e.2.height) :
    shelf (without l e.1) h = shelf l h := by
  rw [shelf_without]
  refine without_of_not_mem fun e' he' heq => ?_
  obtain ⟨hmem, hheight⟩ := mem_shelf.1 he'
  obtain rfl := eq_of_arrival_eq asc hmem he heq
  exact hne hheight.symm

/-- Taking an entry out is felt in the queue of its sender only. -/
theorem places_without_of_ne (asc : Table.Ascending l) (he : e ∈ l) (hne : s ≠ e.2.sender) :
    places (without l e.1) s = places l s := by
  rw [places, bySameSender_without, without_of_not_mem]
  · rfl
  · intro e' he' heq
    obtain ⟨hmem, hsender⟩ := mem_bySameSender.1 he'
    obtain rfl := eq_of_arrival_eq asc hmem he heq
    exact hne hsender.symm

theorem places_without (asc : Table.Ascending l) (he : e ∈ l) :
    places (without l e.1) s = (places l s).filter (· != e.place) := by
  rw [places, bySameSender_without, without, places, List.filter_map]
  refine congrArg (List.map Entry.place) (List.filter_congr fun e' he' => ?_)
  rw [Function.comp_apply, Bool.eq_iff_iff, bne_iff_ne, bne_iff_ne]
  refine not_congr ⟨fun heq => ?_, fun heq => ?_⟩
  · rw [eq_of_arrival_eq asc (mem_bySameSender.1 he').1 he heq]
  · exact congrArg Prod.snd heq

/-- The first entry with a property is the only one of its arrival. -/
theorem eraseP_eq_without {p : Entry → Bool} (asc : Table.Ascending l)
    (hfind : l.find? p = some e) : l.eraseP p = without l e.1 := by
  induction l with
  | nil => exact absurd hfind (by simp)
  | cons first rest ih =>
    rw [List.find?_cons] at hfind
    rw [List.eraseP_cons]
    rcases hp : p first with _ | _
    · rw [hp] at hfind
      have hlt : first.1 < e.1 := (List.pairwise_cons.1 asc).1 e (List.mem_of_find?_eq_some hfind)
      rw [ih asc.of_cons hfind, without, without, List.filter_cons, if_pos]
      · rfl
      · exact bne_iff_ne.2 (Nat.ne_of_lt hlt)
    · rw [hp] at hfind
      obtain rfl : first = e := Option.some.inj hfind
      rw [without_cons_self asc]
      rfl

end Lists

/-! ## Keeping a list -/

namespace Admission

/-- What the filter judges a message by, besides what is cached. -/
def gate (a : Admission) : MemberId × Height × Limits := (a.me, a.height, a.limits)

variable {a : Admission} {l : List Entry} {e : Entry} {m : Message} {h : Height} {s : MemberId}

/-- **A filter keeps a list of entries**: both its tables are indexes of the list.  A sender
whose last entry was evicted may leave an empty queue behind. -/
structure Keeps (a : Admission) (l : List Entry) : Prop where
  arrivals : Table.Ascending l
  fresh : ∀ e ∈ l, e.1 < a.nextArrival
  heights : Table.Ascending a.byHeight
  shelves : ∀ h, Table.get? h a.byHeight = filled (shelf l h)
  senders : Table.Ascending a.bySender
  queues : ∀ s, (Table.get? s a.bySender).getD [] = places l s

theorem keeps_start (me : MemberId) (height : Height) (limits : Limits) :
    (start me height limits).Keeps [] where
  arrivals := List.Pairwise.nil
  fresh := fun _ he => absurd he List.not_mem_nil
  heights := List.Pairwise.nil
  shelves := fun _ => rfl
  senders := List.Pairwise.nil
  queues := fun _ => rfl

namespace Keeps

/-! ### What is cached -/

theorem mem_byHeight_iff (keeps : a.Keeps l) {es : List Entry} :
    (h, es) ∈ a.byHeight ↔ shelf l h = es ∧ shelf l h ≠ [] := by
  rw [← Table.get?_eq_some_iff keeps.heights, keeps.shelves, filled_eq_some_iff]

/-- The shelves hold the entries of the list, each once. -/
theorem perm_shelves (keeps : a.Keeps l) : (a.byHeight.flatMap (·.2)).Perm l := by
  have hnodup : l.Nodup := keeps.arrivals.imp fun {e e'} hlt heq =>
    Nat.ne_of_lt hlt (congrArg Prod.fst heq)
  refine (List.perm_ext_iff_of_nodup (List.nodup_flatMap.2 ⟨?_, ?_⟩) hnodup).2 fun e => ?_
  · rintro ⟨h, es⟩ hmem
    obtain ⟨rfl, -⟩ := keeps.mem_byHeight_iff.1 hmem
    exact hnodup.filter _
  · refine (List.Pairwise.and_mem.1 keeps.heights).imp ?_
    rintro ⟨h, es⟩ ⟨h', es'⟩ ⟨hmem, hmem', hlt⟩ e he he'
    obtain ⟨rfl, -⟩ := keeps.mem_byHeight_iff.1 hmem
    obtain ⟨rfl, -⟩ := keeps.mem_byHeight_iff.1 hmem'
    have hsame : h = h' := (mem_shelf.1 he).2.symm.trans (mem_shelf.1 he').2
    exact Nat.ne_of_lt hlt hsame
  · rw [List.mem_flatMap]
    constructor
    · rintro ⟨⟨h, es⟩, hmem, he⟩
      obtain ⟨rfl, -⟩ := keeps.mem_byHeight_iff.1 hmem
      exact (mem_shelf.1 he).1
    · intro he
      have hshelf : e ∈ shelf l e.2.height := mem_shelf.2 ⟨he, rfl⟩
      refine ⟨(e.2.height, shelf l e.2.height), keeps.mem_byHeight_iff.2 ⟨rfl, ?_⟩, hshelf⟩
      exact List.ne_nil_of_mem hshelf

theorem cachedCount (keeps : a.Keeps l) : a.cachedCount = l.length := keeps.perm_shelves.length_eq

theorem messageAt (keeps : a.Keeps l) (he : e ∈ l) : a.messageAt? e.2.height e.1 = some e.2 := by
  have hshelf : e ∈ shelf l e.2.height := mem_shelf.2 ⟨he, rfl⟩
  rw [messageAt?, keeps.shelves, filled_of_ne_nil (List.ne_nil_of_mem hshelf), Option.bind_some]
  exact Table.get?_of_mem (keeps.arrivals.filter _) hshelf

end Keeps

/-! ### Caching -/

/-- The queue of a sender with one place more. -/
def queueOf (a : Admission) (m : Message) : List (Height × Arrival) :=
  (Table.get? m.sender a.bySender).getD [] ++ [(m.height, a.nextArrival)]

/-- The filter with one message more, before anything is evicted. -/
def held (a : Admission) (m : Message) : Admission :=
  { a with
    nextArrival := a.nextArrival + 1
    byHeight := Table.alter m.height
      (fun entries => some (entries.getD [] ++ [(a.nextArrival, m)])) a.byHeight
    bySender := Table.alter m.sender (fun _ => some (a.queueOf m)) a.bySender }

/-- The entry that a message is cached as. -/
def entryOf (a : Admission) (m : Message) : Entry := (a.nextArrival, m)

theorem shelf_append (h : Height) : shelf (l ++ [e]) h =
    if e.2.height = h then shelf l h ++ [e] else shelf l h := by
  rw [shelf, List.filter_append, List.filter_cons, List.filter_nil]
  by_cases heq : e.2.height = h
  · rw [if_pos heq, if_pos (beq_iff_eq.2 heq)]
    rfl
  · rw [if_neg heq, if_neg (fun h => heq (beq_iff_eq.1 h)), List.append_nil]
    rfl

theorem places_append (s : MemberId) : places (l ++ [e]) s =
    if e.2.sender = s then places l s ++ [e.place] else places l s := by
  rw [places, bySameSender, List.filter_append, List.filter_cons, List.filter_nil]
  by_cases heq : e.2.sender = s
  · rw [if_pos heq, if_pos (beq_iff_eq.2 heq), List.map_append]
    rfl
  · rw [if_neg heq, if_neg (fun h => heq (beq_iff_eq.1 h)), List.append_nil]
    rfl

namespace Keeps

/-- **Caching appends.** -/
theorem held (keeps : a.Keeps l) : (a.held m).Keeps (l ++ [a.entryOf m]) where
  arrivals := by
    refine List.pairwise_append.2 ⟨keeps.arrivals, List.pairwise_singleton _ _, ?_⟩
    intro e he e' he'
    rw [List.mem_singleton.1 he']
    exact keeps.fresh e he
  fresh := by
    intro e he
    show e.1 < a.nextArrival + 1
    rcases List.mem_append.1 he with he | he
    · exact Nat.lt_succ_of_lt (keeps.fresh e he)
    · rw [List.mem_singleton.1 he]
      exact Nat.lt_succ_self _
  heights := keeps.heights.alter
  shelves := by
    intro h
    rw [shelf_append, show (a.entryOf m).2 = m from rfl]
    by_cases heq : m.height = h
    · subst heq
      rw [if_pos rfl, filled_of_ne_nil (List.append_ne_nil_of_right_ne_nil _ (List.cons_ne_nil _ _))]
      refine (Table.get?_alter_self keeps.heights).trans ?_
      rw [keeps.shelves, getD_filled]
      rfl
    · rw [if_neg heq, ← keeps.shelves]
      exact Table.get?_alter_of_ne (Ne.symm heq)
  senders := keeps.senders.alter
  queues := by
    intro s
    rw [places_append, show (a.entryOf m).2 = m from rfl]
    by_cases heq : m.sender = s
    · subst heq
      rw [if_pos rfl, ← keeps.queues]
      exact congrArg (Option.getD · []) (Table.get?_alter_self keeps.senders)
    · rw [if_neg heq, ← keeps.queues]
      exact congrArg (Option.getD · []) (Table.get?_alter_of_ne (Ne.symm heq))

theorem queueOf (keeps : a.Keeps l) : a.queueOf m = places (l ++ [a.entryOf m]) m.sender := by
  rw [places_append, show (a.entryOf m).2 = m from rfl, if_pos rfl, ← keeps.queues]
  rfl

end Keeps

/-! ### Evicting -/

theorem withoutArrival_filled (n : Arrival) :
    withoutArrival n (filled l) = filled (without l n) := by
  by_cases hnil : l = []
  · subst hnil
    rfl
  · rw [filled_of_ne_nil hnil]
    rfl

theorem getD_withoutPlace (n : Arrival) (queue : Option (List (Height × Arrival))) :
    (withoutPlace h n queue).getD [] = (queue.getD []).filter (· != (h, n)) := by
  rcases queue with _ | queue
  · rfl
  · exact getD_filled

/-- The filter after a sender lost the message at a place, with what is left of its queue. -/
def relieved (a : Admission) (sender : MemberId) (left : List (Height × Arrival))
    (height : Height) (n : Arrival) : Admission :=
  { a with bySender := Table.alter sender (fun _ => some left) a.bySender }.remove height n

/-- A filter whose places were put right for an entry that is gone. -/
structure Cleared (a a' : Admission) (l : List Entry) (e : Entry) : Prop where
  nextArrival : a'.nextArrival = a.nextArrival
  byHeight : a'.byHeight = (a.remove e.2.height e.1).byHeight
  senders : Table.Ascending a'.bySender
  queues : ∀ s, (Table.get? s a'.bySender).getD [] = places (without l e.1) s

namespace Keeps

variable {a' : Admission}

/-- **An eviction takes one entry out.** -/
theorem evict (keeps : a.Keeps l) (he : e ∈ l) (cleared : a.Cleared a' l e) :
    a'.Keeps (without l e.1) where
  arrivals := keeps.arrivals.filter _
  fresh := by
    intro e' he'
    rw [cleared.nextArrival]
    exact keeps.fresh e' (mem_without.1 he').1
  heights := by
    rw [cleared.byHeight]
    exact keeps.heights.alter
  shelves := by
    intro h
    rw [cleared.byHeight]
    by_cases heq : h = e.2.height
    · subst heq
      refine (Table.get?_alter_self keeps.heights).trans ?_
      rw [keeps.shelves, withoutArrival_filled, shelf_without]
    · rw [shelf_without_of_ne keeps.arrivals he heq, ← keeps.shelves]
      exact Table.get?_alter_of_ne heq
  senders := cleared.senders
  queues := cleared.queues

/-- The queue of an overdrawn sender, without its first place. -/
theorem evict_of_sender {left : List (Height × Arrival)} (keeps : a.Keeps l)
    (hfind : l.find? (·.2.sender == s) = some e) (hleft : places l s = e.place :: left) :
    (a.relieved s left e.2.height e.1).Keeps (without l e.1) := by
  have he : e ∈ l := List.mem_of_find?_eq_some hfind
  have hsender : e.2.sender = s := by
    have hp := List.find?_some hfind
    exact beq_iff_eq.1 hp
  refine keeps.evict he ⟨rfl, rfl, keeps.senders.alter, fun s' => ?_⟩
  by_cases heq : s' = s
  · subst heq
    refine (congrArg (Option.getD · []) (Table.get?_alter_self keeps.senders)).trans ?_
    obtain ⟨first, rest, hentries⟩ : ∃ first rest, bySameSender l s' = first :: rest := by
      exact List.exists_cons_of_ne_nil (List.ne_nil_of_mem (mem_bySameSender.2 ⟨he, hsender⟩))
    have hfirst : first = e := by
      have hhead : (bySameSender l s').head? = some e := by
        rw [bySameSender, List.head?_filter, hfind]
      rw [hentries] at hhead
      exact Option.some.inj hhead
    subst hfirst
    rw [places, hentries, List.map_cons] at hleft
    have hasc : Table.Ascending (first :: rest) := hentries ▸ keeps.arrivals.bySameSender
    rw [places, bySameSender_without, hentries, without_cons_self hasc]
    exact (List.cons.inj hleft).2.symm
  · rw [places_without_of_ne keeps.arrivals he (hsender ▸ heq), ← keeps.queues]
    exact congrArg (Option.getD · []) (Table.get?_alter_of_ne heq)

end Keeps

/-! ### The oldest of all -/

theorem earlier_of_lt {x y : Arrival × Height} (hlt : x.1 < y.1) : earlier x y = x := by
  rw [earlier, if_neg]
  rintro (hgt | ⟨heq, -⟩)
  · exact Nat.lt_asymm hlt hgt
  · exact Nat.ne_of_gt hlt heq

theorem earlier_of_gt {x y : Arrival × Height} (hlt : y.1 < x.1) : earlier x y = y := by
  rw [earlier, if_pos (Or.inl hlt)]

theorem foldl_earlier {x : Arrival × Height} {l : List (Arrival × Height)} :
    ∀ first, x ∈ first :: l → (∀ y ∈ first :: l, y = x ∨ x.1 < y.1) →
      l.foldl earlier first = x := by
  induction l with
  | nil => exact fun first hx _ => (List.mem_singleton.1 hx).symm
  | cons second rest ih =>
    intro first hx hle
    rw [List.foldl_cons]
    -- the earlier of the first two is in the list as well, and is `x` if one of them is
    have hpick : earlier first second = first ∨ earlier first second = second := by
      rw [earlier]
      split
      · exact Or.inr rfl
      · exact Or.inl rfl
    refine ih _ ?_ fun y hy => ?_
    · have hkeep : first = x ∨ second = x → earlier first second = x := by
        rintro (rfl | rfl)
        · rcases hle second (List.mem_cons_of_mem _ List.mem_cons_self) with rfl | hlt
          · rcases hpick with h | h <;> exact h
          · exact earlier_of_lt hlt
        · rcases hle first List.mem_cons_self with rfl | hlt
          · rcases hpick with h | h <;> exact h
          · exact earlier_of_gt hlt
      rcases List.mem_cons.1 hx with rfl | hx
      · rw [hkeep (Or.inl rfl)]
        exact List.mem_cons_self
      · rcases List.mem_cons.1 hx with rfl | hx
        · rw [hkeep (Or.inr rfl)]
          exact List.mem_cons_self
        · exact List.mem_cons_of_mem _ hx
    · rcases List.mem_cons.1 hy with rfl | hy
      · rcases hpick with h | h
        · rw [h]
          exact hle first List.mem_cons_self
        · rw [h]
          exact hle second (List.mem_cons_of_mem _ List.mem_cons_self)
      · exact hle y (List.mem_cons_of_mem _ (List.mem_cons_of_mem _ hy))

namespace Keeps

theorem mem_firsts (keeps : a.Keeps l) {y : Arrival × Height} :
    y ∈ a.byHeight.filterMap firstArrival ↔
      ∃ e, (shelf l y.2).head? = some e ∧ e.1 = y.1 := by
  rw [List.mem_filterMap]
  constructor
  · rintro ⟨⟨h, es⟩, hmem, hfirst⟩
    obtain ⟨rfl, -⟩ := keeps.mem_byHeight_iff.1 hmem
    obtain ⟨e, hhead, rfl⟩ := Option.map_eq_some_iff.1 hfirst
    exact ⟨e, hhead, rfl⟩
  · rintro ⟨e, hhead, heq⟩
    refine ⟨(y.2, shelf l y.2), keeps.mem_byHeight_iff.2 ⟨rfl, fun hnil => ?_⟩, ?_⟩
    · rw [hnil] at hhead
      exact absurd hhead (by simp)
    · refine Option.map_eq_some_iff.2 ⟨e, hhead, ?_⟩
      rw [heq]

/-- The oldest entry of all heights is the first of the list. -/
theorem oldest (keeps : a.Keeps (e :: l)) : a.oldest? = some (e.1, e.2.height) := by
  have hhead : (shelf (e :: l) e.2.height).head? = some e := by
    rw [shelf, List.filter_cons, if_pos (beq_self_eq_true _)]
    rfl
  have hmem : (e.1, e.2.height) ∈ a.byHeight.filterMap firstArrival :=
    keeps.mem_firsts.2 ⟨e, hhead, rfl⟩
  have hleast : ∀ y ∈ a.byHeight.filterMap firstArrival,
      y = (e.1, e.2.height) ∨ e.1 < y.1 := by
    intro y hy
    obtain ⟨e', hhead', heq⟩ := keeps.mem_firsts.1 hy
    obtain ⟨hmem', hheight⟩ := mem_shelf.1 (List.mem_of_mem_head? hhead')
    rcases List.mem_cons.1 hmem' with rfl | hrest
    · exact Or.inl (Prod.ext heq.symm hheight.symm)
    · refine Or.inr ?_
      rw [← heq]
      exact (List.pairwise_cons.1 keeps.arrivals).1 e' hrest
  rw [oldest?]
  rcases hfirsts : a.byHeight.filterMap firstArrival with _ | ⟨first, others⟩
  · rw [hfirsts] at hmem
    exact absurd hmem List.not_mem_nil
  · rw [hfirsts] at hmem hleast
    exact congrArg some (foldl_earlier first hmem hleast)

/-- **Evicting the oldest takes the first entry out.** -/
theorem evictOldest (keeps : a.Keeps (e :: l)) :
    ∃ a', a.evictOldest = (a', [.dropped .cacheFull]) ∧ a'.gate = a.gate ∧ a'.Keeps l := by
  have he : e ∈ e :: l := List.mem_cons_self
  refine ⟨{ a.remove e.2.height e.1 with
    bySender := Table.alter e.2.sender (withoutPlace e.2.height e.1) a.bySender }, ?_, rfl, ?_⟩
  · rw [Admission.evictOldest, keeps.oldest]
    dsimp only
    rw [keeps.messageAt he]
    rfl
  rw [← without_cons_self keeps.arrivals]
  refine keeps.evict he ⟨rfl, rfl, keeps.senders.alter, fun s => ?_⟩
  by_cases heq : s = e.2.sender
  · subst heq
    refine (congrArg (Option.getD · []) (Table.get?_alter_self keeps.senders)).trans ?_
    rw [getD_withoutPlace, keeps.queues, places_without keeps.arrivals he]
    rfl
  · rw [places_without_of_ne keeps.arrivals he heq, ← keeps.queues]
    exact congrArg (Option.getD · []) (Table.get?_alter_of_ne heq)

end Keeps

/-! ### Caching in a bounded cache -/

theorem hold_eq (a : Admission) (m : Message) : a.hold m =
    if a.limits.perSender < (a.queueOf m).length then
      match a.queueOf m with
      | [] => .error .nothingToEvict
      | (height, first) :: left =>
        let kept := (a.held m).relieved m.sender left height first
        .ok (kept, [.dropped .senderLimit, kept.cachedLevel])
    else if a.limits.total < (a.held m).cachedCount then
      .ok ((a.held m).evictOldest.1, (a.held m).evictOldest.2 ++
        [(a.held m).evictOldest.1.cachedLevel])
    else .ok (a.held m, [(a.held m).cachedLevel]) := rfl

namespace Keeps

/-- **A sender over its limit** loses its oldest entry. -/
theorem hold_of_overdrawn (keeps : a.Keeps l)
    (overdrawn : a.limits.perSender < (bySameSender (l ++ [a.entryOf m]) m.sender).length) :
    ∃ a' e, a.hold m = .ok (a', [.dropped .senderLimit, a'.cachedLevel]) ∧ a'.gate = a.gate ∧
      (l ++ [a.entryOf m]).find? (·.2.sender == m.sender) = some e ∧
      a'.Keeps (without (l ++ [a.entryOf m]) e.1) := by
  obtain ⟨e, rest, hentries⟩ : ∃ e rest,
      bySameSender (l ++ [a.entryOf m]) m.sender = e :: rest := by
    refine List.exists_cons_of_ne_nil fun hnil => ?_
    rw [hnil] at overdrawn
    exact Nat.not_lt_zero _ overdrawn
  have hfind : (l ++ [a.entryOf m]).find? (·.2.sender == m.sender) = some e := by
    rw [← List.head?_filter]
    exact congrArg List.head? hentries
  have hqueue : a.queueOf m = e.place :: rest.map Entry.place := by
    rw [keeps.queueOf, places, hentries, List.map_cons]
  refine ⟨(a.held m).relieved m.sender (rest.map Entry.place) e.2.height e.1, e, ?_, rfl, hfind,
    keeps.held.evict_of_sender hfind ?_⟩
  · rw [hold_eq, if_pos, hqueue]
    · rfl
    · rwa [keeps.queueOf, places, List.length_map]
  · rw [← keeps.queueOf, hqueue]

/-- **A cache over its limit** loses its oldest entry. -/
theorem hold_of_full (keeps : a.Keeps l)
    (within : ¬a.limits.perSender < (bySameSender (l ++ [a.entryOf m]) m.sender).length)
    (full : a.limits.total < (l ++ [a.entryOf m]).length) :
    ∃ a', a.hold m = .ok (a', [.dropped .cacheFull, a'.cachedLevel]) ∧ a'.gate = a.gate ∧
      a'.Keeps (l ++ [a.entryOf m]).tail := by
  obtain ⟨e, rest, hlist⟩ : ∃ e rest, l ++ [a.entryOf m] = e :: rest :=
    List.exists_cons_of_ne_nil (List.append_ne_nil_of_right_ne_nil _ (List.cons_ne_nil _ _))
  have hheld : (a.held m).Keeps (l ++ [a.entryOf m]) := keeps.held
  have hcount : (a.held m).cachedCount = (l ++ [a.entryOf m]).length := hheld.cachedCount
  rw [hlist] at hheld
  obtain ⟨a', hevicted, hgate, hkeeps⟩ := hheld.evictOldest
  refine ⟨a', ?_, hgate, ?_⟩
  · rw [hold_eq, if_neg, if_pos, hevicted]
    · rfl
    · rwa [hcount]
    · rwa [keeps.queueOf, places, List.length_map]
  · rwa [hlist]

/-- **With room** in the cache nothing is evicted. -/
theorem hold_of_room (keeps : a.Keeps l)
    (within : ¬a.limits.perSender < (bySameSender (l ++ [a.entryOf m]) m.sender).length)
    (room : ¬a.limits.total < (l ++ [a.entryOf m]).length) :
    a.hold m = .ok (a.held m, [(a.held m).cachedLevel]) := by
  have hcount : (a.held m).cachedCount = (l ++ [a.entryOf m]).length := keeps.held.cachedCount
  rw [hold_eq, if_neg, if_neg]
  · rwa [hcount]
  · rwa [keeps.queueOf, places, List.length_map]

/-- A message can always be cached. -/
theorem hold (keeps : a.Keeps l) (m : Message) : ∃ a' metrics l',
    a.hold m = .ok (a', metrics) ∧ a'.gate = a.gate ∧ a'.Keeps l' := by
  by_cases hover : a.limits.perSender < (bySameSender (l ++ [a.entryOf m]) m.sender).length
  · obtain ⟨a', e, hheld, hgate, -, hkeeps⟩ := keeps.hold_of_overdrawn hover
    exact ⟨a', _, _, hheld, hgate, hkeeps⟩
  · by_cases hfull : a.limits.total < (l ++ [a.entryOf m]).length
    · obtain ⟨a', hheld, hgate, hkeeps⟩ := keeps.hold_of_full hover hfull
      exact ⟨a', _, _, hheld, hgate, hkeeps⟩
    · exact ⟨a.held m, _, _, keeps.hold_of_room hover hfull, rfl, keeps.held⟩

/-- A message can always be offered. -/
theorem offer (keeps : a.Keeps l) (m : Message) : ∃ answer l',
    a.offer m = .ok answer ∧ answer.admission.gate = a.gate ∧ answer.admission.Keeps l' := by
  rw [Admission.offer]
  split
  · exact ⟨_, l, rfl, rfl, keeps⟩
  · split
    · exact ⟨_, l, rfl, rfl, keeps⟩
    · split
      · exact ⟨_, l, rfl, rfl, keeps⟩
      · split
        · exact ⟨_, l, rfl, rfl, keeps⟩
        · obtain ⟨a', metrics, l', hheld, hgate, hkeeps⟩ := keeps.hold m
          refine ⟨⟨a', none, metrics⟩, l', ?_, hgate, hkeeps⟩
          rw [hheld]
          rfl

end Keeps

/-! ### Moving -/

/-- The entries of the heights above. -/
def above (h : Height) (l : List Entry) : List Entry := l.filter (decide <| h < ·.2.height)

theorem shelf_above (h k : Height) :
    filled (shelf (above h l) k) = if h < k then filled (shelf l k) else none := by
  rw [shelf, above, List.filter_filter]
  by_cases hlt : h < k
  · rw [if_pos hlt, shelf]
    refine congrArg filled (List.filter_congr fun e he => ?_)
    rw [Bool.eq_iff_iff, Bool.and_eq_true, beq_iff_eq, decide_eq_true_iff]
    constructor
    · exact And.left
    · intro heq
      exact ⟨heq, heq ▸ hlt⟩
  · rw [if_neg hlt, List.filter_eq_nil_iff.2, filled_nil]
    intro e he hboth
    rw [Bool.and_eq_true, beq_iff_eq, decide_eq_true_iff] at hboth
    exact hlt (hboth.1 ▸ hboth.2)

theorem places_above (h : Height) (s : MemberId) :
    places (above h l) s = (places l s).filter (decide <| h < ·.1) := by
  rw [places, bySameSender, above, List.filter_comm, places, List.filter_map]
  rfl

namespace Keeps

/-- After a move no sender has an empty queue. -/
theorem queue_moved (keeps : a.Keeps l) (h : Height) (s : MemberId) :
    Table.get? s (a.moved h).bySender = filled (places (above h l) s) := by
  refine (Table.get?_filterMap (g := fun places : List (Height × Arrival) =>
    filled (places.filter (decide <| h < ·.1))) (fun k b => ?_) keeps.senders).trans ?_
  · dsimp only [filled]
    split <;> rfl
  · rw [places_above, ← keeps.queues]
    rcases Table.get? s a.bySender with _ | queue
    · rfl
    · rfl

/-- **Moving keeps what is above.** -/
theorem moved (keeps : a.Keeps l) (h : Height) : (a.moved h).Keeps (above h l) where
  arrivals := keeps.arrivals.filter _
  fresh := fun e he => keeps.fresh e (List.mem_filter.1 he).1
  heights := keeps.heights.filter _
  shelves := by
    intro k
    rw [shelf_above, ← keeps.shelves]
    refine (Table.get?_filter (p := fun k => decide (h < k))).trans ?_
    simp only [decide_eq_true_eq]
  senders := by
    refine Table.Ascending.filterMap (g := fun places : List (Height × Arrival) =>
      filled (places.filter (decide <| h < ·.1))) (fun k b => ?_) keeps.senders
    dsimp only [filled]
    split <;> rfl
  queues := by
    intro s
    rw [keeps.queue_moved h s, getD_filled]

theorem released (keeps : a.Keeps l) (h : Height) :
    ((Table.get? h a.byHeight).getD []).map (·.2) = (shelf l h).map (·.2) := by
  rw [keeps.shelves, getD_filled]

end Keeps

end Admission

end CommitteeConsensus
