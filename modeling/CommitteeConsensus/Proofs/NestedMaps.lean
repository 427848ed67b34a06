import CommitteeConsensus.MessageStore
import CommitteeConsensus.Proofs.FirstWins

/-!
# Maps within maps, and the log they stand for

A message store goes down from map to map: from a height to a kind of message, from there to a view,
from there for votes to a block, and then to a sender.  Maps are made on demand on the way.  A
message log has nothing of that.  Its lists are searched for a whole key at once, and its heights
are those of the messages it holds.  Whatever is done with the two, they give the same answers
(`Mirrors.exchanges`), so that a store too follows the rule that the first message with a key wins
(`first_wins`).

## 1.  Places

The path that a message takes is spelled by its key, so a store is a partial function from keys to
messages (`MessageStore.find?`).  That it matters what is found at the end of a path, and not which
maps were made on the way, is due to the fact that a missing map reads like an empty one.  Filing a
message changes this function in the place for its key only, and there only if nothing is found
(`files_store`): one lemma for the map at the end, and one for each map above it.

## 2.  Order

That a question is answered rightly needs two things more of a store (`Sound`).  Messages are found
under their own keys only, so that to be found in a place means to be held and to have its key.  And
no map of a height is without a message, although it is made before one is filed in it, so that the
heights that have a map are those of the messages.  Lists come out right since a map lists its
entries by ascending number, and the senders and views are numbers.
-/

namespace CommitteeConsensus

/-! ## Maps from numbers -/

section NumberMap

variable {β : Type} {entries : NumberMap β} {place k : Nat} {b : β} {rank : β → Nat}

theorem getElem?_insert_number : (entries.insert place b)[k]? =
    if k = place then some b else entries[k]? := by
  rw [Std.TreeMap.getElem?_insert]
  exact if_congr (Nat.compare_eq_eq.trans eq_comm) rfl rfl

theorem getD_insert_number {fallback : β} : (entries.insert place b).getD k fallback =
    if k = place then b else entries.getD k fallback := by
  rw [Std.TreeMap.getD_insert]
  exact if_congr (Nat.compare_eq_eq.trans eq_comm) rfl rfl

/-- Whatever was in a place first stays there. -/
theorem getElem?_insertFirst : (insertFirst place b entries).1[k]? =
    if k = place then some (entries[place]?.getD b) else entries[k]? := by
  rw [insertFirst]
  split
  · next held =>
    obtain ⟨c, hc⟩ := Option.isSome_iff_exists.1
      (Std.TreeMap.isSome_getElem?_eq_contains.trans held)
    split
    · next heq => rw [heq, hc, Option.getD_some]
    · rfl
  · next free =>
    rw [getElem?_insert_number, Std.TreeMap.getElem?_eq_none_of_contains_eq_false
      (Bool.eq_false_of_not_eq_true free), Option.getD_none]

theorem map_insertFirst {γ : Type} (wrap : β → γ) :
    (insertFirst place b entries).1[place]?.map wrap =
      some ((entries[place]?.map wrap).getD (wrap b)) := by
  rw [getElem?_insertFirst, if_pos rfl]
  rcases entries[place]? with _ | c <;> rfl

theorem getElem?_insertFirst_of_ne (hne : k ≠ place) :
    (insertFirst place b entries).1[k]? = entries[k]? := by
  rw [getElem?_insertFirst, if_neg hne]

theorem snd_insertFirst (place : Nat) (b : β) (entries : NumberMap β) :
    (insertFirst place b entries).2 = entries[place]?.isNone := by
  rw [insertFirst, ← Option.not_isSome, Std.TreeMap.isSome_getElem?_eq_contains]
  split
  · next held => rw [held, Bool.not_true]
  · next free => rw [Bool.eq_false_of_not_eq_true free, Bool.not_false]

/-- A map lists what it holds, each under its rank. -/
theorem lists_listed {P : β → Prop} (h : ∀ k b, entries[k]? = some b ↔ P b ∧ rank b = k) :
    Lists rank P (listed entries) := by
  constructor
  · rw [listed, List.pairwise_map]
    refine (Std.TreeMap.ordered_keys_toList (t := entries)).imp_of_mem ?_
    rintro ⟨j, b⟩ ⟨k, c⟩ hb hc hlt
    rw [Std.TreeMap.mem_toList_iff_getElem?_eq_some, h] at hb hc
    rw [hb.2, hc.2]
    exact Nat.compare_eq_lt.1 hlt
  · intro b
    simp only [listed, List.mem_map, Prod.exists, exists_eq_right,
      Std.TreeMap.mem_toList_iff_getElem?_eq_some, h, exists_and_left, exists_eq', and_true]

theorem lists_keys {P : β → Prop} (h : ∀ k b, entries[k]? = some b ↔ P b ∧ rank b = k) :
    Lists id (fun k => ∃ b, P b ∧ rank b = k) entries.keys := by
  have hkeys : (listed entries).map rank = entries.keys := by
    rw [listed, List.map_map, ← Std.TreeMap.map_fst_toList_eq_keys]
    refine List.map_congr_left ?_
    rintro ⟨k, b⟩ hb
    rw [Std.TreeMap.mem_toList_iff_getElem?_eq_some, h] at hb
    exact hb.2
  rw [← hkeys]
  exact (lists_listed h).ranks

theorem listed_empty : listed (∅ : NumberMap β) = [] := rfl

end NumberMap

/-! ## Votes -/

section Votes

variable {β : Type} {views : NumberMap (VotesByBlock β)} {view view' : View}
  {hash hash' : BlockHash} {sender : MemberId} {vote : β}

/-- The votes of a view for a block by sender, none of them where no map was made. -/
def votesAt (views : NumberMap (VotesByBlock β)) (view : View) (hash : BlockHash) :
    NumberMap β := (views.getD view ∅).getD hash ∅

theorem votesAt_empty (view : View) (hash : BlockHash) :
    votesAt (∅ : NumberMap (VotesByBlock β)) view hash = ∅ := Std.HashMap.getD_empty

theorem votesOf_eq : votesOf views view hash = listed (votesAt views view hash) := by
  rw [votesOf, votesAt, Std.TreeMap.getD_eq_getD_getElem?]
  rcases views[view]? with _ | votes
  · rw [Option.getD_none, Std.HashMap.getD_empty]
    rfl
  · rw [Option.getD_some, Std.HashMap.getD_eq_getD_getElem?, Option.bind_some]
    rcases votes[hash]? with _ | senders <;> rfl

theorem votersOf_eq : votersOf views view hash = (votesAt views view hash).keys := by
  rw [votersOf, votesAt, Std.TreeMap.getD_eq_getD_getElem?]
  rcases views[view]? with _ | votes
  · rw [Option.getD_none, Std.HashMap.getD_empty]
    rfl
  · rw [Option.getD_some, Std.HashMap.getD_eq_getD_getElem?, Option.bind_some]
    rcases votes[hash]? with _ | senders <;> rfl

theorem votedIn_iff : votedIn views view sender = true ↔
    ∃ hash vote, (votesAt views view hash)[sender]? = some vote := by
  simp only [votesAt, Std.TreeMap.getD_eq_getD_getElem?, votedIn]
  rcases views[view]? with _ | votes
  · simp
  · simp only [Option.any_some, Option.getD_some, Std.HashMap.any_eq_true_iff_exists_mem_getElem]
    refine exists_congr fun hash => ?_
    rw [Std.HashMap.getD_eq_getD_getElem?, ← Option.isSome_iff_exists,
      Std.TreeMap.isSome_getElem?_eq_contains]
    constructor
    · rintro ⟨hmem, hsender⟩
      rwa [Std.HashMap.getElem?_eq_some_getElem hmem]
    · intro hsender
      rcases hfound : votes[hash]? with _ | senders
      · rw [hfound] at hsender
        exact absurd hsender (by simp)
      · obtain ⟨hmem, hsenders⟩ := Std.HashMap.getElem?_eq_some_iff.1 hfound
        rw [hfound] at hsender
        exact ⟨hmem, hsenders ▸ hsender⟩

theorem votesAt_inView : votesAt (inView view (insertVote hash sender vote) views).1 view' hash' =
    if view' = view ∧ hash' = hash then (insertFirst sender vote (votesAt views view hash)).1
    else votesAt views view' hash' := by
  have hinserted : (inView view (insertVote hash sender vote) views).1 = views.insert view
      ((views.getD view ∅).insert hash (insertFirst sender vote (votesAt views view hash)).1) := rfl
  rw [hinserted, votesAt, getD_insert_number]
  by_cases hview : view' = view
  · rw [if_pos hview, Std.HashMap.getD_insert]
    by_cases hhash : hash = hash'
    · rw [if_pos (beq_iff_eq.2 hhash), if_pos ⟨hview, hhash.symm⟩]
    · rw [if_neg (mt beq_iff_eq.1 hhash), if_neg fun h => hhash h.2.symm, hview, votesAt]
  · rw [if_neg hview, if_neg fun h => hview h.1, votesAt]

theorem map_votesAt_inView {γ : Type} (wrap : β → γ) :
    (votesAt (inView view (insertVote hash sender vote) views).1 view hash)[sender]?.map wrap =
      some (((votesAt views view hash)[sender]?.map wrap).getD (wrap vote)) := by
  rw [votesAt_inView, if_pos ⟨rfl, rfl⟩]
  exact map_insertFirst wrap

theorem map_votesAt_inView_of_ne {γ : Type} (wrap : β → γ) {sender' : MemberId}
    (hne : (view', hash', sender') ≠ (view, hash, sender)) :
    (votesAt (inView view (insertVote hash sender vote) views).1 view' hash')[sender']?.map wrap =
      (votesAt views view' hash')[sender']?.map wrap := by
  rw [votesAt_inView]
  split
  · next hsame =>
    obtain ⟨rfl, rfl⟩ := hsame
    rw [getElem?_insertFirst_of_ne fun hsender => hne (by rw [hsender])]
  · rfl

theorem snd_inView (views : NumberMap (VotesByBlock β)) :
    (inView view (insertVote hash sender vote) views).2 =
      (votesAt views view hash)[sender]?.isNone :=
  snd_insertFirst sender vote (votesAt views view hash)

end Votes

/-! ## Places -/

namespace MessageLog

/-- The height of the messages with a key. -/
def Key.height : Key → Height
  | .prePrepare key => key.1
  | .prepare key => key.1
  | .commit key => key.1
  | .viewChange key => key.1

theorem height_of_key? {m : Message} {place : Key} (h : key? m = some place) :
    place.height = m.height := by
  cases m with
  | newView => exact absurd h (by simp [key?])
  | _ =>
    obtain rfl := Option.some.inj h
    rfl

end MessageLog

open MessageLog (Key key? prePrepareKey prepareKey commitKey viewChangeKey)

namespace HeightLog

/-- What is in the place for a key of the height. -/
def find? (log : HeightLog) : Key → Option Message
  | .prePrepare (_, view) => log.prePrepares[view]?.map .prePrepare
  | .prepare (_, view, hash, sender) => (votesAt log.prepares view hash)[sender]?.map .prepare
  | .commit (_, view, hash, sender) => (votesAt log.commits view hash)[sender]?.map .commit
  | .viewChange (_, view, sender) => (log.viewChanges.getD view ∅)[sender]?.map .viewChange

/-- A message is filed in its place, unless there is one: no other place of the height is touched,
and the answer is whether the place was free. -/
structure Files (log : HeightLog) (m : Message) (place : Key) (result : HeightLog × Bool) :
    Prop where
  here : result.1.find? place = some ((log.find? place).getD m)
  elsewhere : ∀ k, k.height = place.height → k ≠ place → result.1.find? k = log.find? k
  answer : result.2 = (log.find? place).isNone

variable {log : HeightLog}

theorem files_filePrePrepare (m : PrePrepare) :
    log.Files (.prePrepare m) (.prePrepare (prePrepareKey m)) (log.filePrePrepare m) where
  here := map_insertFirst Message.prePrepare
  elsewhere k hheight hne := by
    cases k with
    | prePrepare key =>
      obtain ⟨height, view⟩ := key
      obtain rfl : height = m.height := hheight
      have hview : view ≠ m.view := fun heq => hne (by rw [heq, prePrepareKey])
      exact congrArg (Option.map Message.prePrepare) (getElem?_insertFirst_of_ne hview)
    | _ => rfl
  answer := (snd_insertFirst m.view m log.prePrepares).trans Option.isNone_map.symm

theorem files_filePrepare (m : Signed PrepareContent) :
    log.Files (.prepare m) (.prepare (prepareKey m)) (log.filePrepare m) where
  here := map_votesAt_inView Message.prepare
  elsewhere k hheight hne := by
    cases k with
    | prepare key =>
      obtain ⟨height, view, hash, sender⟩ := key
      obtain rfl : height = m.content.height := hheight
      have hplace : (view, hash, sender) ≠ (m.content.view, m.content.blockHash, m.sender) :=
        fun heq => hne (by rw [prepareKey, ← heq])
      exact map_votesAt_inView_of_ne Message.prepare hplace
    | _ => rfl
  answer := (snd_inView log.prepares).trans Option.isNone_map.symm

theorem files_fileCommit (m : Signed CommitContent) :
    log.Files (.commit m) (.commit (commitKey m)) (log.fileCommit m) where
  here := map_votesAt_inView Message.commit
  elsewhere k hheight hne := by
    cases k with
    | commit key =>
      obtain ⟨height, view, hash, sender⟩ := key
      obtain rfl : height = m.content.height := hheight
      have hplace : (view, hash, sender) ≠ (m.content.view, m.content.blockHash, m.sender) :=
        fun heq => hne (by rw [commitKey, ← heq])
      exact map_votesAt_inView_of_ne Message.commit hplace
    | _ => rfl
  answer := (snd_inView log.commits).trans Option.isNone_map.symm

/-- The requests of a view after one was filed. -/
theorem getD_fileViewChange (m : ViewChange) (view : View) :
    (log.fileViewChange m).1.viewChanges.getD view ∅ =
      if view = m.view then (insertFirst m.sender m (log.viewChanges.getD m.view ∅)).1
      else log.viewChanges.getD view ∅ := getD_insert_number

theorem files_fileViewChange (m : ViewChange) :
    log.Files (.viewChange m) (.viewChange (viewChangeKey m)) (log.fileViewChange m) where
  here := by
    show (((log.fileViewChange m).1.viewChanges.getD m.view ∅)[m.sender]?).map _ = _
    rw [getD_fileViewChange, if_pos rfl]
    exact map_insertFirst Message.viewChange
  elsewhere k hheight hne := by
    cases k with
    | viewChange key =>
      obtain ⟨height, view, sender⟩ := key
      obtain rfl : height = m.height := hheight
      refine congrArg (Option.map Message.viewChange) ?_
      rw [getD_fileViewChange]
      split
      · next hview =>
        subst hview
        exact getElem?_insertFirst_of_ne fun hsender => hne (by rw [hsender, viewChangeKey])
      · rfl
    | _ => rfl
  answer := (snd_insertFirst m.sender m (log.viewChanges.getD m.view ∅)).trans
    Option.isNone_map.symm

theorem find?_empty (place : Key) : empty.find? place = none := by
  cases place with
  | prePrepare | viewChange => rfl
  | prepare | commit => exact congrArg (fun senders => Option.map _ senders[_]?) (votesAt_empty _ _)

end HeightLog

namespace MessageStore

open MessageLog (Call Exchange Answers Admits HasProposal HasPrepare HasCommit HasViewChange
  heldAfter height_of_key?)

variable {s s' : MessageStore} {height : Height} {place : Key} {m : Message}

/-- The messages of a height, none of them if there is no map for it. -/
def log (s : MessageStore) (height : Height) : HeightLog := s.logs.getD height .empty

/-- The message in the place for a key. -/
def find? (s : MessageStore) (place : Key) : Option Message := (s.log place.height).find? place

/-- It makes no difference whether there is no map for a height, or nothing in it. -/
theorem readHeight_eq {β : Type} {absent : β} {f : HeightLog → β} (h : f .empty = absent) :
    s.readHeight height absent f = f (s.log height) := by
  rw [readHeight, log, Std.HashMap.getD_eq_getD_getElem?]
  rcases s.logs[height]? with _ | log
  · exact h.symm
  · rfl

/-! ## Filing -/

/-- A message is filed in its place, unless there is one: no other place is touched, and the answer
is whether the place was free. -/
structure Files (s : MessageStore) (m : Message) (place : Key) (result : MessageStore × Bool) :
    Prop where
  here : result.1.find? place = some ((s.find? place).getD m)
  elsewhere : ∀ k, k ≠ place → result.1.find? k = s.find? k
  answer : result.2 = (s.find? place).isNone

theorem log_atHeight {f : HeightLog → HeightLog × Bool} (k : Height) :
    (s.atHeight height f).1.log k = if k = height then (f (s.log height)).1 else s.log k := by
  have hinserted : (s.atHeight height f).1.logs = s.logs.insert height (f (s.log height)).1 := rfl
  rw [log, hinserted, Std.HashMap.getD_insert]
  exact if_congr (beq_iff_eq.trans eq_comm) rfl rfl

theorem files_atHeight {f : HeightLog → HeightLog × Bool}
    (h : (s.log place.height).Files m place (f (s.log place.height))) :
    s.Files m place (s.atHeight place.height f) where
  here := by
    rw [find?, log_atHeight, if_pos rfl]
    exact h.here
  elsewhere k hne := by
    rw [find?, log_atHeight]
    split
    · next hheight =>
      rw [h.elsewhere k hheight hne, find?, hheight]
    · rfl
  answer := h.answer

/-- **A store files a message in its place**, as long as that is free. -/
theorem files_store (h : key? m = some place) : s.Files m place (s.store m) := by
  cases m with
  | newView => exact absurd h (by simp [key?])
  | prePrepare m =>
    obtain rfl := Option.some.inj h
    exact files_atHeight (HeightLog.files_filePrePrepare m)
  | prepare m =>
    obtain rfl := Option.some.inj h
    exact files_atHeight (HeightLog.files_filePrepare m)
  | commit m =>
    obtain rfl := Option.some.inj h
    exact files_atHeight (HeightLog.files_fileCommit m)
  | viewChange m =>
    obtain rfl := Option.some.inj h
    exact files_atHeight (HeightLog.files_fileViewChange m)

/-! ## Forgetting -/

/-- The maps of some heights are dropped, and the others are kept. -/
def Restricts (s : MessageStore) (keep : Height → Bool) (s' : MessageStore) : Prop :=
  ∀ height, s'.logs[height]? = if keep height then s.logs[height]? else none

theorem restricts_clear (s : MessageStore) (height : Height) :
    s.Restricts (· != height) (s.clear height) := by
  intro k
  rw [clear, Std.HashMap.getElem?_erase]
  by_cases heq : height = k
  · subst heq
    simp
  · simp [heq, Ne.symm heq]

theorem restricts_clearBelow (s : MessageStore) (height : Height) :
    s.Restricts (height ≤ ·) (s.clearBelow height) := by
  intro k
  rw [clearBelow, Std.HashMap.getElem?_filter']
  by_cases hle : height ≤ k <;> rcases s.logs[k]? with _ | log <;> simp [hle]

theorem Restricts.find? {keep : Height → Bool} (h : s.Restricts keep s') (place : Key) :
    s'.find? place = if keep place.height then s.find? place else none := by
  rw [MessageStore.find?, log, Std.HashMap.getD_eq_getD_getElem?, h]
  split
  · rw [← Std.HashMap.getD_eq_getD_getElem?]
    rfl
  · exact HeightLog.find?_empty place

/-! ## Stores in order -/

/-- Every message is in the place for its key, and a height has a map for the sake of a message. -/
structure Sound (s : MessageStore) : Prop where
  keyed : ∀ place m, s.find? place = some m → key? m = some place
  inhabited : ∀ height ∈ s.logs, ∃ place, place.height = height ∧ (s.find? place).isSome = true

theorem find?_empty (place : Key) : empty.find? place = none := by
  rw [find?, log, empty, Std.HashMap.getD_empty]
  exact HeightLog.find?_empty place

theorem sound_empty : empty.Sound where
  keyed place m h := absurd h (by simp [find?_empty])
  inhabited height h := absurd h Std.HashMap.not_mem_empty

theorem mem_logs_atHeight {f : HeightLog → HeightLog × Bool} {k : Height}
    (h : k ∈ (s.atHeight height f).1.logs) : k = height ∨ k ∈ s.logs := by
  rcases Std.HashMap.mem_insert.1 h with heq | hmem
  · exact Or.inl (beq_iff_eq.1 heq).symm
  · exact Or.inr hmem

/-- Filing makes no map but for the height of the message. -/
theorem mem_logs_store {k : Height} (h : k ∈ (s.store m).1.logs) : k = m.height ∨ k ∈ s.logs := by
  cases m with
  | newView => exact Or.inr h
  | _ => exact mem_logs_atHeight h

theorem Files.isSome_find? {result : MessageStore × Bool} (h : s.Files m place result) {k : Key}
    (held : (s.find? k).isSome = true) : (result.1.find? k).isSome = true := by
  by_cases heq : k = place
  · rw [heq, h.here, Option.isSome_some]
  · rwa [h.elsewhere k heq]

theorem Sound.store (sound : s.Sound) (m : Message) : (s.store m).1.Sound := by
  rcases hkey : key? m with _ | place
  · cases m with
    | newView => exact sound
    | _ => exact absurd hkey (by simp [key?])
  have hfiles := files_store (s := s) hkey
  refine ⟨fun k b hb => ?_, fun k hk => ?_⟩
  · by_cases heq : k = place
    · rw [heq, hfiles.here] at hb
      rw [heq, ← hkey]
      rcases hfound : s.find? place with _ | c
      · rw [hfound, Option.getD_none] at hb
        rw [Option.some.inj hb]
      · rw [hfound, Option.getD_some] at hb
        rw [← Option.some.inj hb, sound.keyed place c hfound, hkey]
    · rw [hfiles.elsewhere k heq] at hb
      exact sound.keyed k b hb
  · -- the map that filing may make is never left empty
    rcases mem_logs_store hk with rfl | hold
    · exact ⟨place, height_of_key? hkey, by rw [hfiles.here, Option.isSome_some]⟩
    · obtain ⟨k', hheight, hsome⟩ := sound.inhabited k hold
      exact ⟨k', hheight, hfiles.isSome_find? hsome⟩

theorem Restricts.sound {keep : Height → Bool} (h : s.Restricts keep s') (sound : s.Sound) :
    s'.Sound := by
  refine ⟨fun k b hb => ?_, fun k hk => ?_⟩
  · rw [h.find?] at hb
    split at hb
    · exact sound.keyed k b hb
    · exact absurd hb (by simp)
  · rw [Std.HashMap.mem_iff_isSome_getElem?, h] at hk
    split at hk
    · next hkeep =>
      obtain ⟨place, rfl, hsome⟩ := sound.inhabited k (Std.HashMap.mem_iff_isSome_getElem?.2 hk)
      exact ⟨place, rfl, by rwa [h.find?, if_pos hkeep]⟩
    · exact absurd hk (by simp)

/-! ## What a store holds -/

/-- The store as a set of messages. -/
def held (s : MessageStore) : Set Message :=
  {m | ∃ place, key? m = some place ∧ s.find? place = some m}

theorem held_empty : empty.held = ∅ := by
  refine Set.eq_empty_iff_forall_notMem.2 ?_
  rintro m ⟨place, -, hfound⟩
  exact absurd hfound (by simp [find?_empty])

theorem mem_held_iff (key : key? m = some place) : m ∈ s.held ↔ s.find? place = some m := by
  constructor
  · rintro ⟨place', hkey, hfound⟩
    obtain rfl := Option.some.inj (key.symm.trans hkey)
    exact hfound
  · exact fun h => ⟨place, key, h⟩

/-- What is in a place is held, and has its key. -/
theorem Sound.find?_eq_some_iff (sound : s.Sound) (place : Key) (m : Message) :
    s.find? place = some m ↔ m ∈ s.held ∧ key? m = some place := by
  constructor
  · intro h
    have hkey := sound.keyed place m h
    exact ⟨(mem_held_iff hkey).2 h, hkey⟩
  · rintro ⟨hheld, hkey⟩
    exact (mem_held_iff hkey).1 hheld

/-- A place is free if what belongs there is admitted. -/
theorem Sound.admits_iff (sound : s.Sound) (key : key? m = some place) :
    Admits s.held m ↔ s.find? place = none := by
  rw [Admits, key]
  constructor
  · rintro ⟨-, hfree⟩
    rcases hfound : s.find? place with _ | b
    · rfl
    · obtain ⟨hheld, hkey⟩ := (sound.find?_eq_some_iff _ _).1 hfound
      exact absurd hkey (hfree b hheld)
  · intro hnone
    refine ⟨by simp, fun b hb hkey => ?_⟩
    rw [(mem_held_iff hkey).1 hb] at hnone
    exact absurd hnone (by simp)

theorem not_admits_of_key? (key : key? m = none) : ¬Admits s.held m := fun h => h.1 key

/-- **A store files what the rule admits.** -/
theorem Sound.store_iff (sound : s.Sound) (m : Message) :
    (s.store m).2 = true ↔ Admits s.held m := by
  rcases hkey : key? m with _ | place
  · refine iff_of_false ?_ (not_admits_of_key? hkey)
    cases m with
    | newView => exact Bool.false_ne_true
    | _ => exact absurd hkey (by simp [key?])
  · rw [(files_store hkey).answer, sound.admits_iff hkey, Option.isNone_iff_eq_none]

theorem Sound.held_store (sound : s.Sound) (m : Message) :
    (s.store m).1.held = heldAfter s.held (.store m) := by
  ext b
  show b ∈ (s.store m).1.held ↔ b ∈ s.held ∨ b = m ∧ Admits s.held m
  rcases hkey : key? m with _ | place
  · have hsame : (s.store m).1 = s := by
      cases m with
      | newView => rfl
      | _ => exact absurd hkey (by simp [key?])
    rw [hsame]
    exact (or_iff_left fun h => not_admits_of_key? hkey h.2).symm
  have hfiles := files_store (s := s) hkey
  rw [sound.admits_iff hkey]
  rcases hb : key? b with _ | k
  · refine iff_of_false ?_ ?_
    · rintro ⟨k, hk, -⟩
      exact absurd (hb.symm.trans hk) (by simp)
    · rintro (⟨k, hk, -⟩ | ⟨rfl, -⟩)
      · exact absurd (hb.symm.trans hk) (by simp)
      · exact absurd (hb.symm.trans hkey) (by simp)
  rw [mem_held_iff hb, mem_held_iff hb]
  by_cases heq : k = place
  · subst heq
    rw [hfiles.here]
    rcases s.find? k with _ | c
    · simp [eq_comm]
    · simp
  · rw [hfiles.elsewhere k heq]
    refine (or_iff_left ?_).symm
    rintro ⟨rfl, -⟩
    exact heq (Option.some.inj (hb.symm.trans hkey))

theorem Restricts.mem_held_iff {keep : Height → Bool} (h : s.Restricts keep s') :
    m ∈ s'.held ↔ m ∈ s.held ∧ keep m.height = true := by
  constructor
  · rintro ⟨place, hkey, hfound⟩
    rw [h.find?, height_of_key? hkey] at hfound
    split at hfound
    · next hkeep => exact ⟨⟨place, hkey, hfound⟩, hkeep⟩
    · exact absurd hfound (by simp)
  · rintro ⟨⟨place, hkey, hfound⟩, hkeep⟩
    exact ⟨place, hkey, by rw [h.find?, height_of_key? hkey, if_pos hkeep, hfound]⟩

/-! ## Answers -/

section Answers

variable {h : Height} {v : View} {x : BlockHash} {i : MemberId}

/-- What is in a place, for whoever knows the kind of messages that belong there. -/
theorem Sound.eq_some_iff {β : Type} {wrap : β → Message} (sound : s.Sound)
    (injective : Function.Injective wrap) {found : Option β} {b : β}
    (hplace : s.find? place = found.map wrap) :
    found = some b ↔ wrap b ∈ s.held ∧ key? (wrap b) = some place := by
  rw [← sound.find?_eq_some_iff, hplace]
  exact ((Option.map_injective injective).eq_iff (b := some b)).symm

theorem Sound.proposal_iff (sound : s.Sound) {m : PrePrepare} :
    (s.log h).prePrepares[v]? = some m ↔ HasProposal s.held h m ∧ m.view = v := by
  have hplace : s.find? (.prePrepare (h, v)) = (s.log h).prePrepares[v]?.map .prePrepare := rfl
  rw [sound.eq_some_iff (fun _ _ => Message.prePrepare.inj) hplace]
  simp [HasProposal, key?, prePrepareKey, and_assoc]

theorem Sound.prepare_iff (sound : s.Sound) {b : Signed PrepareContent} :
    (votesAt (s.log h).prepares v x)[i]? = some b ↔ HasPrepare s.held h v x b ∧ b.sender = i := by
  have hplace : s.find? (.prepare (h, v, x, i)) =
    (votesAt (s.log h).prepares v x)[i]?.map .prepare := rfl
  rw [sound.eq_some_iff (fun _ _ => Message.prepare.inj) hplace]
  simp [HasPrepare, key?, prepareKey, and_assoc]

theorem Sound.commit_iff (sound : s.Sound) {b : Signed CommitContent} :
    (votesAt (s.log h).commits v x)[i]? = some b ↔ HasCommit s.held h v x b ∧ b.sender = i := by
  have hplace : s.find? (.commit (h, v, x, i)) =
    (votesAt (s.log h).commits v x)[i]?.map .commit := rfl
  rw [sound.eq_some_iff (fun _ _ => Message.commit.inj) hplace]
  simp [HasCommit, key?, commitKey, and_assoc]

theorem Sound.viewChange_iff (sound : s.Sound) {m : ViewChange} :
    ((s.log h).viewChanges.getD v ∅)[i]? = some m ↔ HasViewChange s.held h v m ∧ m.sender = i := by
  have hplace : s.find? (.viewChange (h, v, i)) =
    ((s.log h).viewChanges.getD v ∅)[i]?.map .viewChange := rfl
  rw [sound.eq_some_iff (fun _ _ => Message.viewChange.inj) hplace]
  simp [HasViewChange, key?, viewChangeKey, and_assoc]

/-- The votes of a height, whichever of its maps they are in. -/
theorem readHeight_votesOf {β : Type} {votes : HeightLog → NumberMap (VotesByBlock β)}
    (none : votes .empty = ∅) :
    s.readHeight h [] (fun log => votesOf (votes log) v x) =
      listed (votesAt (votes (s.log h)) v x) := by
  rw [readHeight_eq, votesOf_eq]
  rw [votesOf_eq, none, votesAt_empty, listed_empty]

theorem readHeight_votersOf {β : Type} {votes : HeightLog → NumberMap (VotesByBlock β)}
    (none : votes .empty = ∅) :
    s.readHeight h [] (fun log => votersOf (votes log) v x) =
      (votesAt (votes (s.log h)) v x).keys := by
  rw [readHeight_eq, votersOf_eq]
  rw [votersOf_eq, none, votesAt_empty]
  rfl

theorem preparesFor_eq : s.preparesFor h v x = listed (votesAt (s.log h).prepares v x) :=
  readHeight_votesOf rfl

theorem viewChangesFor_eq : s.viewChangesFor h v = listed ((s.log h).viewChanges.getD v ∅) := by
  refine (readHeight_eq rfl).trans ?_
  rw [Std.TreeMap.getD_eq_getD_getElem?]
  rcases (s.log h).viewChanges[v]? with _ | senders <;> rfl

theorem Sound.lists_preparesFor (sound : s.Sound) :
    Lists (·.sender) (HasPrepare s.held h v x) (s.preparesFor h v x) :=
  preparesFor_eq ▸ lists_listed fun _ _ => sound.prepare_iff

theorem Sound.lists_commitsFor (sound : s.Sound) :
    Lists (·.sender) (HasCommit s.held h v x) (s.commitsFor h v x) := by
  rw [commitsFor, readHeight_votesOf rfl]
  exact lists_listed fun _ _ => sound.commit_iff

theorem Sound.lists_viewChangesFor (sound : s.Sound) :
    Lists (·.sender) (HasViewChange s.held h v) (s.viewChangesFor h v) :=
  viewChangesFor_eq ▸ lists_listed fun _ _ => sound.viewChange_iff

theorem Sound.lists_proposals (sound : s.Sound) :
    Lists (·.view) (HasProposal s.held h) (listed (s.log h).prePrepares) :=
  lists_listed fun _ _ => sound.proposal_iff

theorem Sound.lists_prepareSenders (sound : s.Sound) :
    Lists id (fun i => ∃ b, HasPrepare s.held h v x b ∧ b.sender = i) (s.prepareSenders h v x) := by
  rw [prepareSenders, readHeight_votersOf rfl]
  exact lists_keys fun _ _ => sound.prepare_iff

theorem Sound.lists_commitSenders (sound : s.Sound) :
    Lists id (fun i => ∃ b, HasCommit s.held h v x b ∧ b.sender = i) (s.commitSenders h v x) := by
  rw [commitSenders, readHeight_votersOf rfl]
  exact lists_keys fun _ _ => sound.commit_iff

theorem Sound.hasPrepareFrom_iff (sound : s.Sound) : s.hasPrepareFrom h v i = true ↔
    ∃ x b, HasPrepare s.held h v x b ∧ b.sender = i := by
  have hread : s.hasPrepareFrom h v i = votedIn (s.log h).prepares v i := readHeight_eq rfl
  rw [hread, votedIn_iff]
  exact exists₂_congr fun _ _ => sound.prepare_iff

theorem Sound.hasCommitFrom_iff (sound : s.Sound) : s.hasCommitFrom h v i = true ↔
    ∃ x b, HasCommit s.held h v x b ∧ b.sender = i := by
  have hread : s.hasCommitFrom h v i = votedIn (s.log h).commits v i := readHeight_eq rfl
  rw [hread, votedIn_iff]
  exact exists₂_congr fun _ _ => sound.commit_iff

/-- The heights that have a map are those of the messages that are held. -/
theorem Sound.mem_logs_iff (sound : s.Sound) : h ∈ s.logs ↔ ∃ m ∈ s.held, m.height = h := by
  constructor
  · intro hmem
    obtain ⟨place, rfl, hsome⟩ := sound.inhabited h hmem
    obtain ⟨m, hm⟩ := Option.isSome_iff_exists.1 hsome
    obtain ⟨hheld, hkey⟩ := (sound.find?_eq_some_iff _ _).1 hm
    exact ⟨m, hheld, (height_of_key? hkey).symm⟩
  · rintro ⟨m, ⟨place, hkey, hfound⟩, rfl⟩
    by_contra hmem
    rw [find?, log, height_of_key? hkey, Std.HashMap.getD_eq_fallback hmem] at hfound
    exact absurd hfound (by simp [HeightLog.find?_empty])

theorem Sound.lists_heights (sound : s.Sound) :
    Lists id (fun h => ∃ m ∈ s.held, m.height = h) s.heights := by
  have hperm : s.heights.Perm s.logs.keys := List.mergeSort_perm _ _
  have hordered : s.heights.Pairwise fun a b => id a ≤ id b := by
    refine (List.pairwise_mergeSort ?_ ?_ s.logs.keys).imp ?_
    · intro a b c hab hbc
      exact decide_eq_true (Nat.le_trans (of_decide_eq_true hab) (of_decide_eq_true hbc))
    · intro a b
      simpa using Nat.le_total a b
    · exact fun hle => of_decide_eq_true hle
  refine lists_of_le hordered ?_ fun h => ?_
  · rw [List.map_id]
    exact hperm.nodup_iff.2 Std.HashMap.nodup_keys
  · rw [hperm.mem_iff, Std.HashMap.mem_keys, sound.mem_logs_iff]

end Answers

/-! ## The store answers as the log does -/

/-- The answers of a store to one call after the other. -/
def exchanges : MessageStore → List Call → List Exchange
  | _, [] => []
  | s, call :: calls => ⟨call, s.answer call⟩ :: exchanges (s.after call) calls

/-- A store and a log hold the same messages, each in its order. -/
structure Mirrors (s : MessageStore) (log : MessageLog) : Prop where
  sound : s.Sound
  ordered : log.Ordered
  held : s.held = log.held

variable {log : MessageLog}

theorem mirrors_empty : empty.Mirrors .empty where
  sound := sound_empty
  ordered := MessageLog.ordered_empty
  held := held_empty.trans MessageLog.held_empty.symm

/-- **A call does the same to both.** -/
theorem Mirrors.after (h : s.Mirrors log) (call : Call) :
    (s.after call).Mirrors (log.after call) := by
  have hordered := h.ordered.after call
  have hheld := MessageLog.held_after log call
  cases call with
  | store m =>
    refine ⟨h.sound.store m, hordered, ?_⟩
    rw [hheld, ← h.held]
    exact h.sound.held_store m
  | clear height =>
    have hkept := s.restricts_clear height
    refine ⟨hkept.sound h.sound, hordered, ?_⟩
    rw [hheld, ← h.held]
    ext b
    exact hkept.mem_held_iff.trans (and_congr_right fun _ => bne_iff_ne)
  | clearBelow height =>
    have hkept := s.restricts_clearBelow height
    refine ⟨hkept.sound h.sound, hordered, ?_⟩
    rw [hheld, ← h.held]
    ext b
    exact hkept.mem_held_iff.trans (and_congr_right fun _ => decide_eq_true_iff)
  | _ => exact h

/-- The proposals of a height, those of the highest views first. -/
theorem Mirrors.proposals (h : s.Mirrors log) (height : Height) :
    (listed (s.log height).prePrepares).reverse =
      log.prePrepares.filter (·.height == height) := by
  have hlists : Lists (·.view) (HasProposal log.held height)
      (log.prePrepares.filter (·.height == height)).reverse := by
    have hmem : ∀ m, m ∈ log.prePrepares.filter (·.height == height) ↔
        HasProposal log.held height m := fun m => by
      rw [List.mem_filter, beq_iff_eq]
      exact Iff.rfl
    refine lists_of_le ?_ ?_ fun m => List.mem_reverse.trans (hmem m)
    · exact List.pairwise_reverse.2 (h.ordered.descending.sublist List.filter_sublist)
    · rw [List.map_reverse, List.nodup_reverse]
      have hnodup := (List.Nodup.of_map _ h.ordered.prePrepares).filter (·.height == height)
      refine hnodup.map_on fun a ha b hb hview => ?_
      exact h.ordered.proposal_unique ((hmem a).1 ha) ((hmem b).1 hb) hview
  have hsame := hlists.unique (h.held ▸ h.sound.lists_proposals)
  rw [← hsame, List.reverse_reverse]

theorem Mirrors.preparesFor (h : s.Mirrors log) (height : Height) (view : View)
    (hash : BlockHash) : s.preparesFor height view hash = log.preparesFor height view hash :=
  (h.sound.lists_preparesFor).unique (h.held ▸ MessageLog.lists_preparesFor h.ordered)

theorem Mirrors.latestPrePrepare? (h : s.Mirrors log) (height : Height) :
    s.latestPrePrepare? height = log.latestPrePrepare? height := by
  refine (readHeight_eq rfl).trans ?_
  rw [List.getLast?_eq_head?_reverse, h.proposals, List.head?_filter]
  rfl

theorem Mirrors.prepared? (h : s.Mirrors log) (height : Height) (quorum : Nat) :
    s.prepared? height quorum = log.prepared? height quorum := by
  refine (readHeight_eq rfl).trans ?_
  rw [MessageLog.prepared?, ← h.proposals, HeightLog.prepared?, listed, ← List.map_reverse,
    List.findSome?_map, ← List.head?_filterMap, ← List.head?_filterMap]
  -- both go down the same proposals; the store has the view from its map, the log from the proposal
  refine congrArg List.head? (List.filterMap_congr ?_)
  rintro ⟨view, m⟩ hentry
  rw [List.mem_reverse, Std.TreeMap.mem_toList_iff_getElem?_eq_some, h.sound.proposal_iff] at hentry
  obtain ⟨⟨-, rfl⟩, rfl⟩ := hentry
  have hvotes := h.preparesFor m.height m.view m.blockHash
  rw [preparesFor_eq, ← votesOf_eq] at hvotes
  dsimp only
  rw [hvotes]
  rfl

/-- **Both answer every call in the same way.** -/
theorem Mirrors.answer (h : s.Mirrors log) (call : Call) : s.answer call = log.answer call := by
  have hlog := h.ordered.answers call
  rw [← h.held] at hlog
  cases call with
  | clear | clearBelow => rfl
  | latestPrePrepare height => exact h.latestPrePrepare? height
  | prepared height quorum => exact h.prepared? height quorum
  | store m => exact Bool.eq_iff_iff.2 ((h.sound.store_iff m).trans hlog.symm)
  | prePrepare height view =>
    have hread : s.prePrepare? height view = (s.log height).prePrepares[view]? := readHeight_eq rfl
    refine hread.trans (Option.ext fun m => ?_)
    exact h.sound.proposal_iff.trans (hlog m).symm
  | prepares height view hash => exact h.sound.lists_preparesFor.unique hlog
  | prepareSenders height view hash => exact h.sound.lists_prepareSenders.unique hlog
  | commits height view hash => exact h.sound.lists_commitsFor.unique hlog
  | commitSenders height view hash => exact h.sound.lists_commitSenders.unique hlog
  | hasPrepareFrom height view member =>
    exact Bool.eq_iff_iff.2 (h.sound.hasPrepareFrom_iff.trans hlog.symm)
  | hasCommitFrom height view member =>
    exact Bool.eq_iff_iff.2 (h.sound.hasCommitFrom_iff.trans hlog.symm)
  | viewChanges height view => exact h.sound.lists_viewChangesFor.unique hlog
  | heights => exact h.sound.lists_heights.unique hlog

theorem Mirrors.exchanges (h : s.Mirrors log) (calls : List Call) :
    s.exchanges calls = log.exchanges calls := by
  induction calls generalizing s log with
  | nil => rfl
  | cons call rest ih =>
    rw [MessageStore.exchanges, MessageLog.exchanges, h.answer call, ih (h.after call)]

/-- **Maps within maps make a log in which the first message with a key wins.**  Whatever calls are
made on a new store, it answers them as a new log does.  These answers are the only ones that the
rule allows: a message is added if it has a key and none that is held has the same, clearing drops
the messages of some heights, and every question is answered from the messages that are held. -/
theorem first_wins (calls : List Call) :
    empty.exchanges calls = MessageLog.empty.exchanges calls ∧
      ∀ results : List Exchange, results = empty.exchanges calls ↔
        results.map (·.call) = calls ∧ MessageLog.Explains ∅ results := by
  have hsame := mirrors_empty.exchanges calls
  refine ⟨hsame, fun results => ?_⟩
  rw [hsame]
  exact MessageLog.exchanges_empty_iff calls results

end MessageStore

end CommitteeConsensus
