import CommitteeConsensus.Admission
import Mathlib.Data.List.Flatten

/-!
# What the filter caches

The cache of the filter may evict messages, but it never makes one up.  Whatever it
releases was offered to it before, under the height it claims, and is not the member's own.
`Admission.Holds` says that a message is cached under a height; each operation is described
by what it makes of it.

Releasing takes messages out of the cache (`cachedCount_of_setHeight`).  This is what bounds
the number of heights that one call can run through.
-/

namespace CommitteeConsensus

/-! ## Tables -/

theorem Table.mem_of_get? {β : Type} {key : Nat} {b : β} {l : List (Nat × β)}
    (h : Table.get? key l = some b) : (key, b) ∈ l := by
  induction l with
  | nil => exact absurd h (by simp [Table.get?])
  | cons entry rest ih =>
    obtain ⟨k, b'⟩ := entry
    rw [Table.get?] at h
    split at h
    · next heq =>
      obtain rfl := Option.some.inj h
      rw [heq]
      exact List.mem_cons_self
    · exact List.mem_cons_of_mem _ (ih h)

/-- What is in a table after an entry was changed: what was there, or the changed entry. -/
theorem Table.mem_alter {β : Type} {key : Nat} {f : Option β → Option β} {k : Nat} {b : β}
    {l : List (Nat × β)} (h : (k, b) ∈ Table.alter key f l) :
    (k, b) ∈ l ∨ k = key ∧ ∃ old, (∀ b', old = some b' → (key, b') ∈ l) ∧ f old = some b := by
  induction l with
  | nil =>
    rw [Table.alter] at h
    split at h
    · exact absurd h List.not_mem_nil
    · next c hc =>
      obtain ⟨rfl, rfl⟩ := Prod.mk.inj (List.mem_singleton.1 h)
      exact Or.inr ⟨rfl, none, fun b' hb' => absurd hb' (by simp), hc⟩
  | cons entry rest ih =>
    obtain ⟨k', b₀⟩ := entry
    rw [Table.alter] at h
    split at h
    · rcases List.mem_cons.1 h with heq | h
      · rw [heq]
        exact Or.inl List.mem_cons_self
      · refine (ih h).imp (List.mem_cons_of_mem _) ?_
        rintro ⟨rfl, old, hold, hf⟩
        exact ⟨rfl, old, fun b' hb' => List.mem_cons_of_mem _ (hold b' hb'), hf⟩
    · split at h
      · next heq =>
        subst heq
        split at h
        · exact Or.inl (List.mem_cons_of_mem _ h)
        · next c hc =>
          rcases List.mem_cons.1 h with h | h
          · obtain ⟨rfl, rfl⟩ := Prod.mk.inj h
            refine Or.inr ⟨rfl, some b₀, fun b' hb' => ?_, hc⟩
            rw [← Option.some.inj hb']
            exact List.mem_cons_self
          · exact Or.inl (List.mem_cons_of_mem _ h)
      · split at h
        · exact Or.inl h
        · next c hc =>
          rcases List.mem_cons.1 h with h | h
          · obtain ⟨rfl, rfl⟩ := Prod.mk.inj h
            exact Or.inr ⟨rfl, none, fun b' hb' => absurd hb' (by simp), hc⟩
          · exact Or.inl h

namespace Admission

/-- A message is cached under a height. -/
def Holds (a : Admission) (height : Height) (m : Message) : Prop :=
  ∃ entries arrival, (height, entries) ∈ a.byHeight ∧ (arrival, m) ∈ entries

variable {a a' : Admission} {height k : Height} {m message : Message} {metrics : List Metric}

/-- A filter that caches no more than another, for the same member with the same limits. -/
structure Within (a' a : Admission) : Prop where
  me : a'.me = a.me
  height : a'.height = a.height
  holds : ∀ k m, a'.Holds k m → a.Holds k m

theorem not_holds_start (me : MemberId) (limits : Limits) :
    ¬(start me height limits).Holds k m := by
  rintro ⟨entries, arrival, hentries, -⟩
  exact absurd hentries List.not_mem_nil

/-! ## Caching -/

/-- Taking a message out of the cache brings none in. -/
theorem within_remove (a : Admission) (height : Height) (arrival : Arrival) :
    (a.remove height arrival).Within a := by
  refine ⟨rfl, rfl, fun k m => ?_⟩
  rintro ⟨entries, n, hentries, hm⟩
  rcases Table.mem_alter hentries with hkept | ⟨rfl, old, hold, hleft⟩
  · exact ⟨entries, n, hkept, hm⟩
  · rcases old with _ | before
    · exact absurd hleft (by simp [withoutArrival])
    · rw [withoutArrival] at hleft
      split at hleft
      · exact absurd hleft (by simp)
      · obtain rfl := Option.some.inj hleft
        exact ⟨before, n, hold before rfl, (List.mem_filter.1 hm).1⟩

theorem within_evictOldest (a : Admission) : a.evictOldest.1.Within a := by
  rw [evictOldest]
  split
  · exact ⟨rfl, rfl, fun _ _ h => h⟩
  · next arrival height _ =>
    split
    · exact within_remove a height arrival
    · have hwithin := within_remove a height arrival
      exact ⟨hwithin.me, hwithin.height, hwithin.holds⟩

/-- A cache to which one message was added, and from which others may have been evicted. -/
structure Grown (a' a : Admission) (message : Message) : Prop where
  me : a'.me = a.me
  height : a'.height = a.height
  holds : ∀ k m, a'.Holds k m → a.Holds k m ∨ k = message.height ∧ m = message

theorem Within.grown {b : Admission} (h : a'.Within b) (hb : b.Grown a message) :
    a'.Grown a message :=
  ⟨h.me.trans hb.me, h.height.trans hb.height, fun k m hm => hb.holds k m (h.holds k m hm)⟩

theorem grown_of_hold (h : a.hold message = .ok (a', metrics)) : a'.Grown a message := by
  rw [hold] at h
  dsimp only at h
  generalize hqueue : (Table.get? message.sender a.bySender).getD [] ++
    [(message.height, a.nextArrival)] = queue at h
  generalize hheld : ({ a with
    nextArrival := a.nextArrival + 1
    byHeight := Table.alter message.height
      (fun entries => some (entries.getD [] ++ [(a.nextArrival, message)])) a.byHeight
    bySender := Table.alter message.sender (fun _ => some queue) a.bySender } : Admission) = held
    at h
  have hgrown : held.Grown a message := by
    subst hheld
    refine ⟨rfl, rfl, fun k m => ?_⟩
    rintro ⟨entries, n, hentries, hm⟩
    rcases Table.mem_alter hentries with hkept | ⟨rfl, old, hold, hadded⟩
    · exact Or.inl ⟨entries, n, hkept, hm⟩
    · obtain rfl := Option.some.inj hadded
      rcases List.mem_append.1 hm with hm | hm
      · rcases old with _ | before
        · exact absurd hm List.not_mem_nil
        · exact Or.inl ⟨before, n, hold before rfl, hm⟩
      · obtain ⟨-, rfl⟩ := Prod.mk.inj (List.mem_singleton.1 hm)
        exact Or.inr ⟨rfl, rfl⟩
  split at h
  · split at h
    · exact absurd h (by simp)
    · next first left =>
      obtain ⟨rfl, -⟩ := Prod.mk.inj (Except.ok.inj h)
      refine (within_remove _ _ _).grown ?_
      subst hheld
      exact ⟨hgrown.me, hgrown.height, hgrown.holds⟩
  · split at h
    · obtain ⟨rfl, -⟩ := Prod.mk.inj (Except.ok.inj h)
      exact (within_evictOldest held).grown hgrown
    · obtain ⟨rfl, -⟩ := Prod.mk.inj (Except.ok.inj h)
      exact hgrown

/-! ## Offering -/

/-- **What comes of an offer.**  A message that passes is of the current height and by
someone else; and if one is cached, it is the one that was offered, by someone else. -/
structure Offered (a : Admission) (message : Message) (answer : Answer) : Prop where
  me : answer.admission.me = a.me
  height : answer.admission.height = a.height
  passed : ∀ m, answer.passed = some m → m = message ∧ message.height = a.height ∧
    message.sender ≠ a.me
  holds : ∀ k m, answer.admission.Holds k m →
    a.Holds k m ∨ k = message.height ∧ m = message ∧ message.sender ≠ a.me

theorem offered_of_offer {answer : Answer} (h : a.offer message = .ok answer) :
    a.Offered message answer := by
  have hsame : ∀ metrics, a.Offered message ⟨a, none, metrics⟩ := fun metrics =>
    ⟨rfl, rfl, fun m hm => absurd hm (by simp), fun k m hm => Or.inl hm⟩
  rw [offer] at h
  split at h
  · rw [← Except.ok.inj h]
    exact hsame _
  · next hother =>
    split at h
    · rw [← Except.ok.inj h]
      exact hsame _
    · split at h
      · next heq =>
        rw [← Except.ok.inj h]
        refine ⟨rfl, rfl, fun m hm => ?_, fun k m hm => Or.inl hm⟩
        exact ⟨(Option.some.inj hm).symm, heq, hother⟩
      · split at h
        · rw [← Except.ok.inj h]
          exact hsame _
        · rcases hheld : a.hold message with fault | ⟨held, metrics⟩
          · rw [hheld] at h
            exact absurd h (by simp [bind, Except.bind])
          · rw [hheld] at h
            rw [← Except.ok.inj h]
            have hgrown := grown_of_hold hheld
            refine ⟨hgrown.me, hgrown.height, fun m hm => absurd hm (by simp), fun k m hm => ?_⟩
            exact (hgrown.holds k m hm).imp_right fun ⟨hk, hm⟩ => ⟨hk, hm, hother⟩

/-! ## Releasing -/

/-- **What a change of height sets free** was cached for this height; the rest of the cache
is what it was, or less. -/
structure Freed (a : Admission) (height : Height) (release : Release) : Prop where
  me : release.admission.me = a.me
  height_eq : release.admission.height = height
  released : ∀ m ∈ release.released, a.Holds height m
  holds : ∀ k m, release.admission.Holds k m → a.Holds k m

theorem release_eq_of_setHeight {release : Release} (h : a.setHeight height = .ok release) :
    release.admission = a.moved height ∧
      release.released = ((Table.get? height a.byHeight).getD []).map (·.2) := by
  rw [setHeight] at h
  split at h
  · exact absurd h (by simp)
  · rcases hnext : nextHeight height with fault | next
    · rw [hnext] at h
      exact absurd h (by simp [bind, Except.bind])
    · rw [hnext] at h
      rw [← Except.ok.inj h]
      exact ⟨rfl, rfl⟩

theorem freed_of_setHeight {release : Release} (h : a.setHeight height = .ok release) :
    a.Freed height release := by
  obtain ⟨hadmission, hreleased⟩ := release_eq_of_setHeight h
  refine ⟨?_, ?_, fun m hm => ?_, fun k m => ?_⟩
  · rw [hadmission]
    rfl
  · rw [hadmission]
    rfl
  · rw [hreleased] at hm
    obtain ⟨⟨arrival, m'⟩, hentry, rfl⟩ := List.mem_map.1 hm
    rcases hget : Table.get? height a.byHeight with _ | entries
    · rw [hget] at hentry
      exact absurd hentry List.not_mem_nil
    · rw [hget] at hentry
      exact ⟨entries, arrival, Table.mem_of_get? hget, hentry⟩
  · rw [hadmission]
    rintro ⟨entries, arrival, hentries, hm⟩
    exact ⟨entries, arrival, (List.mem_filter.1 hentries).1, hm⟩

theorem length_flatMap_filter_add {β : Type} {p : Nat × List β → Bool} {l : List (Nat × List β)}
    {entry : Nat × List β} (hmem : entry ∈ l) (hp : p entry = false) :
    ((l.filter p).flatMap (·.2)).length + entry.2.length ≤ (l.flatMap (·.2)).length := by
  have hle : ∀ l : List (Nat × List β),
      ((l.filter p).flatMap (·.2)).length ≤ (l.flatMap (·.2)).length := fun l =>
    (List.filter_sublist.flatMap _).length_le
  induction l with
  | nil => exact absurd hmem List.not_mem_nil
  | cons first rest ih =>
    rcases List.mem_cons.1 hmem with rfl | hmem
    · rw [List.filter_cons_of_neg (by simp [hp]), List.flatMap_cons, List.length_append]
      have hrest := hle rest
      omega
    · have hrest := ih hmem
      rw [List.flatMap_cons, List.length_append]
      by_cases hfirst : p first = true
      · rw [List.filter_cons_of_pos hfirst, List.flatMap_cons, List.length_append]
        omega
      · rw [List.filter_cons_of_neg hfirst]
        omega

/-- What is released is not cached any more. -/
theorem cachedCount_of_setHeight {release : Release} (h : a.setHeight height = .ok release) :
    release.admission.cachedCount + release.released.length ≤ a.cachedCount := by
  obtain ⟨hadmission, hreleased⟩ := release_eq_of_setHeight h
  rw [hadmission, hreleased, List.length_map]
  rcases hget : Table.get? height a.byHeight with _ | entries
  · exact (List.filter_sublist.flatMap _).length_le
  · exact length_flatMap_filter_add (Table.mem_of_get? hget) (by simp)

end Admission

end CommitteeConsensus
