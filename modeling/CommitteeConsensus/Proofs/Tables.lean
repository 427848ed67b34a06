import CommitteeConsensus.Proofs.Caching
import Mathlib.Data.List.Nodup
import Mathlib.Data.List.Perm.Basic

/-!
# Tables by ascending key

The filter looks its entries up by height and by sender, in tables that are kept by ascending
key.  A table of this kind is determined by what is found in it (`Table.ext`).  So it is enough to
say of each operation what is found in its outcome: `Table.alter` changes what is found under one
key and nothing else, and a table that is cut, by `List.filter` or by `List.filterMap`, is
searched by cutting what is found.
-/

namespace CommitteeConsensus

/-! ## Ascending keys -/

namespace Table

variable {β γ : Type} {key k : Nat} {b : β} {f : Option β → Option β} {l l' : List (Nat × β)}

/-- The keys ascend, and each is there once. -/
def Ascending (l : List (Nat × β)) : Prop := l.Pairwise fun a b => a.1 < b.1

theorem get?_of_lt (h : ∀ e ∈ l, key < e.1) : get? key l = none := by
  induction l with
  | nil => rfl
  | cons e rest ih =>
    obtain ⟨k, b⟩ := e
    have hne : k ≠ key := Nat.ne_of_gt (h (k, b) List.mem_cons_self)
    rw [get?, if_neg hne]
    exact ih fun e he => h e (List.mem_cons_of_mem _ he)

theorem get?_of_mem (h : Ascending l) (hb : (key, b) ∈ l) : get? key l = some b := by
  induction l with
  | nil => exact absurd hb List.not_mem_nil
  | cons e rest ih =>
    obtain ⟨k, c⟩ := e
    obtain ⟨hlt, hrest⟩ := List.pairwise_cons.1 h
    rw [get?]
    rcases List.mem_cons.1 hb with heq | hb
    · obtain ⟨rfl, rfl⟩ := Prod.mk.inj heq
      exact if_pos rfl
    · have hne : k ≠ key := Nat.ne_of_lt (hlt _ hb)
      rw [if_neg hne]
      exact ih hrest hb

theorem get?_eq_some_iff (h : Ascending l) : get? key l = some b ↔ (key, b) ∈ l :=
  ⟨mem_of_get?, get?_of_mem h⟩

theorem Ascending.of_cons {e : Nat × β} (h : Ascending (e :: l)) : Ascending l :=
  (List.pairwise_cons.1 h).2

theorem Ascending.filter (h : Ascending l) (p : Nat × β → Bool) : Ascending (l.filter p) :=
  List.Pairwise.filter p h

/-- A table is determined by what is found in it. -/
theorem ext (h : Ascending l) (h' : Ascending l') (same : ∀ k, get? k l = get? k l') : l = l' := by
  have hperm : l.Perm l' := by
    refine (List.perm_ext_iff_of_nodup (h.imp ?_) (h'.imp ?_)).2 ?_
    · intro a b hlt heq
      exact Nat.ne_of_lt hlt (congrArg Prod.fst heq)
    · intro a b hlt heq
      exact Nat.ne_of_lt hlt (congrArg Prod.fst heq)
    · intro e
      rw [← get?_eq_some_iff h, ← get?_eq_some_iff h', same]
  exact hperm.eq_of_pairwise (fun a b _ _ hab hba => by omega) h h'

/-! ## Changing an entry -/

theorem key_le_of_alter {bound : Nat} (hkey : bound < key) (h : ∀ e ∈ l, bound < e.1) :
    ∀ e ∈ alter key f l, bound < e.1 := by
  intro e he
  rcases mem_alter (k := e.1) (b := e.2) he with he | ⟨heq, -⟩
  · exact h e he
  · rwa [heq]

theorem Ascending.alter (h : Ascending l) : Ascending (alter key f l) := by
  induction l with
  | nil =>
    rw [Table.alter]
    split
    · exact List.Pairwise.nil
    · exact List.pairwise_singleton _ _
  | cons e rest ih =>
    obtain ⟨k, b⟩ := e
    obtain ⟨hlt, hrest⟩ := List.pairwise_cons.1 h
    rw [Table.alter]
    by_cases hk : k < key
    · rw [if_pos hk]
      exact List.pairwise_cons.2 ⟨key_le_of_alter hk hlt, ih hrest⟩
    · rw [if_neg hk]
      by_cases heq : k = key
      · subst heq
        rw [if_pos rfl]
        split
        · exact hrest
        · exact List.pairwise_cons.2 ⟨hlt, hrest⟩
      · rw [if_neg heq]
        split
        · exact h
        · refine List.pairwise_cons.2 ⟨fun e he => ?_, h⟩
          rcases List.mem_cons.1 he with rfl | he
          · show key < k
            omega
          · have hbelow : k < e.1 := hlt e he
            show key < e.1
            omega

theorem get?_alter_self (h : Ascending l) : get? key (alter key f l) = f (get? key l) := by
  induction l with
  | nil =>
    rw [alter, get?]
    split
    · next hnone => rw [hnone, get?]
    · next b hsome => rw [hsome, get?, if_pos rfl]
  | cons e rest ih =>
    obtain ⟨k, b⟩ := e
    obtain ⟨hlt, hrest⟩ := List.pairwise_cons.1 h
    rw [alter, get?]
    by_cases hk : k < key
    · rw [if_pos hk, get?, if_neg (by omega), if_neg (by omega)]
      exact ih hrest
    · rw [if_neg hk]
      by_cases heq : k = key
      · subst heq
        rw [if_pos rfl, if_pos rfl]
        split
        · next hnone =>
          rw [hnone]
          exact get?_of_lt hlt
        · next c hsome => rw [hsome, get?, if_pos rfl]
      · have habsent : get? key rest = none :=
          get?_of_lt fun e he => Nat.lt_trans (by omega) (hlt e he)
        rw [if_neg heq, if_neg heq, habsent]
        split
        · next hnone => rw [hnone, get?, if_neg heq, habsent]
        · next c hsome => rw [hsome, get?, if_pos rfl]

theorem get?_alter_of_ne (hne : k ≠ key) : get? k (alter key f l) = get? k l := by
  induction l with
  | nil =>
    rw [alter]
    split
    · rfl
    · exact if_neg (Ne.symm hne)
  | cons e rest ih =>
    obtain ⟨k', b⟩ := e
    rw [alter]
    by_cases hk : k' < key
    · rw [if_pos hk, get?, get?, ih]
    · rw [if_neg hk]
      by_cases heq : k' = key
      · subst heq
        rw [if_pos rfl]
        split
        · rw [get?, if_neg (Ne.symm hne)]
        · rw [get?, get?, if_neg (Ne.symm hne), if_neg (Ne.symm hne)]
      · rw [if_neg heq]
        split
        · rfl
        · rw [get?, if_neg (Ne.symm hne)]

/-! ## Cutting a table -/

theorem get?_filter {p : Nat → Bool} :
    get? k (l.filter (p ·.1)) = if p k then get? k l else none := by
  induction l with
  | nil => exact (ite_self none).symm
  | cons e rest ih =>
    obtain ⟨k', b⟩ := e
    rw [List.filter_cons]
    by_cases hp : p k' = true
    · rw [if_pos hp, get?, get?, ih]
      by_cases heq : k' = k
      · subst heq
        rw [if_pos rfl, if_pos rfl, if_pos hp]
      · rw [if_neg heq, if_neg heq]
    · rw [if_neg hp, ih, get?]
      by_cases heq : k' = k
      · subst heq
        rw [if_neg hp, if_neg hp]
      · rw [if_neg heq]

section FilterMap

variable {g : β → Option γ} {p : Nat × β → Option (Nat × γ)}
  (hp : ∀ k b, p (k, b) = (g b).map fun c => (k, c))

include hp

theorem key_of_filterMap {e : Nat × γ} (he : e ∈ l.filterMap p) : ∃ b, (e.1, b) ∈ l := by
  obtain ⟨⟨k, b⟩, hmem, heq⟩ := List.mem_filterMap.1 he
  rw [hp, Option.map_eq_some_iff] at heq
  obtain ⟨c, -, rfl⟩ := heq
  exact ⟨b, hmem⟩

theorem Ascending.filterMap (h : Ascending l) : Ascending (l.filterMap p) := by
  refine List.Pairwise.filterMap p (fun a a' hlt b hb b' hb' => ?_) h
  obtain ⟨k, c⟩ := a
  obtain ⟨k', c'⟩ := a'
  rw [hp, Option.map_eq_some_iff] at hb hb'
  obtain ⟨_, -, rfl⟩ := hb
  obtain ⟨_, -, rfl⟩ := hb'
  exact hlt

theorem get?_filterMap (h : Ascending l) : get? k (l.filterMap p) = (get? k l).bind g := by
  induction l with
  | nil => rfl
  | cons e rest ih =>
    obtain ⟨k', b⟩ := e
    obtain ⟨hlt, hrest⟩ := List.pairwise_cons.1 h
    rw [List.filterMap_cons, hp, get?]
    by_cases heq : k' = k
    · subst heq
      rw [if_pos rfl]
      rcases hg : g b with _ | c
      · rw [Option.map_none, Option.bind_some, hg]
        refine get?_of_lt fun e he => ?_
        obtain ⟨b', hb'⟩ := key_of_filterMap hp he
        exact hlt _ hb'
      · rw [Option.map_some, Option.bind_some, hg]
        exact if_pos rfl
    · rw [if_neg heq, ← ih hrest]
      rcases g b with _ | c
      · rw [Option.map_none]
      · rw [Option.map_some]
        exact if_neg heq

end FilterMap

end Table

end CommitteeConsensus
