import CommitteeConsensus.MessageLog
import Mathlib.Data.List.Nodup
import Mathlib.Data.List.Perm.Basic

/-!
# Laws of the message log

Filing puts a message in its place among those of its kind, unless its key is taken.
So the messages held after it are a rearrangement of the new one and the old ones,
the old ones keep their order, and no two messages of a kind ever share a key.  That
is stated once for lists (`placeBefore`, `fileFirst?`) and read off for the four
kinds.

* `MessageLog.Files` says of a message of any kind that it is held.
* `MessageLog.Grows` says that nothing held was lost, and answers to questions grow
  along with it.
* `MessageLog.WellFormed` says that keys are not shared, and that proposals stand
  with the highest view first.  It makes the first proposal found the only one
  (`prePrepare?_eq_some_iff`), and the senders of the votes for one block distinct.
* `prepared?_eq_some` says what a member that asks for a view brings along: the
  proposal of the highest view that has the votes.
-/

namespace CommitteeConsensus

/-! ## Filing in lists -/

section Lists

variable {α κ : Type} {before sameKey : α → α → Bool}

theorem perm_placeBefore (a : α) (l : List α) : (placeBefore before a l).Perm (a :: l) := by
  induction l with
  | nil => exact List.Perm.refl _
  | cons b rest ih =>
    rw [placeBefore]
    split
    · exact List.Perm.refl _
    · exact (ih.cons b).trans (List.Perm.swap a b rest)

theorem sublist_placeBefore (a : α) (l : List α) : l.Sublist (placeBefore before a l) := by
  induction l with
  | nil => exact List.nil_sublist _
  | cons b rest ih =>
    rw [placeBefore]
    split
    · exact List.sublist_cons_self a (b :: rest)
    · exact ih.cons_cons b

/-- An order that `before` agrees with is kept. -/
theorem pairwise_placeBefore {R : α → α → Prop} {a : α} {l : List α} (hl : l.Pairwise R)
    (hbefore : ∀ b, before a b = true → R a b ∧ ∀ c, R b c → R a c)
    (hafter : ∀ b, before a b = false → R b a) : (placeBefore before a l).Pairwise R := by
  induction l with
  | nil => exact List.pairwise_singleton R a
  | cons b rest ih =>
    obtain ⟨hb, hrest⟩ := List.pairwise_cons.1 hl
    rw [placeBefore]
    split
    · next h =>
      refine List.pairwise_cons.2 ⟨fun c hc => ?_, hl⟩
      rcases List.mem_cons.1 hc with rfl | hc
      · exact (hbefore c h).1
      · exact (hbefore b h).2 c (hb c hc)
    · next h =>
      refine List.pairwise_cons.2 ⟨fun c hc => ?_, ih hrest⟩
      rcases List.mem_cons.1 ((perm_placeBefore a rest).mem_iff.1 hc) with rfl | hc
      · exact hafter b (by simpa using h)
      · exact hb c hc

theorem fileFirst?_eq_some {a : α} {held l : List α} :
    fileFirst? sameKey before a held = some l ↔
      (∀ b ∈ held, sameKey a b = false) ∧ placeBefore before a held = l := by
  rw [fileFirst?]
  split
  · next h =>
    obtain ⟨b, hb, hab⟩ := List.any_eq_true.1 h
    refine ⟨fun h => absurd h (by simp), fun h => ?_⟩
    rw [h.1 b hb] at hab
    exact absurd hab (by simp)
  · next h =>
    rw [Option.some.injEq]
    refine ⟨fun hl => ⟨fun b hb => ?_, hl⟩, fun h => h.2⟩
    rcases hab : sameKey a b with _ | _
    · rfl
    · exact absurd (List.any_eq_true.2 ⟨b, hb, hab⟩) h

theorem fileFirst?_eq_none {a : α} {held : List α} :
    fileFirst? sameKey before a held = none ↔ ∃ b ∈ held, sameKey a b = true := by
  rw [fileFirst?]
  split
  · next h => exact ⟨fun _ => List.any_eq_true.1 h, fun _ => rfl⟩
  · next h => exact ⟨fun hn => absurd hn (by simp), fun he => absurd (List.any_eq_true.2 he) h⟩

/-- Keys stay distinct, where `sameKey` is equality of keys. -/
theorem nodup_map_of_fileFirst? {key : α → κ}
    (hkey : ∀ a b, sameKey a b = true ↔ key a = key b) {a : α} {held l : List α}
    (hheld : (held.map key).Nodup) (h : fileFirst? sameKey before a held = some l) :
    (l.map key).Nodup := by
  obtain ⟨hfree, rfl⟩ := fileFirst?_eq_some.1 h
  rw [((perm_placeBefore a held).map key).nodup_iff, List.map_cons, List.nodup_cons]
  refine ⟨fun hmem => ?_, hheld⟩
  obtain ⟨b, hb, hba⟩ := List.mem_map.1 hmem
  have hsame := (hkey a b).2 hba.symm
  rw [hfree b hb] at hsame
  exact absurd hsame (by simp)

/-- The list after filing, whether or not the message was new. -/
def filed (sameKey before : α → α → Bool) (a : α) (held : List α) : List α :=
  (fileFirst? sameKey before a held).getD held

theorem sublist_filed (a : α) (held : List α) : held.Sublist (filed sameKey before a held) := by
  rw [filed]
  rcases h : fileFirst? sameKey before a held with _ | l
  · exact List.Sublist.refl _
  · obtain ⟨-, rfl⟩ := fileFirst?_eq_some.1 h
    exact sublist_placeBefore a held

theorem mem_filed {a b : α} {held : List α} (h : b ∈ filed sameKey before a held) :
    b = a ∨ b ∈ held := by
  rw [filed] at h
  rcases hf : fileFirst? sameKey before a held with _ | l
  · rw [hf] at h
    exact Or.inr h
  · rw [hf] at h
    obtain ⟨-, rfl⟩ := fileFirst?_eq_some.1 hf
    exact List.mem_cons.1 ((perm_placeBefore a held).mem_iff.1 h)

theorem filter_placeBefore_of_neg {p : α → Bool} {a : α} (ha : p a = false) (l : List α) :
    (placeBefore before a l).filter p = l.filter p := by
  induction l with
  | nil => rw [placeBefore, List.filter_cons_of_neg (by simp [ha])]
  | cons b rest ih =>
    rw [placeBefore]
    split
    · rw [List.filter_cons_of_neg (by simp [ha])]
    · rw [List.filter_cons, ih, List.filter_cons]

/-- A question that the message does not answer has the same answer after filing it. -/
theorem filter_filed_of_neg {p : α → Bool} {a : α} (ha : p a = false) {held : List α} :
    (filed sameKey before a held).filter p = held.filter p := by
  rw [filed]
  rcases h : fileFirst? sameKey before a held with _ | l
  · rfl
  · obtain ⟨-, rfl⟩ := fileFirst?_eq_some.1 h
    exact filter_placeBefore_of_neg ha held

/-- After filing, the key is taken. -/
theorem exists_mem_filed (before : α → α → Bool) (hrefl : ∀ a, sameKey a a = true) (a : α)
    (held : List α) :
    ∃ b ∈ filed sameKey before a held, sameKey a b = true := by
  rw [filed]
  rcases h : fileFirst? sameKey before a held with _ | l
  · exact fileFirst?_eq_none.1 h
  · obtain ⟨-, rfl⟩ := fileFirst?_eq_some.1 h
    exact ⟨a, (perm_placeBefore a held).mem_iff.2 List.mem_cons_self, hrefl a⟩

theorem nodup_map_filed {key : α → κ} (hkey : ∀ a b, sameKey a b = true ↔ key a = key b)
    {a : α} {held : List α} (hheld : (held.map key).Nodup) :
    ((filed sameKey before a held).map key).Nodup := by
  rw [filed]
  rcases h : fileFirst? sameKey before a held with _ | l
  · exact hheld
  · exact nodup_map_of_fileFirst? hkey hheld h

/-- Distinct keys in which only the sender varies come from distinct senders. -/
theorem nodup_map_of_key {σ : Type} (key : α → κ) {sender : α → σ} {l : List α}
    (h : (l.map key).Nodup) (hkey : ∀ a ∈ l, ∀ b ∈ l, sender a = sender b → key a = key b) :
    (l.map sender).Nodup :=
  (List.nodup_map_iff_inj_on (List.Nodup.of_map key h)).2 fun a ha b hb hab =>
    List.inj_on_of_nodup_map h ha hb (hkey a ha b hb hab)

end Lists

namespace MessageLog

/-- The message is one of those that are filed. -/
def Files (log : MessageLog) : Message → Prop
  | .prePrepare m => m ∈ log.prePrepares
  | .prepare s => s ∈ log.prepares
  | .commit s => s ∈ log.commits
  | .viewChange m => m ∈ log.viewChanges
  | .newView _ => False

/-! ## Keys -/

/-- What tells proposals apart. -/
def prePrepareKey (m : PrePrepare) : Height × View := (m.height, m.view)

/-- What tells votes apart. -/
def prepareKey (s : Signed PrepareContent) : Height × View × BlockHash × MemberId :=
  (s.content.height, s.content.view, s.content.blockHash, s.sender)

/-- What tells commits apart. -/
def commitKey (s : Signed CommitContent) : Height × View × BlockHash × MemberId :=
  (s.content.height, s.content.view, s.content.blockHash, s.sender)

/-- What tells requests for a view apart. -/
def viewChangeKey (m : ViewChange) : Height × View × MemberId := (m.height, m.view, m.sender)

/-- No two messages of one kind share a key, and proposals stand in descending order
of their views. -/
structure WellFormed (log : MessageLog) : Prop where
  prePrepares : (log.prePrepares.map prePrepareKey).Nodup
  descending : log.prePrepares.Pairwise fun a b => b.view ≤ a.view
  prepares : (log.prepares.map prepareKey).Nodup
  commits : (log.commits.map commitKey).Nodup
  viewChanges : (log.viewChanges.map viewChangeKey).Nodup

theorem wellFormed_empty : WellFormed empty where
  prePrepares := List.nodup_nil
  descending := List.Pairwise.nil
  prepares := List.nodup_nil
  commits := List.nodup_nil
  viewChanges := List.nodup_nil

/-- Nothing that was held is lost. -/
structure Grows (log log' : MessageLog) : Prop where
  prePrepares : log.prePrepares.Sublist log'.prePrepares
  prepares : log.prepares.Sublist log'.prepares
  commits : log.commits.Sublist log'.commits
  viewChanges : log.viewChanges.Sublist log'.viewChanges

theorem Grows.refl (log : MessageLog) : Grows log log :=
  ⟨List.Sublist.refl _, List.Sublist.refl _, List.Sublist.refl _, List.Sublist.refl _⟩

theorem Grows.trans {a b c : MessageLog} (hab : Grows a b) (hbc : Grows b c) : Grows a c :=
  ⟨hab.prePrepares.trans hbc.prePrepares, hab.prepares.trans hbc.prepares,
    hab.commits.trans hbc.commits, hab.viewChanges.trans hbc.viewChanges⟩

/-! ## Filing a proposal -/

variable {log log' : MessageLog}

theorem storePrePrepare?_eq_some {m : PrePrepare} :
    log.storePrePrepare? m = some log' ↔
      (∀ b ∈ log.prePrepares, ¬(m.height = b.height ∧ m.view = b.view)) ∧
        { log with prePrepares :=
            placeBefore (fun a b => b.view < a.view) m log.prePrepares } = log' := by
  simp only [storePrePrepare?, Option.map_eq_some_iff, fileFirst?_eq_some, Bool.and_eq_false_iff,
    beq_eq_false_iff_ne, not_and_or]
  constructor
  · rintro ⟨l, ⟨hfree, rfl⟩, rfl⟩
    exact ⟨hfree, rfl⟩
  · rintro ⟨hfree, rfl⟩
    exact ⟨_, ⟨hfree, rfl⟩, rfl⟩

theorem mem_storePrePrepare? {m b : PrePrepare} (h : log.storePrePrepare? m = some log') :
    b ∈ log'.prePrepares ↔ b = m ∨ b ∈ log.prePrepares := by
  obtain ⟨-, rfl⟩ := storePrePrepare?_eq_some.1 h
  rw [← List.mem_cons]
  exact (perm_placeBefore m log.prePrepares).mem_iff

theorem grows_storePrePrepare? {m : PrePrepare} (h : log.storePrePrepare? m = some log') :
    Grows log log' := by
  obtain ⟨-, rfl⟩ := storePrePrepare?_eq_some.1 h
  exact ⟨sublist_placeBefore m _, List.Sublist.refl _, List.Sublist.refl _, List.Sublist.refl _⟩

theorem WellFormed.storePrePrepare? {m : PrePrepare} (hlog : WellFormed log)
    (h : log.storePrePrepare? m = some log') : WellFormed log' := by
  obtain ⟨hfree, rfl⟩ := storePrePrepare?_eq_some.1 h
  refine ⟨?_, ?_, hlog.prepares, hlog.commits, hlog.viewChanges⟩
  · rw [((perm_placeBefore m log.prePrepares).map prePrepareKey).nodup_iff, List.map_cons,
      List.nodup_cons]
    refine ⟨fun hmem => ?_, hlog.prePrepares⟩
    obtain ⟨b, hb, hkey⟩ := List.mem_map.1 hmem
    rw [prePrepareKey, prePrepareKey, Prod.mk.injEq] at hkey
    exact hfree b hb ⟨hkey.1.symm, hkey.2.symm⟩
  · refine pairwise_placeBefore hlog.descending (fun b hb => ?_) fun b hb => ?_
    · have hlt : b.view < m.view := of_decide_eq_true hb
      exact ⟨Nat.le_of_lt hlt, fun c hc => Nat.le_trans hc (Nat.le_of_lt hlt)⟩
    · exact Nat.le_of_not_lt (of_decide_eq_false hb)

/-! ## Filing votes, commits and requests -/

/-- Whether two votes have one key, as filing decides it. -/
def samePrepare (a b : Signed PrepareContent) : Bool :=
  a.content.height == b.content.height && a.content.view == b.content.view &&
    a.content.blockHash == b.content.blockHash && a.sender == b.sender

/-- Whether two commits have one key, as filing decides it. -/
def sameCommit (a b : Signed CommitContent) : Bool :=
  a.content.height == b.content.height && a.content.view == b.content.view &&
    a.content.blockHash == b.content.blockHash && a.sender == b.sender

/-- Whether two requests for a view have one key, as filing decides it. -/
def sameViewChange (a b : ViewChange) : Bool :=
  a.height == b.height && a.view == b.view && a.sender == b.sender

theorem samePrepare_iff (a b : Signed PrepareContent) :
    samePrepare a b = true ↔ prepareKey a = prepareKey b := by
  simp only [samePrepare, prepareKey, Bool.and_eq_true, beq_iff_eq, Prod.mk.injEq, and_assoc]

theorem sameCommit_iff (a b : Signed CommitContent) :
    sameCommit a b = true ↔ commitKey a = commitKey b := by
  simp only [sameCommit, commitKey, Bool.and_eq_true, beq_iff_eq, Prod.mk.injEq, and_assoc]

theorem sameViewChange_iff (a b : ViewChange) :
    sameViewChange a b = true ↔ viewChangeKey a = viewChangeKey b := by
  simp only [sameViewChange, viewChangeKey, Bool.and_eq_true, beq_iff_eq, Prod.mk.injEq,
    and_assoc]

/-- Filing a vote touches the votes only. -/
theorem withPrepare_eq (log : MessageLog) (s : Signed PrepareContent) :
    log.withPrepare s = { log with prepares :=
      (filed samePrepare (fun a b => a.sender < b.sender) s log.prepares) } := by
  show ((fileFirst? samePrepare _ s log.prepares).map _).getD log = _
  rw [filed]
  rcases fileFirst? samePrepare (fun a b => a.sender < b.sender) s log.prepares with _ | l <;> rfl

/-- Filing a commit touches the commits only. -/
theorem withCommit_eq (log : MessageLog) (s : Signed CommitContent) :
    log.withCommit s = { log with commits :=
      (filed sameCommit (fun a b => a.sender < b.sender) s log.commits) } := by
  show ((fileFirst? sameCommit _ s log.commits).map _).getD log = _
  rw [filed]
  rcases fileFirst? sameCommit (fun a b => a.sender < b.sender) s log.commits with _ | l <;> rfl

/-- Filing a request for a view touches the requests only. -/
theorem withViewChange_eq (log : MessageLog) (m : ViewChange) :
    log.withViewChange m = { log with viewChanges :=
      (filed sameViewChange (fun a b => a.sender < b.sender) m log.viewChanges) } := by
  show ((fileFirst? sameViewChange _ m log.viewChanges).map _).getD log = _
  rw [filed]
  rcases fileFirst? sameViewChange (fun a b => a.sender < b.sender) m log.viewChanges with _ | l
    <;> rfl

theorem storeViewChange?_eq_some {m : ViewChange} (h : log.storeViewChange? m = some log') :
    log' = log.withViewChange m := by
  rw [withViewChange, h, Option.getD_some]

/-- A request for a view is not filed where one with its key is held. -/
theorem storeViewChange?_eq_none {m : ViewChange} (h : log.storeViewChange? m = none) :
    ∃ b ∈ log.viewChanges, viewChangeKey m = viewChangeKey b := by
  obtain ⟨b, hb, hkey⟩ := fileFirst?_eq_none.1 (Option.map_eq_none_iff.1 h)
  exact ⟨b, hb, (sameViewChange_iff m b).1 hkey⟩

/-- A request for a view is filed under a key that was free. -/
theorem viewChangeKey_free {m : ViewChange} (h : log.storeViewChange? m = some log') :
    viewChangeKey m ∉ log.viewChanges.map viewChangeKey := by
  obtain ⟨held, hheld, -⟩ := Option.map_eq_some_iff.1 h
  obtain ⟨hother, -⟩ := fileFirst?_eq_some.1 hheld
  intro hmem
  obtain ⟨b, hb, hkey⟩ := List.mem_map.1 hmem
  exact absurd ((sameViewChange_iff m b).2 hkey.symm) (Bool.not_eq_true _ ▸ hother b hb)

section Votes

variable (log : MessageLog) (s : Signed PrepareContent)

@[simp] theorem prePrepares_withPrepare : (log.withPrepare s).prePrepares = log.prePrepares := by
  rw [withPrepare_eq]

@[simp] theorem commits_withPrepare : (log.withPrepare s).commits = log.commits := by
  rw [withPrepare_eq]

@[simp] theorem viewChanges_withPrepare : (log.withPrepare s).viewChanges = log.viewChanges := by
  rw [withPrepare_eq]

variable {log s}

theorem mem_withPrepare {b : Signed PrepareContent} (h : b ∈ (log.withPrepare s).prepares) :
    b = s ∨ b ∈ log.prepares := by
  rw [withPrepare_eq] at h
  exact mem_filed h

theorem exists_mem_withPrepare (log : MessageLog) (s : Signed PrepareContent) :
    ∃ b ∈ (log.withPrepare s).prepares, prepareKey s = prepareKey b := by
  rw [withPrepare_eq]
  obtain ⟨b, hb, hkey⟩ := exists_mem_filed _ (fun a => (samePrepare_iff a a).2 rfl) s log.prepares
  exact ⟨b, hb, (samePrepare_iff s b).1 hkey⟩

theorem grows_withPrepare (log : MessageLog) (s : Signed PrepareContent) :
    Grows log (log.withPrepare s) := by
  rw [withPrepare_eq]
  exact ⟨List.Sublist.refl _, sublist_filed s _, List.Sublist.refl _, List.Sublist.refl _⟩

theorem WellFormed.withPrepare (hlog : WellFormed log) (s : Signed PrepareContent) :
    WellFormed (log.withPrepare s) := by
  rw [withPrepare_eq]
  exact ⟨hlog.prePrepares, hlog.descending, nodup_map_filed samePrepare_iff hlog.prepares,
    hlog.commits, hlog.viewChanges⟩

end Votes

section Commits

variable (log : MessageLog) (s : Signed CommitContent)

@[simp] theorem prePrepares_withCommit : (log.withCommit s).prePrepares = log.prePrepares := by
  rw [withCommit_eq]

@[simp] theorem prepares_withCommit : (log.withCommit s).prepares = log.prepares := by
  rw [withCommit_eq]

@[simp] theorem viewChanges_withCommit : (log.withCommit s).viewChanges = log.viewChanges := by
  rw [withCommit_eq]

variable {log s}

theorem mem_withCommit {b : Signed CommitContent} (h : b ∈ (log.withCommit s).commits) :
    b = s ∨ b ∈ log.commits := by
  rw [withCommit_eq] at h
  exact mem_filed h

theorem exists_mem_withCommit (log : MessageLog) (s : Signed CommitContent) :
    ∃ b ∈ (log.withCommit s).commits, commitKey s = commitKey b := by
  rw [withCommit_eq]
  obtain ⟨b, hb, hkey⟩ := exists_mem_filed _ (fun a => (sameCommit_iff a a).2 rfl) s log.commits
  exact ⟨b, hb, (sameCommit_iff s b).1 hkey⟩

theorem grows_withCommit (log : MessageLog) (s : Signed CommitContent) :
    Grows log (log.withCommit s) := by
  rw [withCommit_eq]
  exact ⟨List.Sublist.refl _, List.Sublist.refl _, sublist_filed s _, List.Sublist.refl _⟩

theorem WellFormed.withCommit (hlog : WellFormed log) (s : Signed CommitContent) :
    WellFormed (log.withCommit s) := by
  rw [withCommit_eq]
  exact ⟨hlog.prePrepares, hlog.descending, hlog.prepares,
    nodup_map_filed sameCommit_iff hlog.commits, hlog.viewChanges⟩

end Commits

section Requests

variable (log : MessageLog) (m : ViewChange)

@[simp] theorem prePrepares_withViewChange :
    (log.withViewChange m).prePrepares = log.prePrepares := by
  rw [withViewChange_eq]

@[simp] theorem prepares_withViewChange : (log.withViewChange m).prepares = log.prepares := by
  rw [withViewChange_eq]

@[simp] theorem commits_withViewChange : (log.withViewChange m).commits = log.commits := by
  rw [withViewChange_eq]

variable {log m}

theorem mem_withViewChange {b : ViewChange} (h : b ∈ (log.withViewChange m).viewChanges) :
    b = m ∨ b ∈ log.viewChanges := by
  rw [withViewChange_eq] at h
  exact mem_filed h

theorem exists_mem_withViewChange (log : MessageLog) (m : ViewChange) :
    ∃ b ∈ (log.withViewChange m).viewChanges, viewChangeKey m = viewChangeKey b := by
  rw [withViewChange_eq]
  obtain ⟨b, hb, hkey⟩ :=
    exists_mem_filed _ (fun a => (sameViewChange_iff a a).2 rfl) m log.viewChanges
  exact ⟨b, hb, (sameViewChange_iff m b).1 hkey⟩

theorem grows_withViewChange (log : MessageLog) (m : ViewChange) :
    Grows log (log.withViewChange m) := by
  rw [withViewChange_eq]
  exact ⟨List.Sublist.refl _, List.Sublist.refl _, List.Sublist.refl _, sublist_filed m _⟩

theorem WellFormed.withViewChange (hlog : WellFormed log) (m : ViewChange) :
    WellFormed (log.withViewChange m) := by
  rw [withViewChange_eq]
  exact ⟨hlog.prePrepares, hlog.descending, hlog.prepares, hlog.commits,
    nodup_map_filed sameViewChange_iff hlog.viewChanges⟩

end Requests

/-! ## Questions -/

section Questions

variable {h : Height} {v : View} {x : BlockHash}

theorem of_prePrepare?_eq_some {m : PrePrepare} (hm : log.prePrepare? h v = some m) :
    m ∈ log.prePrepares ∧ m.height = h ∧ m.view = v := by
  have hkey := List.find?_some hm
  simp only [Bool.and_eq_true, beq_iff_eq] at hkey
  exact ⟨List.mem_of_find?_eq_some hm, hkey.1, hkey.2⟩

theorem prePrepare?_eq_none_iff :
    log.prePrepare? h v = none ↔ ∀ m ∈ log.prePrepares, ¬(m.height = h ∧ m.view = v) := by
  simp only [prePrepare?, List.find?_eq_none, Bool.and_eq_true, beq_iff_eq]

/-- The proposal of a view is the only one that is held for it. -/
theorem prePrepare?_eq_some_iff (hlog : WellFormed log) {m : PrePrepare} :
    log.prePrepare? h v = some m ↔ m ∈ log.prePrepares ∧ m.height = h ∧ m.view = v := by
  refine ⟨of_prePrepare?_eq_some, fun ⟨hmem, hh, hv⟩ => ?_⟩
  rcases hfound : log.prePrepare? h v with _ | b
  · exact absurd ⟨hh, hv⟩ (prePrepare?_eq_none_iff.1 hfound m hmem)
  · obtain ⟨hb, hbh, hbv⟩ := of_prePrepare?_eq_some hfound
    have hkey : prePrepareKey b = prePrepareKey m := by
      rw [prePrepareKey, prePrepareKey, hbh, hbv, hh, hv]
    rw [List.inj_on_of_nodup_map hlog.prePrepares hb hmem hkey]

theorem storePrePrepare?_eq_none_iff {m : PrePrepare} :
    log.storePrePrepare? m = none ↔ log.prePrepare? m.height m.view ≠ none := by
  rw [← not_iff_not, not_not, prePrepare?_eq_none_iff]
  constructor
  · intro hne b hb hkey
    rcases hs : log.storePrePrepare? m with _ | log'
    · exact hne hs
    · exact (storePrePrepare?_eq_some.1 hs).1 b hb ⟨hkey.1.symm, hkey.2.symm⟩
  · intro hfree hnone
    have hs : log.storePrePrepare? m = some _ :=
      storePrePrepare?_eq_some.2 ⟨fun b hb hkey => hfree b hb ⟨hkey.1.symm, hkey.2.symm⟩, rfl⟩
    rw [hs] at hnone
    exact absurd hnone (by simp)

/-- A proposal that was filed is the one of its view. -/
theorem prePrepare?_of_store {m : PrePrepare} (hlog : WellFormed log)
    (hs : log.storePrePrepare? m = some log') : log'.prePrepare? m.height m.view = some m :=
  (prePrepare?_eq_some_iff (hlog.storePrePrepare? hs)).2
    ⟨(mem_storePrePrepare? hs).2 (Or.inl rfl), rfl, rfl⟩

theorem prePrepare?_congr (heq : log'.prePrepares = log.prePrepares) :
    log'.prePrepare? h v = log.prePrepare? h v := by
  rw [prePrepare?, heq, prePrepare?]

theorem mem_preparesFor {s : Signed PrepareContent} :
    s ∈ log.preparesFor h v x ↔ s ∈ log.prepares ∧
      (s.content.height = h ∧ s.content.view = v) ∧ s.content.blockHash = x := by
  simp only [preparesFor, List.mem_filter, Bool.and_eq_true, beq_iff_eq]

theorem mem_commitsFor {s : Signed CommitContent} :
    s ∈ log.commitsFor h v x ↔ s ∈ log.commits ∧
      (s.content.height = h ∧ s.content.view = v) ∧ s.content.blockHash = x := by
  simp only [commitsFor, List.mem_filter, Bool.and_eq_true, beq_iff_eq]

theorem mem_viewChangesFor {m : ViewChange} :
    m ∈ log.viewChangesFor h v ↔ m ∈ log.viewChanges ∧ m.height = h ∧ m.view = v := by
  simp only [viewChangesFor, List.mem_filter, Bool.and_eq_true, beq_iff_eq]

/-- A vote that is filed is found, or another one of its sender is. -/
theorem exists_preparesFor_withPrepare (log : MessageLog) (s : Signed PrepareContent) :
    ∃ b ∈ (log.withPrepare s).preparesFor s.content.height s.content.view s.content.blockHash,
      b.sender = s.sender := by
  obtain ⟨b, hb, hkey⟩ := exists_mem_withPrepare log s
  simp only [prepareKey, Prod.mk.injEq] at hkey
  obtain ⟨hheight, hview, hhash, hsender⟩ := hkey
  exact ⟨b, mem_preparesFor.2 ⟨hb, ⟨hheight.symm, hview.symm⟩, hhash.symm⟩, hsender.symm⟩

theorem exists_commitsFor_withCommit (log : MessageLog) (s : Signed CommitContent) :
    ∃ b ∈ (log.withCommit s).commitsFor s.content.height s.content.view s.content.blockHash,
      b.sender = s.sender := by
  obtain ⟨b, hb, hkey⟩ := exists_mem_withCommit log s
  simp only [commitKey, Prod.mk.injEq] at hkey
  obtain ⟨hheight, hview, hhash, hsender⟩ := hkey
  exact ⟨b, mem_commitsFor.2 ⟨hb, ⟨hheight.symm, hview.symm⟩, hhash.symm⟩, hsender.symm⟩

theorem exists_viewChangesFor_withViewChange (log : MessageLog) (m : ViewChange) :
    ∃ b ∈ (log.withViewChange m).viewChangesFor m.height m.view, b.sender = m.sender := by
  obtain ⟨b, hb, hkey⟩ := exists_mem_withViewChange log m
  simp only [viewChangeKey, Prod.mk.injEq] at hkey
  obtain ⟨hheight, hview, hsender⟩ := hkey
  exact ⟨b, mem_viewChangesFor.2 ⟨hb, hheight.symm, hview.symm⟩, hsender.symm⟩

theorem nodup_preparesFor (hlog : WellFormed log) :
    ((log.preparesFor h v x).map (·.sender)).Nodup := by
  refine nodup_map_of_key prepareKey
    (hlog.prepares.sublist (List.filter_sublist.map prepareKey)) fun a ha b hb hab => ?_
  obtain ⟨-, ⟨hah, hav⟩, hax⟩ := mem_preparesFor.1 ha
  obtain ⟨-, ⟨hbh, hbv⟩, hbx⟩ := mem_preparesFor.1 hb
  rw [prepareKey, prepareKey, hah, hav, hax, hbh, hbv, hbx, hab]

theorem nodup_commitsFor (hlog : WellFormed log) :
    ((log.commitsFor h v x).map (·.sender)).Nodup := by
  refine nodup_map_of_key commitKey
    (hlog.commits.sublist (List.filter_sublist.map commitKey)) fun a ha b hb hab => ?_
  obtain ⟨-, ⟨hah, hav⟩, hax⟩ := mem_commitsFor.1 ha
  obtain ⟨-, ⟨hbh, hbv⟩, hbx⟩ := mem_commitsFor.1 hb
  rw [commitKey, commitKey, hah, hav, hax, hbh, hbv, hbx, hab]

theorem nodup_viewChangesFor (hlog : WellFormed log) :
    ((log.viewChangesFor h v).map (·.sender)).Nodup := by
  refine nodup_map_of_key viewChangeKey
    (hlog.viewChanges.sublist (List.filter_sublist.map viewChangeKey)) fun a ha b hb hab => ?_
  obtain ⟨-, hah, hav⟩ := mem_viewChangesFor.1 ha
  obtain ⟨-, hbh, hbv⟩ := mem_viewChangesFor.1 hb
  rw [viewChangeKey, viewChangeKey, hah, hav, hbh, hbv, hab]

theorem Grows.preparesFor (hgrows : Grows log log') :
    (log.preparesFor h v x).Sublist (log'.preparesFor h v x) := hgrows.prepares.filter _

theorem Grows.commitsFor (hgrows : Grows log log') :
    (log.commitsFor h v x).Sublist (log'.commitsFor h v x) := hgrows.commits.filter _

theorem Grows.viewChangesFor (hgrows : Grows log log') :
    (log.viewChangesFor h v).Sublist (log'.viewChangesFor h v) := hgrows.viewChanges.filter _

theorem length_prepareSenders :
    (log.prepareSenders h v x).length = (log.preparesFor h v x).length := List.length_map _

/-- Filing a vote is no news of other views. -/
theorem preparesFor_withPrepare_of_ne {s : Signed PrepareContent} (hne : s.content.view ≠ v) :
    (log.withPrepare s).preparesFor h v x = log.preparesFor h v x := by
  rw [withPrepare_eq]
  refine filter_filed_of_neg ?_
  simp [hne]

/-- Filing a commit is no news of other views. -/
theorem commitsFor_withCommit_of_ne {s : Signed CommitContent} (hne : s.content.view ≠ v) :
    (log.withCommit s).commitsFor h v x = log.commitsFor h v x := by
  rw [withCommit_eq]
  refine filter_filed_of_neg ?_
  simp [hne]

/-- Filing a request for a view is no news of other views. -/
theorem viewChangesFor_withViewChange_of_ne {m : ViewChange} (hne : m.view ≠ v) :
    (log.withViewChange m).viewChangesFor h v = log.viewChangesFor h v := by
  rw [withViewChange_eq]
  refine filter_filed_of_neg ?_
  simp [hne]

/-! ## What was prepared -/

theorem preparedBy?_eq_some {votes : Nat} {m : PrePrepare} {p : Prepared}
    (hp : log.preparedBy? votes m = some p) :
    p.prePrepare = m ∧ p.prepares = (log.preparesFor m.height m.view m.blockHash).take votes ∧
      votes ≤ (log.preparesFor m.height m.view m.blockHash).length := by
  rw [preparedBy?] at hp
  split at hp
  · next hle =>
    rw [← Option.some.inj hp]
    exact ⟨rfl, rfl, hle⟩
  · exact absurd hp (by simp)

theorem preparedBy?_eq_none_iff {votes : Nat} {m : PrePrepare} :
    log.preparedBy? votes m = none ↔
      (log.preparesFor m.height m.view m.blockHash).length < votes := by
  rw [preparedBy?]
  split
  · next hle => exact ⟨fun hn => absurd hn (by simp), fun hlt => absurd hle (Nat.not_le_of_lt hlt)⟩
  · next hle => exact ⟨fun _ => Nat.lt_of_not_le hle, fun _ => rfl⟩

/-- What was prepared is the proposal of a view with the votes for it, and no view above
it has them. -/
theorem prepared?_eq_some (hlog : WellFormed log) {quorum : Nat} {p : Prepared}
    (hp : log.prepared? h quorum = some p) :
    (p.prePrepare ∈ log.prePrepares ∧ p.prePrepare.height = h) ∧
      (p.prepares = (log.preparesFor h p.prePrepare.view p.prePrepare.blockHash).take (quorum - 1) ∧
        quorum - 1 ≤ (log.preparesFor h p.prePrepare.view p.prePrepare.blockHash).length) ∧
        ∀ m ∈ log.prePrepares, m.height = h →
          quorum - 1 ≤ (log.preparesFor h m.view m.blockHash).length →
            m.view ≤ p.prePrepare.view := by
  rw [prepared?, List.findSome?_eq_some_iff] at hp
  obtain ⟨higher, m, lower, hsplit, hm, hnone⟩ := hp
  obtain ⟨hpm, hvotes, henough⟩ := preparedBy?_eq_some hm
  have hmem : m ∈ log.prePrepares.filter (·.height == h) := by
    rw [hsplit]
    exact List.mem_append_right _ List.mem_cons_self
  obtain ⟨hmlog, hmh⟩ := List.mem_filter.1 hmem
  have hmh : m.height = h := beq_iff_eq.1 hmh
  have hsorted : (higher ++ m :: lower).Pairwise fun a b => b.view ≤ a.view := by
    rw [← hsplit]
    exact hlog.descending.sublist List.filter_sublist
  rw [hmh] at hvotes henough
  subst hpm
  refine ⟨⟨hmlog, hmh⟩, ⟨hvotes, henough⟩, fun b hb hbh hbvotes => ?_⟩
  have hbmem : b ∈ higher ++ p.prePrepare :: lower := by
    rw [← hsplit]
    exact List.mem_filter.2 ⟨hb, beq_iff_eq.2 hbh⟩
  rcases List.mem_append.1 hbmem with hbh' | hbl
  · have hlt := preparedBy?_eq_none_iff.1 (hnone b hbh')
    rw [hbh] at hlt
    exact absurd hbvotes (Nat.not_le_of_lt hlt)
  · rcases List.mem_cons.1 hbl with rfl | hbl
    · exact Nat.le_refl _
    · exact (List.pairwise_cons.1 (List.pairwise_append.1 hsorted).2.1).1 b hbl

/-- Nothing was prepared where no proposal has the votes. -/
theorem prepared?_eq_none {quorum : Nat} (hp : log.prepared? h quorum = none) {m : PrePrepare}
    (hm : m ∈ log.prePrepares) (hh : m.height = h) :
    (log.preparesFor h m.view m.blockHash).length < quorum - 1 := by
  rw [prepared?, List.findSome?_eq_none_iff] at hp
  have hlt := preparedBy?_eq_none_iff.1 (hp m (List.mem_filter.2 ⟨hm, beq_iff_eq.2 hh⟩))
  rwa [hh] at hlt

end Questions

end MessageLog

end CommitteeConsensus
