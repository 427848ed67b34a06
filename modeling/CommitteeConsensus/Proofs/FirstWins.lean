import CommitteeConsensus.Proofs.LogLaws
import Mathlib.Data.Set.Basic

/-!
# The first message with a key wins

Whoever counts votes, looks for a proposal or collects a proof reads the message log.
What it reads is determined by the calls that were made on the log before, and the rule
is short.  Think of the log as a set of messages.  A message is added to it if it has a
key and no message of the set has the same; clearing takes out the messages of some
heights; a question changes nothing.  `heldAfter` and `Answers` are that rule, and they
mention no list, no order of filing and no search.

The log keeps four lists instead, in the order in which questions want them, and answers
by filters and searches that stop at the first hit.  So two things need an argument.  An
answer that is a list has the right order because filing keeps it (`Ordered`), and the
order is strict because keys are distinct.  And a search through the proposals of a
height finds the highest view first, for the same two reasons.

A `Call` may be made to any function of the log, and answers have the types that these
functions have.  Since an answer that the rule allows is the only one
(`Answers.unique`), the rule says all there is to say about a log.
-/

namespace CommitteeConsensus

/-! ## Ascending lists -/

/-- A list names the elements with a property, each once and by ascending rank. -/
structure Lists {α : Type} (rank : α → Nat) (P : α → Prop) (l : List α) : Prop where
  ascending : l.Pairwise fun a b => rank a < rank b
  mem_iff : ∀ a, a ∈ l ↔ P a

section Lists

variable {α κ : Type} {rank : α → Nat} {P : α → Prop} {l l' : List α}

/-- There is no other such list. -/
theorem Lists.unique (h : Lists rank P l) (h' : Lists rank P l') : l = l' := by
  have hne : ∀ {a b : α}, rank a < rank b → a ≠ b := by
    rintro a b hlt rfl
    exact Nat.lt_irrefl _ hlt
  have hperm : l.Perm l' := by
    rw [List.perm_ext_iff_of_nodup (h.ascending.imp hne) (h'.ascending.imp hne)]
    intro a
    rw [h.mem_iff, h'.mem_iff]
  refine hperm.eq_of_pairwise ?_ h.ascending h'.ascending
  intro a b _ _ hab hba
  exact absurd hab (Nat.lt_asymm hba)

/-- In an ascending list whose ranks are distinct they ascend strictly. -/
theorem lists_of_le (ordered : l.Pairwise fun a b => rank a ≤ rank b)
    (distinct : (l.map rank).Nodup) (mem : ∀ a, a ∈ l ↔ P a) : Lists rank P l := by
  refine ⟨(ordered.and (List.pairwise_map.1 distinct)).imp ?_, mem⟩
  rintro a b ⟨hle, hne⟩
  exact Nat.lt_of_le_of_ne hle hne

/-- The ranks of such a list are such a list. -/
theorem Lists.ranks (h : Lists rank P l) :
    Lists id (fun n => ∃ a, P a ∧ rank a = n) (l.map rank) := by
  refine ⟨List.pairwise_map.2 h.ascending, fun n => ?_⟩
  simp only [List.mem_map, h.mem_iff]

theorem mem_insertAscending {n k : Nat} {ns : List Nat} :
    k ∈ insertAscending n ns ↔ k = n ∨ k ∈ ns := by
  induction ns with
  | nil => simp [insertAscending]
  | cons m rest ih =>
    rw [insertAscending]
    split
    · exact List.mem_cons
    · split
      · next heq => simp [heq]
      · rw [List.mem_cons, ih, List.mem_cons]
        exact or_left_comm

theorem pairwise_insertAscending {n : Nat} {ns : List Nat} (h : ns.Pairwise (· < ·)) :
    (insertAscending n ns).Pairwise (· < ·) := by
  induction ns with
  | nil => exact List.pairwise_singleton _ n
  | cons m rest ih =>
    obtain ⟨hm, hrest⟩ := List.pairwise_cons.1 h
    rw [insertAscending]
    split
    · next hlt =>
      refine List.pairwise_cons.2 ⟨fun k hk => ?_, h⟩
      rcases List.mem_cons.1 hk with rfl | hk
      · exact hlt
      · exact Nat.lt_trans hlt (hm k hk)
    · next hge =>
      split
      · exact h
      · next hne =>
        refine List.pairwise_cons.2 ⟨fun k hk => ?_, ih hrest⟩
        rcases mem_insertAscending.1 hk with rfl | hk
        · omega
        · exact hm k hk

theorem lists_insertAscending (ns : List Nat) :
    Lists id (· ∈ ns) (ns.foldr insertAscending []) := by
  induction ns with
  | nil => exact ⟨List.Pairwise.nil, fun _ => Iff.rfl⟩
  | cons n rest ih =>
    refine ⟨pairwise_insertAscending ih.ascending, fun k => ?_⟩
    rw [List.foldr_cons, mem_insertAscending, ih.mem_iff, List.mem_cons]

/-! ## Filing by key -/

variable {key : α → κ} {before sameKey : α → α → Bool} {a b : α} {held : List α}

/-- An element is filed exactly if its key is free. -/
theorem isSome_fileFirst? (hkey : ∀ a b, sameKey a b = true ↔ key a = key b) :
    (fileFirst? sameKey before a held).isSome = true ↔ ∀ b ∈ held, key b ≠ key a := by
  rw [Option.isSome_iff_ne_none, ne_eq, fileFirst?_eq_none, not_exists]
  refine forall_congr' fun b => ?_
  rw [not_and, hkey]
  exact imp_congr_right fun _ => ne_comm

/-- Filing adds the element if its key is free, and nothing else. -/
theorem mem_filed_iff (hkey : ∀ a b, sameKey a b = true ↔ key a = key b) :
    b ∈ filed sameKey before a held ↔ b ∈ held ∨ b = a ∧ ∀ c ∈ held, key c ≠ key a := by
  have hfree : (fileFirst? sameKey before a held).isSome = true ↔ ∀ c ∈ held, key c ≠ key a :=
    isSome_fileFirst? hkey
  rw [← hfree, filed]
  rcases hf : fileFirst? sameKey before a held with _ | l
  · simp
  · obtain ⟨-, rfl⟩ := fileFirst?_eq_some.1 hf
    rw [Option.getD_some, (perm_placeBefore a held).mem_iff, List.mem_cons]
    simp [or_comm]

/-- Filing by ascending rank keeps a list in order. -/
theorem ascends_filed (h : held.Pairwise fun a b => rank a ≤ rank b) :
    (filed sameKey (fun a b => rank a < rank b) a held).Pairwise fun a b => rank a ≤ rank b := by
  rw [filed]
  rcases hf : fileFirst? sameKey (fun a b => decide (rank a < rank b)) a held with _ | l
  · exact h
  · obtain ⟨-, rfl⟩ := fileFirst?_eq_some.1 hf
    apply pairwise_placeBefore h
    · intro b hb
      have hle : rank a ≤ rank b := Nat.le_of_lt (of_decide_eq_true hb)
      exact ⟨hle, fun c hc => Nat.le_trans hle hc⟩
    · intro b hb
      exact Nat.le_of_not_lt (of_decide_eq_false hb)

end Lists

/-! ## Calls and answers -/

namespace MessageLog

/-- A call and its answer. -/
structure Exchange where
  call : Call
  answer : call.Answer

/-- The answers of a log to one call after the other. -/
def exchanges : MessageLog → List Call → List Exchange
  | _, [] => []
  | log, call :: calls => ⟨call, log.answer call⟩ :: exchanges (log.after call) calls

/-! ## The rule -/

/-- What tells messages apart, together with their kind. -/
inductive Key where
  | prePrepare (key : Height × View)
  | prepare (key : Height × View × BlockHash × MemberId)
  | commit (key : Height × View × BlockHash × MemberId)
  | viewChange (key : Height × View × MemberId)

/-- The key of a message.  A NewView has none, and no place in a log. -/
def key? : Message → Option Key
  | .prePrepare m => some (.prePrepare (prePrepareKey m))
  | .prepare s => some (.prepare (prepareKey s))
  | .commit s => some (.commit (commitKey s))
  | .viewChange m => some (.viewChange (viewChangeKey m))
  | .newView _ => none

section Rule

variable (held : Set Message)

/-- A message can be added to those that are held: it has a key, and none of them has it. -/
def Admits (m : Message) : Prop := key? m ≠ none ∧ ∀ b ∈ held, key? b ≠ key? m

/-- What is held after a call. -/
def heldAfter : Call → Set Message
  | .store m => {b | b ∈ held ∨ b = m ∧ Admits held m}
  | .clear height => {b | b ∈ held ∧ b.height ≠ height}
  | .clearBelow height => {b | b ∈ held ∧ height ≤ b.height}
  | _ => held

/-- A proposal of a height is held. -/
def HasProposal (height : Height) (m : PrePrepare) : Prop :=
  .prePrepare m ∈ held ∧ m.height = height

/-- A vote of a view for a block is held. -/
def HasPrepare (height : Height) (view : View) (hash : BlockHash)
    (s : Signed PrepareContent) : Prop :=
  .prepare s ∈ held ∧ (s.content.height = height ∧ s.content.view = view) ∧
    s.content.blockHash = hash

/-- A commit of a view to a block is held. -/
def HasCommit (height : Height) (view : View) (hash : BlockHash)
    (s : Signed CommitContent) : Prop :=
  .commit s ∈ held ∧ (s.content.height = height ∧ s.content.view = view) ∧
    s.content.blockHash = hash

/-- A request for a view is held. -/
def HasViewChange (height : Height) (view : View) (m : ViewChange) : Prop :=
  .viewChange m ∈ held ∧ m.height = height ∧ m.view = view

/-- The votes for a proposal, of its view and its hash, by ascending sender. -/
def VotesFor (m : PrePrepare) (votes : List (Signed PrepareContent)) : Prop :=
  Lists (·.sender) (HasPrepare held m.height m.view m.blockHash) votes

/-- A proposal has at least `n` votes. -/
def Backed (n : Nat) (m : PrePrepare) : Prop := ∃ votes, VotesFor held m votes ∧ n ≤ votes.length

/-- The proposal of the highest view of a height that has `n` votes, with the first `n` of
them. -/
structure Chosen (height : Height) (n : Nat) (p : Prepared) : Prop where
  proposal : HasProposal held height p.prePrepare
  votes : ∃ votes, VotesFor held p.prePrepare votes ∧ p.prepares <+: votes ∧ p.prepares.length = n
  highest : ∀ m, HasProposal held height m → Backed held n m → m.view ≤ p.prePrepare.view

/-- The answers to a call that a set of messages allows. -/
def Answers : (call : Call) → call.Answer → Prop
  | .store m, (stored : Bool) => stored = true ↔ Admits held m
  | .clear _, _ | .clearBelow _, _ => True
  | .prePrepare height view, (found : Option PrePrepare) =>
    ∀ m, found = some m ↔ HasProposal held height m ∧ m.view = view
  | .latestPrePrepare height, (found : Option PrePrepare) =>
    ∀ m, found = some m ↔
      HasProposal held height m ∧ ∀ b, HasProposal held height b → b.view ≤ m.view
  | .prepares height view hash, votes => Lists (·.sender) (HasPrepare held height view hash) votes
  | .prepareSenders height view hash, (senders : List MemberId) =>
    Lists id (fun i => ∃ s, HasPrepare held height view hash s ∧ s.sender = i) senders
  | .commits height view hash, commits => Lists (·.sender) (HasCommit held height view hash) commits
  | .commitSenders height view hash, (senders : List MemberId) =>
    Lists id (fun i => ∃ s, HasCommit held height view hash s ∧ s.sender = i) senders
  | .hasPrepareFrom height view member, (voted : Bool) =>
    voted = true ↔ ∃ hash s, HasPrepare held height view hash s ∧ s.sender = member
  | .hasCommitFrom height view member, (committed : Bool) =>
    committed = true ↔ ∃ hash s, HasCommit held height view hash s ∧ s.sender = member
  | .viewChanges height view, requests => Lists (·.sender) (HasViewChange held height view) requests
  | .prepared height quorum, (found : Option Prepared) =>
    (found = none ↔ ∀ m, HasProposal held height m → ¬Backed held (quorum - 1) m) ∧
      ∀ p, found = some p ↔ Chosen held height (quorum - 1) p
  | .heights, (heights : List Height) =>
    Lists id (fun height => ∃ m ∈ held, m.height = height) heights

end Rule

/-- Each call of a sequence has an answer that is allowed by what is held at the time. -/
def Explains : Set Message → List Exchange → Prop
  | _, [] => True
  | held, ⟨call, answer⟩ :: rest => Answers held call answer ∧ Explains (heldAfter held call) rest

/-- **The rule leaves no choice.** -/
theorem Answers.unique {held : Set Message} {call : Call} {answer answer' : call.Answer}
    (h : Answers held call answer) (h' : Answers held call answer') : answer = answer' := by
  cases call with
  | store | hasPrepareFrom | hasCommitFrom => exact Bool.eq_iff_iff.2 (h.trans h'.symm)
  | clear | clearBelow => rfl
  | prePrepare | latestPrePrepare => exact Option.ext fun m => (h m).trans (h' m).symm
  | prepared => exact Option.ext fun p => (h.2 p).trans (h'.2 p).symm
  | prepares | prepareSenders | commits | commitSenders | viewChanges | heights =>
    exact Lists.unique h h'

variable {log : MessageLog}

/-! ## Order in the log -/

/-- The log is in order: keys are not shared, proposals descend by their views, and all else ascends
by its senders. -/
structure Ordered (log : MessageLog) : Prop extends WellFormed log where
  preparesAscend : log.prepares.Pairwise fun a b => a.sender ≤ b.sender
  commitsAscend : log.commits.Pairwise fun a b => a.sender ≤ b.sender
  viewChangesAscend : log.viewChanges.Pairwise fun a b => a.sender ≤ b.sender

theorem ordered_empty : Ordered empty :=
  ⟨wellFormed_empty, List.Pairwise.nil, List.Pairwise.nil, List.Pairwise.nil⟩

theorem Ordered.store (h : log.Ordered) (m : Message) : ((log.store? m).getD log).Ordered := by
  cases m with
  | prePrepare m =>
    rw [store?]
    rcases hs : log.storePrePrepare? m with _ | log'
    · exact h
    · have hwell := h.toWellFormed.storePrePrepare? hs
      obtain ⟨-, rfl⟩ := storePrePrepare?_eq_some.1 hs
      exact ⟨hwell, h.preparesAscend, h.commitsAscend, h.viewChangesAscend⟩
  | prepare s =>
    show (log.withPrepare s).Ordered
    refine ⟨h.toWellFormed.withPrepare s, ?_, ?_, ?_⟩ <;> rw [withPrepare_eq]
    exacts [ascends_filed h.preparesAscend, h.commitsAscend, h.viewChangesAscend]
  | commit s =>
    show (log.withCommit s).Ordered
    refine ⟨h.toWellFormed.withCommit s, ?_, ?_, ?_⟩ <;> rw [withCommit_eq]
    exacts [h.preparesAscend, ascends_filed h.commitsAscend, h.viewChangesAscend]
  | viewChange m =>
    show (log.withViewChange m).Ordered
    refine ⟨h.toWellFormed.withViewChange m, ?_, ?_, ?_⟩ <;> rw [withViewChange_eq]
    exacts [h.preparesAscend, h.commitsAscend, ascends_filed h.viewChangesAscend]
  | newView m => exact h

theorem Ordered.restrict (h : log.Ordered) (keep : Height → Bool) :
    (log.restrict keep).Ordered where
  prePrepares := h.prePrepares.sublist (List.filter_sublist.map prePrepareKey)
  descending := h.descending.sublist List.filter_sublist
  prepares := h.prepares.sublist (List.filter_sublist.map prepareKey)
  commits := h.commits.sublist (List.filter_sublist.map commitKey)
  viewChanges := h.viewChanges.sublist (List.filter_sublist.map viewChangeKey)
  preparesAscend := h.preparesAscend.sublist List.filter_sublist
  commitsAscend := h.commitsAscend.sublist List.filter_sublist
  viewChangesAscend := h.viewChangesAscend.sublist List.filter_sublist

theorem Ordered.after (h : log.Ordered) (call : Call) : (log.after call).Ordered := by
  cases call with
  | store m => exact h.store m
  | clear height => exact h.restrict (· != height)
  | clearBelow height => exact h.restrict (height ≤ ·)
  | _ => exact h

/-! ## What a log holds -/

/-- The log as a set of messages. -/
def held (log : MessageLog) : Set Message := {m | log.Files m}

theorem held_empty : empty.held = ∅ := by
  refine Set.eq_empty_iff_forall_notMem.2 fun m hm => ?_
  cases m with
  | newView => exact hm
  | _ => exact absurd hm List.not_mem_nil

/-- Whether two proposals have one key, as filing decides it. -/
def samePrePrepare (a b : PrePrepare) : Bool := a.height == b.height && a.view == b.view

theorem samePrePrepare_iff (a b : PrePrepare) :
    samePrePrepare a b = true ↔ prePrepareKey a = prePrepareKey b := by
  simp only [samePrePrepare, prePrepareKey, Bool.and_eq_true, beq_iff_eq, Prod.mk.injEq]

/-- Filing a proposal touches the proposals only. -/
theorem storePrePrepare?_getD (log : MessageLog) (m : PrePrepare) :
    (log.storePrePrepare? m).getD log = { log with prePrepares :=
      (filed samePrePrepare (fun a b => b.view < a.view) m log.prePrepares) } := by
  show ((fileFirst? samePrePrepare _ m log.prePrepares).map _).getD log = _
  rw [filed]
  rcases fileFirst? samePrePrepare (fun a b => b.view < a.view) m log.prePrepares with _ | l <;> rfl

/-- A message is admitted if none of its kind has its key, since others have other keys. -/
theorem admits_iff_of_kind {α κ : Type} (wrap : α → Message) (label : κ → Key) {key : α → κ}
    {l : List α} (hfiles : ∀ a, log.Files (wrap a) ↔ a ∈ l)
    (hkey : ∀ a, key? (wrap a) = some (label (key a)))
    (hlabel : ∀ j k, label j = label k → j = k)
    (honly : ∀ b k, key? b = some (label k) → ∃ a, b = wrap a) {m : α} :
    Admits log.held (wrap m) ↔ ∀ b ∈ l, key b ≠ key m := by
  rw [Admits, hkey]
  constructor
  · rintro ⟨-, hfree⟩ b hb heq
    exact hfree (wrap b) ((hfiles b).2 hb) (by rw [hkey, heq])
  · intro hfree
    refine ⟨by simp, ?_⟩
    intro b hb heq
    obtain ⟨a, rfl⟩ := honly b _ heq
    rw [hkey] at heq
    exact hfree a ((hfiles a).1 hb) (hlabel _ _ (Option.some.inj heq))

theorem admits_prePrepare {m : PrePrepare} : Admits log.held (.prePrepare m) ↔
    ∀ b ∈ log.prePrepares, prePrepareKey b ≠ prePrepareKey m :=
  admits_iff_of_kind .prePrepare .prePrepare (fun _ => Iff.rfl) (fun _ => rfl)
    (fun _ _ => Key.prePrepare.inj) (by rintro (_ | _ | _ | _ | _) <;> simp [key?])

theorem admits_prepare {s : Signed PrepareContent} : Admits log.held (.prepare s) ↔
    ∀ b ∈ log.prepares, prepareKey b ≠ prepareKey s :=
  admits_iff_of_kind .prepare .prepare (fun _ => Iff.rfl) (fun _ => rfl)
    (fun _ _ => Key.prepare.inj) (by rintro (_ | _ | _ | _ | _) <;> simp [key?])

theorem admits_commit {s : Signed CommitContent} : Admits log.held (.commit s) ↔
    ∀ b ∈ log.commits, commitKey b ≠ commitKey s :=
  admits_iff_of_kind .commit .commit (fun _ => Iff.rfl) (fun _ => rfl)
    (fun _ _ => Key.commit.inj) (by rintro (_ | _ | _ | _ | _) <;> simp [key?])

theorem admits_viewChange {m : ViewChange} : Admits log.held (.viewChange m) ↔
    ∀ b ∈ log.viewChanges, viewChangeKey b ≠ viewChangeKey m :=
  admits_iff_of_kind .viewChange .viewChange (fun _ => Iff.rfl) (fun _ => rfl)
    (fun _ _ => Key.viewChange.inj) (by rintro (_ | _ | _ | _ | _) <;> simp [key?])

theorem not_admits_newView {m : NewView} : ¬Admits log.held (.newView m) := fun h => h.1 rfl

/-- **The log files what the rule admits.** -/
theorem isSome_store?_iff {m : Message} : (log.store? m).isSome = true ↔ Admits log.held m := by
  cases m with
  | prePrepare m =>
    rw [store?, storePrePrepare?, Option.isSome_map, admits_prePrepare]
    exact isSome_fileFirst? samePrePrepare_iff
  | prepare s =>
    rw [store?, storePrepare?, Option.isSome_map, admits_prepare]
    exact isSome_fileFirst? samePrepare_iff
  | commit s =>
    rw [store?, storeCommit?, Option.isSome_map, admits_commit]
    exact isSome_fileFirst? sameCommit_iff
  | viewChange m =>
    rw [store?, storeViewChange?, Option.isSome_map, admits_viewChange]
    exact isSome_fileFirst? sameViewChange_iff
  | newView m => exact iff_of_false (by simp [store?]) not_admits_newView

/-- Filing adds the message if it is admitted, and nothing else. -/
theorem files_store {m b : Message} :
    ((log.store? m).getD log).Files b ↔ log.Files b ∨ b = m ∧ Admits log.held m := by
  cases m with
  | prePrepare m =>
    rw [store?, storePrePrepare?_getD, admits_prePrepare]
    cases b with
    | prePrepare b =>
      rw [Message.prePrepare.injEq]
      exact mem_filed_iff samePrePrepare_iff
    | _ => simp [Files]
  | prepare s =>
    show (log.withPrepare s).Files b ↔ _
    rw [withPrepare_eq, admits_prepare]
    cases b with
    | prepare b =>
      rw [Message.prepare.injEq]
      exact mem_filed_iff samePrepare_iff
    | _ => simp [Files]
  | commit s =>
    show (log.withCommit s).Files b ↔ _
    rw [withCommit_eq, admits_commit]
    cases b with
    | commit b =>
      rw [Message.commit.injEq]
      exact mem_filed_iff sameCommit_iff
    | _ => simp [Files]
  | viewChange m =>
    show (log.withViewChange m).Files b ↔ _
    rw [withViewChange_eq, admits_viewChange]
    cases b with
    | viewChange b =>
      rw [Message.viewChange.injEq]
      exact mem_filed_iff sameViewChange_iff
    | _ => simp [Files]
  | newView m => simp [store?, not_admits_newView]

theorem files_restrict {keep : Height → Bool} {b : Message} :
    (log.restrict keep).Files b ↔ log.Files b ∧ keep b.height = true := by
  cases b with
  | newView => exact ⟨False.elim, fun h => h.1⟩
  | _ => exact List.mem_filter

/-- **A call does to the set what it does to the log.** -/
theorem held_after (log : MessageLog) (call : Call) :
    (log.after call).held = heldAfter log.held call := by
  ext b
  cases call with
  | store m => exact files_store
  | clear height => exact files_restrict.trans (and_congr_right fun _ => bne_iff_ne)
  | clearBelow height => exact files_restrict.trans (and_congr_right fun _ => decide_eq_true_iff)
  | _ => exact Iff.rfl

/-! ## Answers -/

section Answers

variable {h : Height} {v : View} {x : BlockHash} {i : MemberId} {m : PrePrepare} {n quorum : Nat}

/-- The log holds one proposal of a view at most. -/
theorem WellFormed.proposal_unique (hlog : log.WellFormed) {b : PrePrepare}
    (hb : HasProposal log.held h b) (hm : HasProposal log.held h m) (view : b.view = m.view) :
    b = m := by
  have hkey : prePrepareKey b = prePrepareKey m := by
    rw [prePrepareKey, prePrepareKey, hb.2, hm.2, view]
  exact List.inj_on_of_nodup_map hlog.prePrepares hb.1 hm.1 hkey

/-- The first proposal of a height is the one of its highest view. -/
theorem highest_of_latestPrePrepare? (hlog : log.WellFormed)
    (hm : log.latestPrePrepare? h = some m) :
    HasProposal log.held h m ∧ ∀ b, HasProposal log.held h b → b.view ≤ m.view := by
  obtain ⟨hheight, higher, lower, hsplit, hother⟩ := List.find?_eq_some_iff_append.1 hm
  refine ⟨⟨List.mem_of_find?_eq_some hm, beq_iff_eq.1 hheight⟩, ?_⟩
  rintro b ⟨hb, hbh⟩
  replace hb : b ∈ higher ++ m :: lower := hsplit ▸ hb
  have hdescending : (higher ++ m :: lower).Pairwise fun a b => b.view ≤ a.view :=
    hsplit ▸ hlog.descending
  rcases List.mem_append.1 hb with hb | hb
  · exact absurd (hother b hb) (by simp [hbh])
  · rcases List.mem_cons.1 hb with rfl | hb
    · exact Nat.le_refl _
    · exact (List.pairwise_cons.1 (List.pairwise_append.1 hdescending).2.1).1 b hb

theorem latestPrePrepare?_eq_some_iff (hlog : log.WellFormed) :
    log.latestPrePrepare? h = some m ↔
      HasProposal log.held h m ∧ ∀ b, HasProposal log.held h b → b.view ≤ m.view := by
  constructor
  · exact highest_of_latestPrePrepare? hlog
  · rintro ⟨hm, hhighest⟩
    rcases hfound : log.latestPrePrepare? h with _ | b
    · have hother := List.find?_eq_none.1 hfound m hm.1
      exact absurd (beq_iff_eq.2 hm.2) hother
    · obtain ⟨hb, hbhighest⟩ := highest_of_latestPrePrepare? hlog hfound
      have hview := Nat.le_antisymm (hhighest b hb) (hbhighest m hm)
      rw [hlog.proposal_unique hb hm hview]

theorem lists_preparesFor (hlog : log.Ordered) :
    Lists (·.sender) (HasPrepare log.held h v x) (log.preparesFor h v x) :=
  lists_of_le (hlog.preparesAscend.sublist List.filter_sublist)
    (nodup_preparesFor hlog.toWellFormed) fun _ => mem_preparesFor

theorem lists_commitsFor (hlog : log.Ordered) :
    Lists (·.sender) (HasCommit log.held h v x) (log.commitsFor h v x) :=
  lists_of_le (hlog.commitsAscend.sublist List.filter_sublist)
    (nodup_commitsFor hlog.toWellFormed) fun _ => mem_commitsFor

theorem lists_viewChangesFor (hlog : log.Ordered) :
    Lists (·.sender) (HasViewChange log.held h v) (log.viewChangesFor h v) :=
  lists_of_le (hlog.viewChangesAscend.sublist List.filter_sublist)
    (nodup_viewChangesFor hlog.toWellFormed) fun _ => mem_viewChangesFor

theorem hasPrepareFrom_iff_exists :
    log.hasPrepareFrom h v i = true ↔ ∃ x s, HasPrepare log.held h v x s ∧ s.sender = i := by
  simp only [hasPrepareFrom, List.any_eq_true, Bool.and_eq_true, beq_iff_eq]
  constructor
  · rintro ⟨s, hs, hrange, hsender⟩
    exact ⟨_, s, ⟨hs, hrange, rfl⟩, hsender⟩
  · rintro ⟨_, s, ⟨hs, hrange, -⟩, hsender⟩
    exact ⟨s, hs, hrange, hsender⟩

theorem hasCommitFrom_iff_exists :
    log.hasCommitFrom h v i = true ↔ ∃ x s, HasCommit log.held h v x s ∧ s.sender = i := by
  simp only [hasCommitFrom, List.any_eq_true, Bool.and_eq_true, beq_iff_eq]
  constructor
  · rintro ⟨s, hs, hrange, hsender⟩
    exact ⟨_, s, ⟨hs, hrange, rfl⟩, hsender⟩
  · rintro ⟨_, s, ⟨hs, hrange, -⟩, hsender⟩
    exact ⟨s, hs, hrange, hsender⟩

/-- The votes for a proposal are those that the log finds. -/
theorem votesFor_iff (hlog : log.Ordered) {votes : List (Signed PrepareContent)} :
    VotesFor log.held m votes ↔ votes = log.preparesFor m.height m.view m.blockHash :=
  ⟨fun h => h.unique (lists_preparesFor hlog), fun h => h ▸ lists_preparesFor hlog⟩

theorem backed_iff (hlog : log.Ordered) :
    Backed log.held n m ↔ n ≤ (log.preparesFor m.height m.view m.blockHash).length := by
  simp only [Backed, votesFor_iff hlog, exists_eq_left]

theorem prepared?_eq_none_iff (hlog : log.Ordered) :
    log.prepared? h quorum = none ↔
      ∀ m, HasProposal log.held h m → ¬Backed log.held (quorum - 1) m := by
  rw [prepared?, List.findSome?_eq_none_iff]
  refine forall_congr' fun m => ?_
  rw [List.mem_filter, beq_iff_eq, preparedBy?_eq_none_iff, backed_iff hlog, Nat.not_le]
  exact Iff.rfl

theorem Chosen.backed {held : Set Message} {p : Prepared} (hp : Chosen held h n p) :
    Backed held n p.prePrepare := by
  obtain ⟨votes, hvotes, hfirst, hlength⟩ := hp.votes
  exact ⟨votes, hvotes, hlength ▸ hfirst.length_le⟩

/-- There is one choice at most: the proposals are of one view, and the votes for it are the
same. -/
theorem Chosen.unique (hlog : log.WellFormed) {p p' : Prepared} (hp : Chosen log.held h n p)
    (hp' : Chosen log.held h n p') : p = p' := by
  have hview : p.prePrepare.view = p'.prePrepare.view :=
    Nat.le_antisymm (hp'.highest _ hp.proposal hp.backed) (hp.highest _ hp'.proposal hp'.backed)
  have hproposal := hlog.proposal_unique hp.proposal hp'.proposal hview
  obtain ⟨votes, hvotes, hfirst, hlength⟩ := hp.votes
  obtain ⟨votes', hvotes', hfirst', hlength'⟩ := hp'.votes
  rw [hproposal] at hvotes
  obtain rfl := hvotes.unique hvotes'
  have hprepares : p.prepares = p'.prepares := by
    rw [List.prefix_iff_eq_take.1 hfirst, List.prefix_iff_eq_take.1 hfirst', hlength, hlength']
  obtain ⟨proposal, prepares⟩ := p
  obtain ⟨proposal', prepares'⟩ := p'
  rw [Prepared.mk.injEq]
  exact ⟨hproposal, hprepares⟩

/-- What a member finds prepared is the rule's choice. -/
theorem chosen_of_prepared? (hlog : log.Ordered) {p : Prepared}
    (hp : log.prepared? h quorum = some p) : Chosen log.held h (quorum - 1) p := by
  obtain ⟨hproposal, ⟨hvotes, henough⟩, hhighest⟩ := prepared?_eq_some hlog.toWellFormed hp
  refine ⟨hproposal, ⟨_, (votesFor_iff hlog).2 rfl, ?_, ?_⟩, ?_⟩
  · rw [hvotes, hproposal.2]
    exact List.take_prefix _ _
  · rw [hvotes, List.length_take, Nat.min_eq_left henough]
  · intro m hm hbacked
    rw [backed_iff hlog, hm.2] at hbacked
    exact hhighest m hm.1 hm.2 hbacked

theorem prepared?_eq_some_iff (hlog : log.Ordered) {p : Prepared} :
    log.prepared? h quorum = some p ↔ Chosen log.held h (quorum - 1) p := by
  constructor
  · exact chosen_of_prepared? hlog
  · intro hp
    rcases hfound : log.prepared? h quorum with _ | b
    · exact absurd hp.backed ((prepared?_eq_none_iff hlog).1 hfound _ hp.proposal)
    · rw [(chosen_of_prepared? hlog hfound).unique hlog.toWellFormed hp]

theorem lists_heights (log : MessageLog) :
    Lists id (fun h => ∃ m ∈ log.held, m.height = h) log.heights := by
  have hlists := lists_insertAscending (log.prePrepares.map (·.height) ++
    log.prepares.map (·.content.height) ++ log.commits.map (·.content.height) ++
      log.viewChanges.map (·.height))
  refine ⟨hlists.ascending, fun h => (hlists.mem_iff h).trans ?_⟩
  simp only [List.mem_append, List.mem_map]
  constructor
  · rintro (((⟨m, hm, heq⟩ | ⟨s, hs, heq⟩) | ⟨s, hs, heq⟩) | ⟨m, hm, heq⟩)
    · exact ⟨.prePrepare m, hm, heq⟩
    · exact ⟨.prepare s, hs, heq⟩
    · exact ⟨.commit s, hs, heq⟩
    · exact ⟨.viewChange m, hm, heq⟩
  · rintro ⟨m, hm, heq⟩
    cases m with
    | prePrepare m => exact Or.inl (Or.inl (Or.inl ⟨m, hm, heq⟩))
    | prepare s => exact Or.inl (Or.inl (Or.inr ⟨s, hm, heq⟩))
    | commit s => exact Or.inl (Or.inr ⟨s, hm, heq⟩)
    | viewChange m => exact Or.inr ⟨m, hm, heq⟩
    | newView m => exact absurd hm id

/-- What a log answers is allowed by what it holds. -/
theorem Ordered.answers (hlog : log.Ordered) (call : Call) :
    Answers log.held call (log.answer call) := by
  cases call with
  | store m => exact isSome_store?_iff
  | clear | clearBelow => trivial
  | prePrepare h v =>
    intro m
    rw [HasProposal, and_assoc]
    exact prePrepare?_eq_some_iff hlog.toWellFormed
  | latestPrePrepare h => exact fun m => latestPrePrepare?_eq_some_iff hlog.toWellFormed
  | prepares h v x => exact lists_preparesFor hlog
  | prepareSenders h v x => exact (lists_preparesFor hlog).ranks
  | commits h v x => exact lists_commitsFor hlog
  | commitSenders h v x => exact (lists_commitsFor hlog).ranks
  | hasPrepareFrom h v i => exact hasPrepareFrom_iff_exists
  | hasCommitFrom h v i => exact hasCommitFrom_iff_exists
  | viewChanges h v => exact lists_viewChangesFor hlog
  | prepared h quorum =>
    exact ⟨prepared?_eq_none_iff hlog, fun p => prepared?_eq_some_iff hlog⟩
  | heights => exact lists_heights log

end Answers

/-! ## The log follows the rule -/

theorem call_exchanges (log : MessageLog) (calls : List Call) :
    (log.exchanges calls).map (·.call) = calls := by
  induction calls generalizing log with
  | nil => rfl
  | cons call rest ih => exact congrArg (call :: ·) (ih (log.after call))

/-- Answers are explained by what a log holds exactly if they are the log's. -/
theorem Ordered.explains_iff (hlog : log.Ordered) {results : List Exchange} :
    Explains log.held results ↔ results = log.exchanges (results.map (·.call)) := by
  induction results generalizing log with
  | nil => exact iff_of_true trivial rfl
  | cons result rest ih =>
    obtain ⟨call, answer⟩ := result
    have hrest := ih (hlog.after call)
    rw [held_after] at hrest
    rw [Explains, hrest, List.map_cons, exchanges, List.cons.injEq]
    refine and_congr_left fun _ => ?_
    constructor
    · intro hanswer
      rw [hanswer.unique (hlog.answers call)]
    · intro heq
      have hsame : answer = log.answer call := eq_of_heq (Exchange.mk.inj heq).2
      rw [hsame]
      exact hlog.answers call

/-- **The first message with a key wins.**  Whatever calls are made on a new log, its answers to
them are the only ones that the rule allows: a message is added if it has a key and none that
is held has the same, clearing drops the messages of some heights, and every question is
answered from the messages that are held. -/
theorem exchanges_empty_iff (calls : List Call) (results : List Exchange) :
    results = empty.exchanges calls ↔ results.map (·.call) = calls ∧ Explains ∅ results := by
  rw [← held_empty, ordered_empty.explains_iff]
  constructor
  · rintro rfl
    rw [call_exchanges]
    exact ⟨rfl, rfl⟩
  · rintro ⟨rfl, h⟩
    exact h

end MessageLog

end CommitteeConsensus
