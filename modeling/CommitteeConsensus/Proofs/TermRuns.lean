import CommitteeConsensus.Proofs.Acts

/-!
# Runs of a term

A term is driven by its caller: it is started, it is given messages and events, and
it answers each with requests.  A `Past` is everything that has happened to it so
far, with the progress that it led to, and `Term.Run` says which pasts there are.
The caller keeps three promises only (`Term.Permits`): a message is of the term's
height, it is not the member's own, and the result of a validation is of a proposal
that the term asked to have validated.

A `Term.Trace` is a run seen more finely: an act or a single consequence is a step of
its own, and acts happen at rest only.  Every run is a trace (`Run.trace`), so what is
to hold in every run is proved by induction on traces, and the pasts in the middle of
a handler have the facts that were proved before.
-/

namespace CommitteeConsensus

/-! ## What happens to a term -/

/-- Everything that has happened to a term, and its progress. -/
structure Past where
  progress : Progress
  /-- What was done with the term, in order. -/
  taken : List Stimulus
  /-- What the term asked for, in order. -/
  requests : List Request

namespace Past

/-- The past of a term that nothing has happened to. -/
def fresh : Past := ⟨Progress.initial MessageLog.empty, [], []⟩

/-- The past after one more step. -/
def after (past : Past) (stimulus : Stimulus) (step : Step) : Past :=
  ⟨step.progress, past.taken ++ [stimulus], past.requests ++ step.requests⟩

/-- The term asked to have a message sent. -/
def Sent (past : Past) (message : Message) : Prop :=
  ∃ recipients, Request.send recipients message ∈ past.requests

/-- A statement that `me` signed: one of a message that was sent, or a request for a view
that `me` filed, be it sent or not. -/
def Signs (past : Past) (me : MemberId) (statement : Statement) : Prop :=
  (∃ message, past.Sent message ∧ statement ∈ message.authored) ∨
    ∃ m ∈ past.progress.log.viewChanges, m.sender = me ∧ statement = .viewChange m.signed.content

/-- One past is an earlier part of another. -/
structure Before (past later : Past) : Prop where
  taken : past.taken ⊆ later.taken
  requests : past.requests ⊆ later.requests
  log : past.progress.log.Grows later.progress.log

theorem Before.refl (past : Past) : past.Before past :=
  ⟨fun _ h => h, fun _ h => h, MessageLog.Grows.refl _⟩

theorem Before.sent {past later : Past} (h : past.Before later) {message : Message}
    (hs : past.Sent message) : later.Sent message :=
  hs.imp fun _ hr => h.requests hr

theorem Before.signs {past later : Past} (h : past.Before later) {me : MemberId}
    {statement : Statement} (hs : past.Signs me statement) : later.Signs me statement := by
  rcases hs with ⟨message, hsent, hc⟩ | ⟨m, hm, hme, hc⟩
  · exact Or.inl ⟨message, h.sent hsent, hc⟩
  · exact Or.inr ⟨m, h.log.viewChanges.subset hm, hme, hc⟩

/-- The past after an act. -/
def acted (past : Past) (stimulus : Stimulus) (rs : List Request) (p : Progress) : Past :=
  ⟨p, past.taken ++ [stimulus], past.requests ++ rs⟩

/-- The past after a consequence. -/
def settled (past : Past) (rs : List Request) (p : Progress) : Past :=
  ⟨p, past.taken, past.requests ++ rs⟩

end Past

namespace Term

variable (t : Term)

/-- What the caller has promised before it does something with a term. -/
def Permits (past : Past) : Stimulus → Prop
  | .start => True
  | .message m => m.height = t.height ∧ m.sender ≠ t.me
  | .event (.validationFinished m _) => .validateProposal m ∈ past.requests
  | .event _ => True

/-- The pasts that a term on an empty log can have. -/
inductive Run : Past → Prop where
  | fresh : Run .fresh
  | step {past : Past} {stimulus : Stimulus} {step : Step} (run : Run past)
    (permits : t.Permits past stimulus) (react : t.react past.progress stimulus = .ok step) :
    Run (past.after stimulus step)

/-- Runs in small steps. -/
inductive Trace : Past → Prop where
  | fresh : Trace .fresh
  | act {past : Past} {stimulus : Stimulus} {rs : List Request} {p : Progress}
    (trace : Trace past) (permits : t.Permits past stimulus) (rest : t.AtRest past.progress)
    (act : t.Act stimulus past.progress rs p) : Trace (past.acted stimulus rs p)
  | consequence {past : Past} {rs : List Request} {p : Progress} (trace : Trace past)
    (consequence : t.Consequence past.progress rs p) : Trace (past.settled rs p)

variable {t}

/-! ## The log grows -/

theorem grows_install (p : Progress) (m : PrePrepare) :
    p.log.Grows (p.install m).progress.log := by
  rw [Progress.install]
  split
  · exact MessageLog.Grows.refl _
  · next log hlog => exact MessageLog.grows_storePrePrepare? hlog

theorem grows_voteFor (p : Progress) (m : PrePrepare) :
    p.log.Grows (t.voteFor p m).progress.log := by
  rw [voteFor]
  split
  · exact MessageLog.Grows.refl _
  · exact MessageLog.grows_withPrepare _ _

theorem grows_commitTo (p : Progress) (hash : BlockHash) :
    p.log.Grows (t.commitTo p hash).progress.log := by
  rw [commitTo]
  split
  · exact MessageLog.Grows.refl _
  · exact MessageLog.grows_withCommit _ _

theorem Act.grows {stimulus : Stimulus} {p p' : Progress} {rs : List Request}
    (h : t.Act stimulus p rs p') : p.log.Grows p'.log := by
  cases h with
  | ignore | start | examine | release => exact MessageLog.Grows.refl _
  | follow | watch =>
    show p.log.Grows (p.reach _).log
    rw [Progress.log_reach]
    exact MessageLog.Grows.refl _
  | @approve _ m log live view validating stored =>
    exact (MessageLog.grows_storePrePrepare? stored).trans
      (grows_voteFor { p with validating := none, log, phase := .collectingPrePrepare } m)
  | propose => exact grows_install _ _
  | openPending => exact grows_install { p with pendingNewView := none } _
  | elapse => exact MessageLog.grows_withViewChange _ _
  | keepPrepare => exact MessageLog.grows_withPrepare _ _
  | keepCommit => exact MessageLog.grows_withCommit _ _
  | keepViewChange live current near leads admits stored =>
    rw [MessageLog.storeViewChange?_eq_some stored]
    exact MessageLog.grows_withViewChange _ _

theorem Consequence.grows {p p' : Progress} {rs : List Request} (h : t.Consequence p rs p') :
    p.log.Grows p'.log := by
  cases h with
  | @repropose view =>
    rw [← p.log_claim view]
    exact grows_install _ _
  | @await view =>
    show p.log.Grows (p.claim view).log
    rw [Progress.log_claim]
    exact MessageLog.Grows.refl _
  | commit => exact grows_commitTo { p with phase := .prepared } _
  | decide => exact MessageLog.Grows.refl _

theorem Act.before {past : Past} {stimulus : Stimulus} {p : Progress} {rs : List Request}
    (h : t.Act stimulus past.progress rs p) : past.Before (past.acted stimulus rs p) :=
  ⟨List.subset_append_left _ _, List.subset_append_left _ _, h.grows⟩

theorem Consequence.before {past : Past} {p : Progress} {rs : List Request}
    (h : t.Consequence past.progress rs p) : past.Before (past.settled rs p) :=
  ⟨fun _ h => h, List.subset_append_left _ _, h.grows⟩

/-! ## Where requests come from -/

section Requests

variable {p p' : Progress} {rs : List Request} {r : Request} {stimulus : Stimulus}

theorem mem_install {m : PrePrepare} (h : r ∈ (p.install m).requests) :
    r = .scheduleElection p.view := by
  rw [Progress.install] at h
  split at h
  · exact absurd h List.not_mem_nil
  · exact List.mem_singleton.1 h

theorem mem_arming {view : View} (h : r ∈ arming p view) : r = .scheduleElection view := by
  rw [arming] at h
  split at h
  · exact List.mem_singleton.1 h
  · exact absurd h List.not_mem_nil

/-- A member other than the leader votes. -/
theorem mem_voteFor {m : PrePrepare} (h : r ∈ (t.voteFor p m).requests) :
    (t.observer = false ∧ t.leads m.view = false) ∧
      r = t.broadcast (.prepare (t.keys.prepare t.height m.view m.blockHash)) := by
  rw [voteFor] at h
  split at h
  · exact absurd h List.not_mem_nil
  · next hmember =>
    simp only [not_or, Bool.not_eq_true] at hmember
    exact ⟨hmember, List.mem_singleton.1 h⟩

/-- A member commits. -/
theorem mem_commitTo {hash : BlockHash} (h : r ∈ (t.commitTo p hash).requests) :
    t.observer = false ∧
      r = t.broadcast (.commit (t.keys.commit t.height p.view hash t.seed)) := by
  rw [commitTo] at h
  split at h
  · exact absurd h List.not_mem_nil
  · next hmember => exact ⟨by simpa using hmember, List.mem_singleton.1 h⟩

/-- A block is asked for at the start of a view that the member leads. -/
theorem mem_start (h : r ∈ (t.start p).requests) :
    r = .scheduleElection p.view ∨ t.leads p.view = true ∧ r = .buildProposal p.view := by
  rcases List.mem_cons.1 h with rfl | h
  · exact Or.inl rfl
  · split at h
    · next hleads => exact Or.inr ⟨hleads, List.mem_singleton.1 h⟩
    · exact absurd h List.not_mem_nil

/-- What goes to the host to be validated came in a PrePrepare or in a NewView. -/
theorem Act.validates {m : PrePrepare} (h : t.Act stimulus p rs p')
    (hm : .validateProposal m ∈ rs) :
    (stimulus = .message (.prePrepare m) ∧ t.admitsProposal m m.view = true) ∨
      ∃ n, stimulus = .message (.newView n) ∧ n.prePrepare = m ∧ t.admitsNewView n = true := by
  cases h with
  | ignore | release | keepPrepare | keepCommit | keepViewChange =>
    exact absurd hm List.not_mem_nil
  | start => rcases mem_start hm with h | ⟨-, h⟩ <;> exact absurd h (by simp)
  | examine view phase idle vacant admits =>
    obtain rfl := Request.validateProposal.inj (List.mem_singleton.1 hm)
    exact Or.inl ⟨rfl, admits⟩
  | @follow _ n live view idle admits =>
    simp only [List.mem_cons, Request.validateProposal.injEq, reduceCtorEq, List.not_mem_nil,
      or_false, false_or] at hm
    exact Or.inr ⟨n, rfl, hm.symm, admits⟩
  | approve =>
    rcases List.mem_cons.1 hm with h | h
    · exact absurd h (by simp)
    · exact absurd (mem_voteFor h).2 (by simp [broadcast])
  | propose | openPending =>
    rcases List.mem_cons.1 hm with h | h
    · exact absurd h (by simp [broadcast])
    · exact absurd (mem_install h) (by simp)
  | watch => exact absurd (List.mem_singleton.1 hm) (by simp)
  | elapse =>
    rcases List.mem_cons.1 hm with h | h
    · exact absurd h (by simp)
    · split at h
      · exact absurd h List.not_mem_nil
      · exact absurd (List.mem_singleton.1 h) (by simp)

theorem Consequence.not_validates {m : PrePrepare} (h : t.Consequence p rs p') :
    .validateProposal m ∉ rs := by
  intro hm
  cases h with
  | repropose =>
    rcases List.mem_append.1 hm with h | h
    · exact absurd (mem_arming h) (by simp)
    · rcases List.mem_cons.1 h with h | h
      · exact absurd h (by simp [broadcast])
      · exact absurd (mem_install h) (by simp)
  | await =>
    rcases List.mem_append.1 hm with h | h
    · exact absurd (mem_arming h) (by simp)
    · exact absurd (List.mem_singleton.1 h) (by simp)
  | commit => exact absurd (mem_commitTo hm).2 (by simp [broadcast])
  | decide => simp at hm

end Requests

/-! ## Where the proposals of the log stand -/

/-- A proposal that is being validated is the leader's, for its block, and not the
member's own. -/
theorem Trace.examined {past : Past} (h : t.Trace past) {m : PrePrepare}
    (hm : .validateProposal m ∈ past.requests) :
    t.admitsProposal m m.view = true ∧ m.sender ≠ t.me := by
  induction h with
  | fresh => exact absurd hm (List.not_mem_nil)
  | act trace permits rest act ih =>
    rcases List.mem_append.1 hm with hm | hm
    · exact ih hm
    · rcases act.validates hm with ⟨rfl, hadm⟩ | ⟨n, rfl, rfl, hadm⟩
      · exact ⟨hadm, permits.2⟩
      · obtain ⟨⟨⟨-, hsender, -⟩, hprop⟩, -⟩ := admitsNewView_iff.1 hadm
        obtain ⟨⟨hview, hproposed⟩, -⟩ := admitsProposal_iff.1 hprop
        rw [hview]
        refine ⟨hprop, fun heq => permits.2 ?_⟩
        show n.signed.sender = t.me
        rw [hsender, ← heq, ← hview]
        exact hproposed.sender_eq.symm
  | consequence trace consequence ih =>
    rcases List.mem_append.1 hm with hm | hm
    · exact ih hm
    · exact absurd hm consequence.not_validates

theorem Placed.install {p : Progress} (h : t.Placed p) {m : PrePrepare}
    (height : m.height = t.height) (view : m.view = p.view) :
    t.Placed (p.install m).progress := by
  rw [Progress.install]
  split
  · exact h
  · next log hlog =>
    refine ⟨h.wellFormed.storePrePrepare? hlog, fun b hb => ?_, fun b hb => ?_,
      fun hphase => absurd hphase (by simp [Step.ask])⟩
    · rcases (MessageLog.mem_storePrePrepare? hlog).1 hb with rfl | hb
      · exact height
      · exact h.height b hb
    · rcases (MessageLog.mem_storePrePrepare? hlog).1 hb with rfl | hb
      · exact Nat.le_of_eq view
      · exact h.le b hb

/-- Only the proposals, the view and the phase matter. -/
theorem Placed.congr {p q : Progress} (h : t.Placed p) (hlog : q.log.WellFormed)
    (hprePrepares : q.log.prePrepares = p.log.prePrepares) (hview : q.view = p.view)
    (hphase : q.phase = .viewChanging → p.phase = .viewChanging) : t.Placed q := by
  refine ⟨hlog, ?_, ?_, fun hq => ?_⟩ <;> rw [hprePrepares]
  · exact h.height
  · rw [hview]
    exact h.le
  · rw [hview]
    exact h.lt (hphase hq)

theorem Placed.voteFor {p : Progress} (h : t.Placed p) (m : PrePrepare) :
    t.Placed (t.voteFor p m).progress := by
  refine h.congr ?_ (t.prePrepares_voteFor p m) (t.view_voteFor p m)
    (by rw [t.phase_voteFor p m]; exact id)
  rw [Term.voteFor]
  split
  · exact h.wellFormed
  · exact h.wellFormed.withPrepare _

theorem Placed.commitTo {p : Progress} (h : t.Placed p) (hash : BlockHash) :
    t.Placed (t.commitTo p hash).progress := by
  refine h.congr ?_ (t.prePrepares_commitTo p hash) (t.view_commitTo p hash)
    (by rw [t.phase_commitTo p hash]; exact id)
  rw [Term.commitTo]
  split
  · exact h.wellFormed
  · exact h.wellFormed.withCommit _

theorem Placed.store {p : Progress} (h : t.Placed p) {m : PrePrepare} {log : MessageLog}
    (hlog : p.log.storePrePrepare? m = some log) (height : m.height = t.height)
    (view : m.view = p.view) :
    t.Placed { p with validating := none, log, phase := .collectingPrePrepare } := by
  have hinstalled := (h.idle none p.pendingNewView).install height view
  rw [Progress.install] at hinstalled
  simp only [hlog] at hinstalled
  exact hinstalled

theorem Act.placed {past : Past} {stimulus : Stimulus} {rs : List Request} {q : Progress}
    (trace : t.Trace past) (permits : t.Permits past stimulus) (h : t.Placed past.progress)
    (act : t.Act stimulus past.progress rs q) : t.Placed q := by
  generalize hp : past.progress = p at act h
  cases act with
  | ignore | start => exact h
  | examine | release => exact h.idle _ _
  | follow => exact (h.reach _).idle _ _
  | approve live view validating stored =>
    obtain ⟨⟨-, hproposed⟩, -⟩ := admitsProposal_iff.1 (trace.examined permits).1
    exact (h.store stored hproposed.height_eq view).voteFor _
  | propose => exact h.install rfl rfl
  | openPending => exact (h.idle p.validating none).install rfl rfl
  | watch => exact h.reach _
  | elapse => exact h.elapsed
  | keepPrepare =>
    exact h.congr (h.wellFormed.withPrepare _) (MessageLog.prePrepares_withPrepare _ _) rfl id
  | keepCommit =>
    exact h.congr (h.wellFormed.withCommit _) (MessageLog.prePrepares_withCommit _ _) rfl id
  | keepViewChange live current near leads admits stored =>
    rw [MessageLog.storeViewChange?_eq_some stored]
    exact h.withViewChange _

theorem Consequence.placed {p q : Progress} {rs : List Request} (h : t.Placed p)
    (consequence : t.Consequence p rs q) : t.Placed q := by
  cases consequence with
  | repropose claims => exact (h.claim _).install rfl (p.view_claim claims.le).symm
  | @await view claims => exact (h.claim view).idle (p.claim view).validating _
  | commit phase =>
    refine Placed.commitTo ?_ _
    exact ⟨h.wellFormed, h.height, h.le, fun hphase => absurd hphase (by simp)⟩
  | decide => exact ⟨h.wellFormed, h.height, h.le, fun hphase => absurd hphase (by simp)⟩

/-- The log is in order, and its proposals stand where they belong. -/
theorem Trace.placed {past : Past} (h : t.Trace past) : t.Placed past.progress := by
  induction h with
  | fresh =>
    exact ⟨MessageLog.wellFormed_empty, fun m hm => absurd hm List.not_mem_nil,
      fun m hm => absurd hm List.not_mem_nil, fun _ m hm => absurd hm List.not_mem_nil⟩
  | act trace permits rest act ih => exact act.placed trace permits ih
  | consequence trace consequence ih => exact consequence.placed ih

/-! ## How the log and the phase change -/

section Changes

variable {p q : Progress} {rs : List Request} {stimulus : Stimulus}

/-- A decided term does nothing any more. -/
theorem Act.of_committed (h : t.Act stimulus p rs q) (hphase : p.phase = .committed) : q = p := by
  cases h with
  | ignore | start => rfl
  | examine view phase => exact absurd (hphase.symm.trans phase) (by simp)
  | follow live | release live | approve live | propose live | openPending live | watch live
  | elapse live | keepPrepare live | keepCommit live | keepViewChange live =>
    exact absurd hphase live

theorem install_filed {m b : PrePrepare} (hb : b ∈ (p.install m).progress.log.prePrepares) :
    b ∈ p.log.prePrepares ∨ b = m ∧ (p.install m).progress.view = p.view ∧
      (p.install m).progress.phase = .collectingPrePrepare := by
  rw [Progress.install] at hb ⊢
  split
  · next hnone =>
    rw [hnone] at hb
    exact Or.inl hb
  · next log hlog =>
    rw [hlog] at hb
    exact ((MessageLog.mem_storePrePrepare? hlog).1 hb).symm.imp_right fun heq => ⟨heq, rfl, rfl⟩

/-- A proposal is filed in its view only.  It is the member's own, or has just been found
valid. -/
theorem Act.filed (h : t.Act stimulus p rs q) {b : PrePrepare} (hb : b ∈ q.log.prePrepares) :
    b ∈ p.log.prePrepares ∨ (b.view = q.view ∧ q.phase = .collectingPrePrepare) ∧
      (t.leads b.view = true ∨
        stimulus = .event (.validationFinished b true) ∧ b.view = p.view) := by
  cases h with
  | ignore | start | examine | release => exact Or.inl hb
  | follow | watch =>
    left
    rwa [← p.log_reach]
  | @approve _ m log live view validating stored =>
    rw [prePrepares_voteFor] at hb
    rw [view_voteFor, phase_voteFor]
    rcases (MessageLog.mem_storePrePrepare? stored).1 hb with rfl | hb
    · exact Or.inr ⟨⟨view, rfl⟩, Or.inr ⟨rfl, view⟩⟩
    · exact Or.inl hb
  | propose live leads =>
    refine (install_filed hb).imp_right ?_
    rintro ⟨rfl, hview, hphase⟩
    exact ⟨⟨hview.symm, hphase⟩, Or.inl leads⟩
  | openPending live leads =>
    refine (install_filed hb).imp_right ?_
    rintro ⟨rfl, hview, hphase⟩
    exact ⟨⟨hview.symm, hphase⟩, Or.inl leads⟩
  | elapse =>
    rw [elapsed, MessageLog.prePrepares_withViewChange] at hb
    exact Or.inl hb
  | keepPrepare =>
    rw [MessageLog.prePrepares_withPrepare] at hb
    exact Or.inl hb
  | keepCommit =>
    rw [MessageLog.prePrepares_withCommit] at hb
    exact Or.inl hb
  | keepViewChange live current near leads admits stored =>
    rw [MessageLog.storeViewChange?_eq_some stored, MessageLog.prePrepares_withViewChange] at hb
    exact Or.inl hb

theorem Consequence.filed (h : t.Consequence p rs q) {b : PrePrepare}
    (hb : b ∈ q.log.prePrepares) :
    b ∈ p.log.prePrepares ∨
      (b.view = q.view ∧ q.phase = .collectingPrePrepare) ∧ t.leads b.view = true := by
  cases h with
  | @repropose view block hash claims =>
    refine (install_filed hb).imp ?_ ?_
    · rw [Progress.log_claim]
      exact id
    · rintro ⟨rfl, hview, hphase⟩
      rw [p.view_claim claims.le] at hview
      exact ⟨⟨hview.symm, hphase⟩, claims.leads⟩
  | @await view =>
    left
    rwa [← p.log_claim view]
  | commit =>
    rw [prePrepares_commitTo] at hb
    exact Or.inl hb
  | decide => exact Or.inl hb

theorem view_install (m : PrePrepare) : (p.install m).progress.view = p.view := by
  rw [Progress.install]
  split <;> rfl

theorem prepares_install (m : PrePrepare) :
    (p.install m).progress.log.prepares = p.log.prepares := by
  rw [Progress.install]
  split
  · rfl
  · next log hlog =>
    obtain ⟨-, rfl⟩ := MessageLog.storePrePrepare?_eq_some.1 hlog
    rfl

theorem viewChanges_install (m : PrePrepare) :
    (p.install m).progress.log.viewChanges = p.log.viewChanges := by
  rw [Progress.install]
  split
  · rfl
  · next log hlog =>
    obtain ⟨-, rfl⟩ := MessageLog.storePrePrepare?_eq_some.1 hlog
    rfl

/-- No act leads to a lower view. -/
theorem Act.view_le (h : t.Act stimulus p rs q) : p.view ≤ q.view := by
  cases h with
  | ignore | start | examine | release | keepPrepare | keepCommit | keepViewChange =>
    exact Nat.le_refl _
  | follow | watch | elapse => exact p.le_view_reach _
  | approve => simp only [view_voteFor, Nat.le_refl]
  | propose | openPending => simp only [view_install, Nat.le_refl]

theorem Consequence.view_le (h : t.Consequence p rs q) : p.view ≤ q.view := by
  cases h with
  | repropose claims =>
    rw [view_install, p.view_claim claims.le]
    exact claims.le
  | @await view claims =>
    show p.view ≤ (p.claim view).view
    rw [p.view_claim claims.le]
    exact claims.le
  | commit => simp only [view_commitTo, Nat.le_refl]
  | decide => exact Nat.le_refl _

/-- The votes of views that were left are never added to. -/
theorem Act.preparesFor_below (h : t.Act stimulus p rs q) {height : Height} {view : View}
    {hash : BlockHash} (hlt : view < p.view) :
    q.log.preparesFor height view hash = p.log.preparesFor height view hash := by
  cases h with
  | ignore | start | examine | release => rfl
  | follow | watch =>
    show (p.reach _).log.preparesFor height view hash = _
    rw [Progress.log_reach]
  | @approve _ m log live hview validating stored =>
    obtain ⟨-, rfl⟩ := MessageLog.storePrePrepare?_eq_some.1 stored
    rcases t.voteFor_cases { p with
        validating := none, phase := .collectingPrePrepare
        log := { p.log with prePrepares := _ } } m with hvote | ⟨-, hvote⟩
    · rw [hvote]
      rfl
    · rw [hvote]
      exact MessageLog.preparesFor_withPrepare_of_ne fun heq =>
        Nat.ne_of_gt hlt (hview.symm.trans heq)
  | propose | openPending => rw [MessageLog.preparesFor, prepares_install, MessageLog.preparesFor]
  | elapse => rw [elapsed, MessageLog.preparesFor, MessageLog.prepares_withViewChange,
      MessageLog.preparesFor]
  | keepPrepare live mem hheight current =>
    exact MessageLog.preparesFor_withPrepare_of_ne fun heq =>
      Nat.not_le_of_lt hlt (heq ▸ current)
  | keepCommit =>
    rw [MessageLog.preparesFor, MessageLog.prepares_withCommit, MessageLog.preparesFor]
  | keepViewChange live current near leads admits stored =>
    rw [MessageLog.storeViewChange?_eq_some stored, MessageLog.preparesFor,
      MessageLog.prepares_withViewChange, MessageLog.preparesFor]

theorem Consequence.preparesFor_eq (h : t.Consequence p rs q) {height : Height} {view : View}
    {hash : BlockHash} :
    q.log.preparesFor height view hash = p.log.preparesFor height view hash := by
  cases h with
  | @repropose view =>
    rw [MessageLog.preparesFor, prepares_install, Progress.log_claim, MessageLog.preparesFor]
  | @await view =>
    show (p.claim view).log.preparesFor _ _ _ = _
    rw [Progress.log_claim]
  | @commit m =>
    rcases t.commitTo_cases { p with phase := .prepared } m.blockHash with hcommit | ⟨-, hcommit⟩
    · rw [hcommit]
      rfl
    · rw [hcommit]
      show (p.log.withCommit _).preparesFor _ _ _ = _
      rw [MessageLog.preparesFor, MessageLog.prepares_withCommit, MessageLog.preparesFor]
  | decide => rfl

theorem Consequence.viewChanges_eq (h : t.Consequence p rs q) :
    q.log.viewChanges = p.log.viewChanges := by
  cases h with
  | @repropose view => rw [viewChanges_install, Progress.log_claim]
  | @await view =>
    show (p.claim view).log.viewChanges = _
    rw [Progress.log_claim]
  | commit => rw [viewChanges_commitTo]
  | decide => rfl

end Changes

/-! ## Runs are traces -/

/-- What a single consequence preserves, any number of them preserve. -/
theorem Trace.induct_consequences {P : Past → Prop}
    (consequence : ∀ {past : Past} {rs : List Request} {q : Progress}, t.Trace past →
      t.Consequence past.progress rs q → P past → P (past.settled rs q))
    {past : Past} (h : t.Trace past) (hP : P past) {rs : List Request} {p : Progress}
    (hc : t.Consequences past.progress rs p) :
    t.Trace (past.settled rs p) ∧ P (past.settled rs p) := by
  generalize hp : past.progress = q at hc
  induction hc generalizing past with
  | none q =>
    subst hp
    have hsame : past.settled [] past.progress = past := by
      rw [Past.settled, List.append_nil]
    rw [hsame]
    exact ⟨h, hP⟩
  | @more q q' p rs rs' first rest ih =>
    subst hp
    have hstep := ih (h.consequence first) (consequence h first hP) rfl
    simp only [Past.settled, List.append_assoc] at hstep
    exact hstep

theorem Trace.consequences {past : Past} (h : t.Trace past) {rs : List Request} {p : Progress}
    (hc : t.Consequences past.progress rs p) : t.Trace (past.settled rs p) :=
  (h.induct_consequences (P := fun _ => True) (fun _ _ _ => trivial) trivial hc).1

/-- What a run knows of the results of validations. -/
theorem Trace.validated {past : Past} (h : t.Trace past) {stimulus : Stimulus}
    (permits : t.Permits past stimulus) :
    ∀ m valid, stimulus = .event (.validationFinished m valid) → m.height = t.height := by
  rintro m valid rfl
  obtain ⟨⟨-, hproposed⟩, -⟩ := admitsProposal_iff.1 (h.examined permits).1
  exact hproposed.height_eq

/-- **Runs are traces, from rest to rest.** -/
theorem Run.trace_atRest {past : Past} (h : t.Run past) :
    t.Trace past ∧ t.AtRest past.progress := by
  induction h with
  | fresh =>
    have hvacant : ∀ m, MessageLog.empty.prePrepare? t.height 0 ≠ some m := fun m hm =>
      absurd (MessageLog.of_prePrepare?_eq_some hm).1 List.not_mem_nil
    exact ⟨.fresh, fun _ m hm => absurd hm (hvacant m), fun _ m hm => absurd hm (hvacant m),
      fun view hc => Nat.not_le_of_lt t.committee.quorum_pos hc.quorum⟩
  | @step past stimulus s run permits react ih =>
    obtain ⟨trace, rest⟩ := ih
    obtain ⟨⟨p, rs, rs', hact, hc, hrs⟩, hrest⟩ := react_cases (trace.validated permits) react
    refine ⟨?_, hrest trace.placed rest⟩
    have htrace := (trace.act permits rest hact).consequences hc
    simp only [Past.settled, Past.acted, List.append_assoc] at htrace
    rwa [Past.after, hrs]

theorem Run.trace {past : Past} (h : t.Run past) : t.Trace past := h.trace_atRest.1

theorem Consequences.grows {p q : Progress} {rs : List Request} (h : t.Consequences p rs q) :
    p.log.Grows q.log := by
  induction h with
  | none p => exact MessageLog.Grows.refl _
  | more first _ ih => exact first.grows.trans ih

/-- A run loses nothing. -/
theorem Run.before {past : Past} (h : t.Run past) {stimulus : Stimulus} {step : Step}
    (permits : t.Permits past stimulus) (react : t.react past.progress stimulus = .ok step) :
    past.Before (past.after stimulus step) := by
  obtain ⟨⟨p, rs, rs', hact, hc, -⟩, -⟩ := react_cases (h.trace.validated permits) react
  exact ⟨List.subset_append_left _ _, List.subset_append_left _ _, hact.grows.trans hc.grows⟩

/-- Between inputs, nothing is left to do. -/
theorem Run.atRest {past : Past} (h : t.Run past) : t.AtRest past.progress := h.trace_atRest.2

end Term

end CommitteeConsensus
