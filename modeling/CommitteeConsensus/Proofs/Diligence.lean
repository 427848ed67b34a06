import CommitteeConsensus.Proofs.Standing

/-!
# What a term does not leave undone

Nothing that a term takes in is lost on it.  A valid message has its effect, or it comes
too late for one; a proposal that went to the host is filed when the host is done with
it; and a view that a leader took on gets its block.  This is what makes it enough, for
a height to be decided, that all messages arrive and all requests are answered.

The effects are stated so that they stay (`Term.Heard`).  "The proposal is with the host" is
no such effect, and neither is "the leader waits for a block", so each of the two is
stated together with what it turns into: the view is *settled* (`Progress.Settled`), that
is, it has its proposal, or it was left, or the height is decided.  That nothing turns
back is said once, of one act and of one consequence (`Progress.Advances`).

All of it depends on the host.  A host that refuses a proposal may keep a member from
voting for ever, so the runs here are those in which it refuses none, and in which it
answers what it was asked for only (`Term.Served`).
-/

namespace CommitteeConsensus

/-! ## Where a view stands -/

namespace Progress

/-- A view is through: it was left, it has its proposal, or the height is decided. -/
def Settled (p : Progress) (view : View) : Prop :=
  view < p.view ∨ p.phase = .committed ∨ ∃ m ∈ p.log.prePrepares, m.view = view

/-- A view is through, or its proposal is with the host. -/
def Attended (p : Progress) (view : View) : Prop := p.Settled view ∨ p.validating = some view

/-- A view is through, or it waits for a block. -/
def Awaited (p : Progress) (view : View) : Prop :=
  p.Settled view ∨ ∃ votes, p.pendingNewView = some (view, votes)

/-- Nothing is lost between two progresses. -/
structure Advances (p q : Progress) : Prop where
  view : p.view ≤ q.view
  log : p.log.Grows q.log
  done : p.phase = .committed → q.phase = .committed
  attended : ∀ view, p.validating = some view → q.Attended view
  awaited : ∀ view votes, p.pendingNewView = some (view, votes) → q.Awaited view

variable {p q : Progress} {view : View}

theorem Settled.mono (h : p.Settled view) (advances : p.Advances q) : q.Settled view := by
  rcases h with hleft | hdone | ⟨m, hm, hview⟩
  · exact Or.inl (Nat.lt_of_lt_of_le hleft advances.view)
  · exact Or.inr (Or.inl (advances.done hdone))
  · exact Or.inr (Or.inr ⟨m, advances.log.prePrepares.subset hm, hview⟩)

theorem Attended.mono (h : p.Attended view) (advances : p.Advances q) : q.Attended view :=
  h.elim (fun hs => Or.inl (hs.mono advances)) (advances.attended view)

theorem Awaited.mono (h : p.Awaited view) (advances : p.Advances q) : q.Awaited view :=
  h.elim (fun hs => Or.inl (hs.mono advances)) fun ⟨votes, hp⟩ => advances.awaited view votes hp

/-- What is not touched is not lost. -/
theorem Advances.of_eq (view : q.view = p.view) (log : p.log.Grows q.log)
    (done : p.phase = .committed → q.phase = .committed) (validating : q.validating = p.validating)
    (pending : q.pendingNewView = p.pendingNewView) : p.Advances q where
  view := Nat.le_of_eq view.symm
  log := log
  done := done
  attended _ h := Or.inr (validating.trans h)
  awaited _ votes h := Or.inr ⟨votes, pending.trans h⟩

/-- Once the current view is through, nothing of it has to be kept. -/
theorem Advances.of_settled (view : p.view ≤ q.view) (log : p.log.Grows q.log)
    (done : p.phase = .committed → q.phase = .committed) (settled : q.Settled p.view)
    (examining : ∀ v, p.validating = some v → v = p.view)
    (waiting : ∀ v votes, p.pendingNewView = some (v, votes) → v = p.view) : p.Advances q where
  view := view
  log := log
  done := done
  attended v h := Or.inl (examining v h ▸ settled)
  awaited v votes h := Or.inl (waiting v votes h ▸ settled)

/-- A view whose proposal is held is through. -/
theorem settled_of_held {height : Height} (h : p.log.prePrepare? height view ≠ none) :
    p.Settled view := by
  obtain ⟨b, hb⟩ := Option.ne_none_iff_exists'.1 h
  obtain ⟨hmem, -, hview⟩ := MessageLog.of_prePrepare?_eq_some hb
  exact Or.inr (Or.inr ⟨b, hmem, hview⟩)

/-- So is a view whose proposal can't be filed, since there is one. -/
theorem settled_of_not_store {m : PrePrepare} (h : p.log.storePrePrepare? m = none) :
    p.Settled m.view := settled_of_held (MessageLog.storePrePrepare?_eq_none_iff.1 h)

/-- A view has its proposal once one is installed. -/
theorem settled_install (p : Progress) (m : PrePrepare) :
    (p.install m).progress.Settled m.view := by
  rw [install]
  split
  · next hnone => exact settled_of_not_store hnone
  · next log hlog =>
    exact Or.inr (Or.inr ⟨m, (MessageLog.mem_storePrePrepare? hlog).2 (Or.inl rfl), rfl⟩)

end Progress

namespace Term

variable {t : Term} {p q : Progress} {rs : List Request} {stimulus : Stimulus} {past : Past}

/-! ## A host that does its work -/

/-- What a host that does its work promises beyond what every caller does: it starts a term
in its first view, builds blocks that it was asked for, and finds every proposal valid. -/
def Serves (past : Past) : Stimulus → Prop
  | .start => past.progress.view = 0
  | .event (.proposalBuilt view _) => .buildProposal view ∈ past.requests
  | .event (.validationFinished _ valid) => valid = true
  | _ => True

/-- The runs with such a host. -/
inductive Served (t : Term) : Past → Prop where
  | fresh : Served t .fresh
  | step {past : Past} {stimulus : Stimulus} {step : Step} (served : Served t past)
    (permits : t.Permits past stimulus) (serves : Serves past stimulus)
    (react : t.react past.progress stimulus = .ok step) : Served t (past.after stimulus step)

theorem Served.run (h : t.Served past) : t.Run past := by
  induction h with
  | fresh => exact .fresh
  | step served permits serves react ih => exact .step ih permits react

theorem Served.eq_fresh (h : t.Served past) (htaken : past.taken = []) : past = .fresh := by
  cases h with
  | fresh => rfl
  | step => exact absurd htaken (List.append_ne_nil_of_right_ne_nil _ (List.cons_ne_nil _ _))

/-- What acts and consequences preserve holds in all runs. -/
theorem Served.induct {P : Past → Prop} (h : t.Served past) (fresh : P .fresh)
    (act : ∀ {past : Past} {stimulus : Stimulus} {rs : List Request} {q : Progress},
      t.Trace past → t.Permits past stimulus → Serves past stimulus →
        t.Act stimulus past.progress rs q → P past → P (past.acted stimulus rs q))
    (consequence : ∀ {past : Past} {rs : List Request} {q : Progress}, t.Trace past →
      t.Consequence past.progress rs q → P past → P (past.settled rs q)) : P past := by
  induction h with
  | fresh => exact fresh
  | @step past stimulus s served permits serves react ih =>
    obtain ⟨trace, rest⟩ := served.run.trace_atRest
    obtain ⟨⟨p, rs, rs', hact, hc, hrs⟩, -⟩ := react_cases (trace.validated permits) react
    obtain ⟨-, hdone⟩ := (trace.act permits rest hact).induct_consequences consequence
      (act trace permits serves hact ih) hc
    simp only [Past.settled, Past.acted, List.append_assoc] at hdone
    rwa [Past.after, hrs]

/-! ## Nothing is lost -/

theorem lt_view_reach {view : View} (h : p.view < view) : p.view < (p.reach view).view := by
  rwa [p.view_reach (Nat.le_of_lt h)]

theorem Act.advances (h : t.Act stimulus past.progress rs q) (serves : Serves past stimulus)
    (standing : t.Standing past.progress)
    (examining : ∀ v, past.progress.validating = some v → v = past.progress.view) :
    past.progress.Advances q := by
  have hwaiting : ∀ v votes, past.progress.pendingNewView = some (v, votes) →
      v = past.progress.view := fun v votes hp => (standing.pending v votes hp).1.1
  have hgrows := h.grows
  have hview := h.view_le
  generalize past.progress = p at h examining hwaiting hgrows hview
  cases h with
  | ignore | start | keepPrepare | keepCommit | keepViewChange =>
    exact .of_eq rfl hgrows id rfl rfl
  | @examine _ m view phase idle =>
    refine ⟨hview, hgrows, id, fun v hv => ?_, fun v votes hp => Or.inr ⟨votes, hp⟩⟩
    rw [view] at idle
    exact absurd (examining v hv ▸ hv) idle
  | @follow _ n live view idle =>
    by_cases hlt : p.view < n.signed.content.view
    · exact .of_settled hview hgrows (fun hdone => absurd hdone live)
        (Or.inl (lt_view_reach hlt)) examining
        hwaiting
    · have heq : p.view = n.signed.content.view := (view.resolve_left hlt).1
      refine ⟨hview, hgrows, fun hdone => absurd hdone live, fun v hv => ?_, fun v votes hp => ?_⟩
      · exact absurd (heq ▸ examining v hv ▸ hv) idle
      · refine Or.inr ⟨votes, ?_⟩
        show (p.reach n.signed.content.view).pendingNewView = _
        rwa [Progress.reach_of_not_lt p hlt]
  | @release _ m valid live view validating useless =>
    have hsettled : p.Settled m.view := Progress.settled_of_not_store (useless serves)
    rw [view] at hsettled
    exact .of_settled hview hgrows (fun hdone => absurd hdone live) hsettled examining hwaiting
  | @approve _ m log live view validating stored =>
    refine .of_settled hview hgrows (fun hdone => absurd hdone live)
      (Or.inr (Or.inr ⟨m, ?_, view⟩)) examining hwaiting
    rw [prePrepares_voteFor]
    exact (MessageLog.mem_storePrePrepare? stored).2 (Or.inl rfl)
  | @propose _ block hash live =>
    exact .of_settled hview hgrows (fun hdone => absurd hdone live)
      (p.settled_install (t.keys.prePrepare t.height p.view block hash)) examining hwaiting
  | @openPending _ block hash votes live =>
    exact .of_settled hview hgrows (fun hdone => absurd hdone live)
      ({ p with pendingNewView := none : Progress }.settled_install
        (t.keys.prePrepare t.height p.view block hash)) examining hwaiting
  | watch live | elapse live =>
    exact .of_settled hview hgrows (fun hdone => absurd hdone live)
      (Or.inl (lt_view_reach (Nat.lt_succ_self p.view))) examining hwaiting

theorem Consequence.advances (h : t.Consequence p rs q) (standing : t.Standing p)
    (examining : ∀ v, p.validating = some v → v = p.view) : p.Advances q := by
  have hwaiting : ∀ v votes, p.pendingNewView = some (v, votes) → v = p.view :=
    fun v votes hp => (standing.pending v votes hp).1.1
  have hgrows := h.grows
  have hview := h.view_le
  cases h with
  | @repropose view block hash claims =>
    refine .of_settled hview hgrows (fun hdone => absurd hdone claims.live) ?_ examining hwaiting
    rcases Nat.lt_or_eq_of_le claims.le with hlt | heq
    · refine Or.inl ?_
      rwa [view_install, p.view_claim claims.le]
    · rw [heq]
      exact (p.claim view).settled_install (t.keys.prePrepare t.height view block hash)
  | @await view claims =>
    rcases Nat.lt_or_eq_of_le claims.le with hlt | heq
    · exact .of_settled hview hgrows (fun hdone => absurd hdone claims.live)
        (Or.inl (lt_view_reach (p := { p with lastNewView := some view }) hlt)) examining hwaiting
    · refine ⟨hview, hgrows, fun hdone => absurd hdone claims.live, fun v hv => Or.inr ?_,
        fun v votes hp => ?_⟩
      · show (p.claim view).validating = some v
        rwa [Progress.claim, Progress.reach_of_not_lt _ (heq ▸ Nat.lt_irrefl p.view)]
      · obtain rfl : v = view := (hwaiting v votes hp).trans heq
        exact Or.inr ⟨_, rfl⟩
  | @commit m phase =>
    have hkept : (t.commitTo { p with phase := .prepared } m.blockHash).progress.validating =
        p.validating ∧
        (t.commitTo { p with phase := .prepared } m.blockHash).progress.pendingNewView =
          p.pendingNewView := by
      rw [commitTo]
      split
      · exact ⟨rfl, rfl⟩
      · exact ⟨rfl, rfl⟩
    exact .of_eq (t.view_commitTo _ _) hgrows
      (fun hdone => absurd (phase.symm.trans hdone) (by simp)) hkept.1 hkept.2
  | decide => exact .of_eq rfl hgrows (fun _ => rfl) rfl rfl

/-! ## What is under way -/

/-- What is under way was asked for, and what was asked for is through or under way. -/
structure UnderWay (t : Term) (past : Past) : Prop where
  /-- The host examines a proposal of the current view. -/
  examining : ∀ v, past.progress.validating = some v →
    v = past.progress.view ∧ ∃ m, .validateProposal m ∈ past.requests ∧ m.view = v
  examined : ∀ m, .validateProposal m ∈ past.requests →
    m.view ≤ past.progress.view ∧ past.progress.Attended m.view
  /-- The host builds a block for the current view. -/
  waiting : ∀ v votes, past.progress.pendingNewView = some (v, votes) →
    .buildProposal v ∈ past.requests
  awaited : ∀ v, .buildProposal v ∈ past.requests →
    (v ≤ past.progress.view ∧ t.leads v = true) ∧ (v = 0 ∨ past.progress.Awaited v)
  /-- A view that was taken on gets its block. -/
  claimed : ∀ v, past.progress.lastNewView = some v →
    v ≤ past.progress.view ∧ past.progress.Awaited v

section Shapes

theorem install_shape (p : Progress) (m : PrePrepare) :
    ∃ log phase, (p.install m).progress = { p with log, phase } := by
  rw [Progress.install]
  split
  · exact ⟨p.log, p.phase, rfl⟩
  · exact ⟨_, _, rfl⟩

theorem voteFor_shape (p : Progress) (m : PrePrepare) :
    ∃ log, (t.voteFor p m).progress = { p with log } := by
  rw [voteFor]
  split
  · exact ⟨p.log, rfl⟩
  · exact ⟨_, rfl⟩

theorem commitTo_shape (p : Progress) (hash : BlockHash) :
    ∃ log, (t.commitTo p hash).progress = { p with log } := by
  rw [commitTo]
  split
  · exact ⟨p.log, rfl⟩
  · exact ⟨_, rfl⟩

end Shapes

/-! ### Acts -/

section Acts

variable (h : t.Act stimulus p rs q)

include h

/-- A proposal that goes to the host is of the current view, and under examination. -/
theorem Act.examines {m : PrePrepare} (hm : .validateProposal m ∈ rs) :
    q.validating = some m.view ∧ q.view = m.view := by
  rcases h.validates hm with ⟨rfl, -⟩ | ⟨n, rfl, rfl, -⟩
  · cases h with
    | ignore => exact absurd hm List.not_mem_nil
    | examine view => exact ⟨rfl, view.symm⟩
  · cases h with
    | ignore => exact absurd hm List.not_mem_nil
    | follow live view idle admits =>
      obtain ⟨⟨-, hprop⟩, -⟩ := admitsNewView_iff.1 admits
      obtain ⟨⟨hview, -⟩, -⟩ := admitsProposal_iff.1 hprop
      have hle : p.view ≤ n.signed.content.view :=
        view.elim Nat.le_of_lt fun heq => Nat.le_of_eq heq.1
      rw [hview]
      exact ⟨rfl, p.view_reach hle⟩

theorem Act.under_examination {v : View} (hv : q.validating = some v) :
    (p.validating = some v ∧ q.view = p.view) ∨
      v = q.view ∧ ∃ m, .validateProposal m ∈ rs ∧ m.view = v := by
  have hexamines := fun m => h.examines (m := m)
  cases h with
  | ignore | start | keepPrepare | keepCommit | keepViewChange => exact Or.inl ⟨hv, rfl⟩
  | @examine _ m view =>
    obtain rfl := Option.some.inj hv
    exact Or.inr ⟨view, m, List.mem_singleton.2 rfl, rfl⟩
  | @follow _ n =>
    obtain rfl := Option.some.inj hv
    have hmem : Request.validateProposal n.prePrepare ∈ [.scheduleElection n.signed.content.view,
        .validateProposal n.prePrepare] := List.mem_cons_of_mem _ List.mem_cons_self
    obtain ⟨hvalidating, hview⟩ := hexamines n.prePrepare hmem
    have heq : n.signed.content.view = n.prePrepare.view := Option.some.inj hvalidating
    exact Or.inr ⟨heq.trans hview.symm, n.prePrepare, hmem, heq.symm⟩
  | release => exact absurd hv (by simp)
  | @approve _ m log =>
    obtain ⟨log', hshape⟩ := t.voteFor_shape
      { p with validating := none, log, phase := .collectingPrePrepare } m
    rw [hshape] at hv
    exact absurd hv (by simp)
  | @propose _ block hash =>
    obtain ⟨log, phase, hshape⟩ := install_shape p (t.keys.prePrepare t.height p.view block hash)
    rw [hshape] at hv ⊢
    exact Or.inl ⟨hv, rfl⟩
  | @openPending _ block hash =>
    obtain ⟨log, phase, hshape⟩ := install_shape { p with pendingNewView := none }
      (t.keys.prePrepare t.height p.view block hash)
    rw [hshape] at hv ⊢
    exact Or.inl ⟨hv, rfl⟩
  | watch =>
    rw [Progress.reach_of_lt p (Nat.lt_succ_self _)] at hv
    exact absurd hv (by simp)
  | elapse =>
    replace hv : (p.reach (p.view + 1)).validating = some v := hv
    rw [Progress.reach_of_lt p (Nat.lt_succ_self _)] at hv
    exact absurd hv (by simp)

/-- No act makes a member wait for a block. -/
theorem Act.waits {x : View × List Confirmation} (hx : q.pendingNewView = some x) :
    p.pendingNewView = some x := by
  have hreach : ∀ view, (p.reach view).pendingNewView = some x → p.pendingNewView = some x := by
    intro view hr
    rw [Progress.reach] at hr
    split at hr
    · exact absurd hr (by simp)
    · exact hr
  cases h with
  | ignore | start | keepPrepare | keepCommit | keepViewChange | examine | release => exact hx
  | follow | watch | elapse => exact hreach _ hx
  | @approve _ m log =>
    obtain ⟨log', hshape⟩ := t.voteFor_shape
      { p with validating := none, log, phase := .collectingPrePrepare } m
    rw [hshape] at hx
    exact hx
  | @propose _ block hash =>
    obtain ⟨log, phase, hshape⟩ := install_shape p (t.keys.prePrepare t.height p.view block hash)
    rw [hshape] at hx
    exact hx
  | @openPending _ block hash =>
    obtain ⟨log, phase, hshape⟩ := install_shape { p with pendingNewView := none }
      (t.keys.prePrepare t.height p.view block hash)
    rw [hshape] at hx
    exact absurd hx (by simp)

/-- A block is asked for when the term is started. -/
theorem Act.builds {v : View} (hv : .buildProposal v ∈ rs) :
    (stimulus = .start ∧ q = p) ∧ v = p.view ∧ t.leads v = true := by
  cases h with
  | ignore | release | keepPrepare | keepCommit | keepViewChange =>
    exact absurd hv List.not_mem_nil
  | start =>
    rcases mem_start hv with h | ⟨hleads, h⟩
    · exact absurd h (by simp)
    · obtain rfl := Request.buildProposal.inj h
      exact ⟨⟨rfl, rfl⟩, rfl, hleads⟩
  | examine => exact absurd (List.mem_singleton.1 hv) (by simp)
  | follow => simp at hv
  | approve =>
    rcases List.mem_cons.1 hv with h | h
    · exact absurd h (by simp)
    · exact absurd (mem_voteFor h).2 (by simp [broadcast])
  | propose | openPending =>
    rcases List.mem_cons.1 hv with h | h
    · exact absurd h (by simp [broadcast])
    · exact absurd (mem_install h) (by simp)
  | watch => exact absurd (List.mem_singleton.1 hv) (by simp)
  | elapse =>
    rcases List.mem_cons.1 hv with h | h
    · exact absurd h (by simp)
    · split at h
      · exact absurd h List.not_mem_nil
      · exact absurd (List.mem_singleton.1 h) (by simp)

/-- No act takes a view on. -/
theorem Act.lastNewView_eq : q.lastNewView = p.lastNewView := by
  cases h with
  | ignore | start | keepPrepare | keepCommit | keepViewChange | examine | release => rfl
  | follow | watch | elapse => exact p.lastNewView_reach
  | approve => exact t.lastNewView_voteFor _ _
  | @propose _ block hash =>
    obtain ⟨log, phase, hshape⟩ := install_shape p (t.keys.prePrepare t.height p.view block hash)
    rw [hshape]
  | @openPending _ block hash =>
    obtain ⟨log, phase, hshape⟩ := install_shape { p with pendingNewView := none }
      (t.keys.prePrepare t.height p.view block hash)
    rw [hshape]

end Acts

theorem UnderWay.act (underway : t.UnderWay past) (serves : Serves past stimulus)
    (standing : t.Standing past.progress) (h : t.Act stimulus past.progress rs q) :
    t.UnderWay (past.acted stimulus rs q) := by
  have hadvances := h.advances serves standing fun v hv => (underway.examining v hv).1
  refine ⟨fun v hv => ?_, fun m hm => ?_, fun v votes hp => ?_, fun v hv => ?_, fun v hv => ?_⟩
  · rcases h.under_examination hv with ⟨hold, hview⟩ | ⟨hview, m, hm, hmv⟩
    · obtain ⟨heq, m, hm, hmv⟩ := underway.examining v hold
      exact ⟨heq.trans hview.symm, m, List.mem_append_left _ hm, hmv⟩
    · exact ⟨hview, m, List.mem_append_right _ hm, hmv⟩
  · rcases List.mem_append.1 hm with hm | hm
    · obtain ⟨hle, hattended⟩ := underway.examined m hm
      exact ⟨Nat.le_trans hle hadvances.view, hattended.mono hadvances⟩
    · obtain ⟨hvalidating, hview⟩ := h.examines hm
      exact ⟨Nat.le_of_eq hview.symm, Or.inr hvalidating⟩
  · exact List.mem_append_left _ (underway.waiting v votes (h.waits hp))
  · rcases List.mem_append.1 hv with hv | hv
    · obtain ⟨⟨hle, hleads⟩, hawaited⟩ := underway.awaited v hv
      exact ⟨⟨Nat.le_trans hle hadvances.view, hleads⟩,
        hawaited.imp_right fun ha => ha.mono hadvances⟩
    · obtain ⟨⟨rfl, -⟩, rfl, hleads⟩ := h.builds hv
      exact ⟨⟨hadvances.view, hleads⟩, Or.inl serves⟩
  · replace hv : q.lastNewView = some v := hv
    rw [h.lastNewView_eq] at hv
    obtain ⟨hle, hawaited⟩ := underway.claimed v hv
    exact ⟨Nat.le_trans hle hadvances.view, hawaited.mono hadvances⟩

/-! ### Consequences -/

section Consequences

variable (h : t.Consequence p rs q)

include h

theorem Consequence.under_examination {v : View} (hv : q.validating = some v) :
    p.validating = some v ∧ q.view = p.view := by
  have hclaim : ∀ view, p.view ≤ view → (p.claim view).validating = some v →
      p.validating = some v ∧ view = p.view := by
    intro view hle hr
    rw [Progress.claim, Progress.reach] at hr
    split at hr
    · exact absurd hr (by simp)
    · next hlt => exact ⟨hr, Nat.le_antisymm (Nat.le_of_not_lt hlt) hle⟩
  cases h with
  | @repropose view block hash claims =>
    obtain ⟨log, phase, hshape⟩ :=
      install_shape (p.claim view) (t.keys.prePrepare t.height view block hash)
    rw [hshape] at hv ⊢
    obtain ⟨hold, heq⟩ := hclaim view claims.le hv
    exact ⟨hold, (p.view_claim claims.le).trans heq⟩
  | @await view claims =>
    obtain ⟨hold, heq⟩ := hclaim view claims.le hv
    exact ⟨hold, (p.view_claim claims.le).trans heq⟩
  | @commit m =>
    obtain ⟨log, hshape⟩ := t.commitTo_shape { p with phase := .prepared } m.blockHash
    rw [hshape] at hv ⊢
    exact ⟨hv, rfl⟩
  | decide => exact ⟨hv, rfl⟩

/-- A member waits for a block that it has asked for. -/
theorem Consequence.waits {v : View} {votes : List Confirmation}
    (hx : q.pendingNewView = some (v, votes)) :
    p.pendingNewView = some (v, votes) ∨ .buildProposal v ∈ rs := by
  cases h with
  | @repropose view block hash claims =>
    obtain ⟨log, phase, hshape⟩ :=
      install_shape (p.claim view) (t.keys.prePrepare t.height view block hash)
    rw [hshape] at hx
    replace hx : (p.claim view).pendingNewView = some (v, votes) := hx
    rw [Progress.claim, Progress.reach] at hx
    split at hx
    · exact absurd hx (by simp)
    · exact Or.inl hx
  | await =>
    obtain ⟨rfl, -⟩ := Prod.mk.inj (Option.some.inj hx)
    exact Or.inr (List.mem_append_right _ List.mem_cons_self)
  | @commit m =>
    obtain ⟨log, hshape⟩ := t.commitTo_shape { p with phase := .prepared } m.blockHash
    rw [hshape] at hx
    exact Or.inl hx
  | decide => exact Or.inl hx

/-- A block is asked for when a view is taken on. -/
theorem Consequence.builds {v : View} (hv : .buildProposal v ∈ rs) :
    (∃ votes, q.pendingNewView = some (v, votes)) ∧ v = q.view ∧ t.leads v = true := by
  cases h with
  | repropose =>
    rcases List.mem_append.1 hv with h | h
    · exact absurd (mem_arming h) (by simp)
    · rcases List.mem_cons.1 h with h | h
      · exact absurd h (by simp [broadcast])
      · exact absurd (mem_install h) (by simp)
  | @await view claims =>
    rcases List.mem_append.1 hv with h | h
    · exact absurd (mem_arming h) (by simp)
    · obtain rfl := Request.buildProposal.inj (List.mem_singleton.1 h)
      exact ⟨⟨_, rfl⟩, (p.view_claim claims.le).symm, claims.leads⟩
  | commit => exact absurd (mem_commitTo hv).2 (by simp [broadcast])
  | decide => simp at hv

/-- A view that is taken on is the current one, and has its block or waits for it. -/
theorem Consequence.claims : q.lastNewView = p.lastNewView ∨
    q.lastNewView = some q.view ∧ q.Awaited q.view := by
  cases h with
  | @repropose view block hash claims =>
    have hsettled :=
      (p.claim view).settled_install (t.keys.prePrepare t.height view block hash)
    obtain ⟨log, phase, hshape⟩ :=
      install_shape (p.claim view) (t.keys.prePrepare t.height view block hash)
    refine Or.inr ⟨?_, Or.inl ?_⟩
    · rw [hshape]
      show (p.claim view).lastNewView = some (p.claim view).view
      rw [p.view_claim claims.le, Progress.lastNewView_claim]
    · rw [view_install, p.view_claim claims.le]
      exact hsettled
  | @await view claims =>
    refine Or.inr ⟨?_, Or.inr ⟨(p.log.viewChangesFor t.height view).map (·.signed), ?_⟩⟩
    · show (p.claim view).lastNewView = some (p.claim view).view
      rw [p.view_claim claims.le, Progress.lastNewView_claim]
    · show some (view, _) = some ((p.claim view).view, _)
      rw [p.view_claim claims.le]
  | commit => exact Or.inl (t.lastNewView_commitTo _ _)
  | decide => exact Or.inl rfl

end Consequences

theorem UnderWay.consequence (underway : t.UnderWay past) (standing : t.Standing past.progress)
    (h : t.Consequence past.progress rs q) : t.UnderWay (past.settled rs q) := by
  have hadvances := h.advances standing fun v hv => (underway.examining v hv).1
  refine ⟨fun v hv => ?_, fun m hm => ?_, fun v votes hp => ?_, fun v hv => ?_, fun v hv => ?_⟩
  · obtain ⟨hold, hview⟩ := h.under_examination hv
    obtain ⟨heq, m, hm, hmv⟩ := underway.examining v hold
    exact ⟨heq.trans hview.symm, m, List.mem_append_left _ hm, hmv⟩
  · rcases List.mem_append.1 hm with hm | hm
    · obtain ⟨hle, hattended⟩ := underway.examined m hm
      exact ⟨Nat.le_trans hle hadvances.view, hattended.mono hadvances⟩
    · exact absurd hm h.not_validates
  · rcases h.waits hp with hold | hnew
    · exact List.mem_append_left _ (underway.waiting v votes hold)
    · exact List.mem_append_right _ hnew
  · rcases List.mem_append.1 hv with hv | hv
    · obtain ⟨⟨hle, hleads⟩, hawaited⟩ := underway.awaited v hv
      exact ⟨⟨Nat.le_trans hle hadvances.view, hleads⟩,
        hawaited.imp_right fun ha => ha.mono hadvances⟩
    · obtain ⟨hpending, hview, hleads⟩ := h.builds hv
      exact ⟨⟨Nat.le_of_eq hview, hleads⟩, Or.inr (Or.inr hpending)⟩
  · rcases h.claims with hsame | ⟨hlast, hawaited⟩
    · replace hv : q.lastNewView = some v := hv
      rw [hsame] at hv
      obtain ⟨hle, hold⟩ := underway.claimed v hv
      exact ⟨Nat.le_trans hle hadvances.view, hold.mono hadvances⟩
    · obtain rfl : q.view = v := Option.some.inj (hlast.symm.trans hv)
      exact ⟨Nat.le_refl _, hawaited⟩

/-- What a member has begun is through or under way. -/
theorem Served.underWay (h : t.Served past) : t.UnderWay past := by
  refine h.induct ?_ (fun trace _ serves act ih => ih.act serves trace.standing act)
    fun trace consequence ih => ih.consequence trace.standing consequence
  exact ⟨fun v hv => absurd hv (by simp [Past.fresh, Progress.initial]),
    fun m hm => absurd hm List.not_mem_nil,
    fun v votes hp => absurd hp (by simp [Past.fresh, Progress.initial]),
    fun v hv => absurd hv List.not_mem_nil,
    fun v hv => absurd hv (by simp [Past.fresh, Progress.initial])⟩

/-- The leader of the first view asks for a block when it is started. -/
theorem Served.builds (h : t.Served past) (leads : t.leads 0 = true)
    (hstart : .start ∈ past.taken) : .buildProposal 0 ∈ past.requests := by
  refine h.induct (P := fun past => .start ∈ past.taken → .buildProposal 0 ∈ past.requests)
    (fun hs => absurd hs List.not_mem_nil) ?_ ?_ hstart
  · intro past stimulus rs q trace permits serves act ih hs
    rcases List.mem_append.1 hs with hs | hs
    · exact List.mem_append_left _ (ih hs)
    · obtain rfl := List.mem_singleton.1 hs
      refine List.mem_append_right _ ?_
      replace serves : past.progress.view = 0 := serves
      generalize past.progress = p at act serves
      cases act with
      | ignore dismisses => exact dismisses.elim
      | start =>
        rw [start, serves, if_pos leads]
        exact List.mem_cons_of_mem _ List.mem_cons_self
  · exact fun _ _ ih hs => List.mem_append_left _ (ih hs)

/-! ## What is taken in has its effect -/

/-- What a valid message comes to, unless it is too late.  A vote may find another proposal
than the one it is for. -/
def Heeds (t : Term) (p : Progress) : Message → Prop
  | .prePrepare m => m.view = 0 → p.Attended 0
  | .prepare s => s.content.view < p.view ∨ p.phase = .committed ∨
    (∃ b ∈ p.log.prePrepares, b.view = s.content.view ∧ b.blockHash ≠ s.content.blockHash) ∨
      ∃ b ∈ p.log.prepares, (b.content.height = t.height ∧ b.content.view = s.content.view) ∧
        b.sender = s.sender
  | .commit s => s.content.view < p.view ∨ p.phase = .committed ∨
    (∃ b ∈ p.log.prePrepares, b.view = s.content.view ∧ b.blockHash ≠ s.content.blockHash) ∨
      ∃ b ∈ p.log.commits, (b.content.height = t.height ∧ b.content.view = s.content.view) ∧
        b.sender = s.sender
  | .viewChange m => t.leads m.view = true → m.view < p.view ∨ p.phase = .committed ∨
    ∃ b ∈ p.log.viewChangesFor t.height m.view, b.sender = m.sender
  | .newView m => 0 < m.signed.content.view → p.Attended m.signed.content.view

/-- What anything that is taken in comes to. -/
def Heard (t : Term) (p : Progress) : Stimulus → Prop
  | .message m => t.FindsValid m → m.view ≤ satAdd 0 t.viewsAhead → t.Heeds p m
  | .event (.proposalBuilt view (some _)) => p.Settled view
  | .event (.validationFinished m _) => p.Settled m.view
  | _ => True

theorem Heeds.mono {m : Message} (h : t.Heeds p m) (advances : p.Advances q) : t.Heeds q m := by
  rcases m with m | s | s | m | m
  · exact fun hview => (h hview).mono advances
  · refine h.imp (fun hlt => Nat.lt_of_lt_of_le hlt advances.view)
      (Or.imp advances.done (Or.imp ?_ ?_))
    · exact fun ⟨b, hb, hkey⟩ => ⟨b, advances.log.prePrepares.subset hb, hkey⟩
    · exact fun ⟨b, hb, hkey⟩ => ⟨b, advances.log.prepares.subset hb, hkey⟩
  · refine h.imp (fun hlt => Nat.lt_of_lt_of_le hlt advances.view)
      (Or.imp advances.done (Or.imp ?_ ?_))
    · exact fun ⟨b, hb, hkey⟩ => ⟨b, advances.log.prePrepares.subset hb, hkey⟩
    · exact fun ⟨b, hb, hkey⟩ => ⟨b, advances.log.commits.subset hb, hkey⟩
  · refine fun hleads => (h hleads).imp (fun hlt => Nat.lt_of_lt_of_le hlt advances.view)
      (Or.imp advances.done ?_)
    exact fun ⟨b, hb, hkey⟩ => ⟨b, advances.log.viewChangesFor.subset hb, hkey⟩
  · exact fun hpos => (h hpos).mono advances

theorem Heard.mono (h : t.Heard p stimulus) (advances : p.Advances q) : t.Heard q stimulus := by
  rcases stimulus with _ | m | view | ⟨view, _ | _⟩ | ⟨m, _⟩
  · trivial
  · exact fun hvalid hnear => (h hvalid hnear).mono advances
  · trivial
  · trivial
  · exact Progress.Settled.mono h advances
  · exact Progress.Settled.mono h advances

/-- A view in which the member is through with waiting has its proposal. -/
theorem Standing.settled_current (standing : t.Standing p) (member : t.observer = false)
    (collecting : p.phase = .collectingPrePrepare → p.Settled p.view)
    (moving : p.phase ≠ .viewChanging) : p.Settled p.view := by
  rcases hphase : p.phase
  · exact collecting hphase
  · obtain ⟨m, hm, -⟩ := standing.backed hphase member
    exact Progress.settled_of_held (Option.ne_none_iff_exists'.2 ⟨m, hm⟩)
  · exact Or.inr (Or.inl hphase)
  · exact absurd hphase moving

theorem exists_of_not_matchesProposal {view : View} {hash : BlockHash}
    (h : t.matchesProposal p view hash = false) :
    ∃ b ∈ p.log.prePrepares, b.view = view ∧ b.blockHash ≠ hash := by
  rw [matchesProposal] at h
  split at h
  · exact absurd h (by simp)
  · next m hm =>
    obtain ⟨hmem, -, hview⟩ := MessageLog.of_prePrepare?_eq_some hm
    exact ⟨m, hmem, hview, by simpa using h⟩

theorem not_tooFarAhead {view : View} (h : view ≤ satAdd 0 t.viewsAhead) :
    t.tooFarAhead p view = false := by
  have hmono : satAdd 0 t.viewsAhead ≤ satAdd p.view t.viewsAhead := by
    unfold satAdd
    omega
  rw [tooFarAhead, decide_eq_false_iff_not]
  exact Nat.not_lt_of_le (Nat.le_trans h hmono)

/-- A valid message is spared only where it has had its effect, or is too late. -/
theorem Spares.heeds {m : Message} (h : t.Spares p m) (height : m.height = t.height)
    (near : m.view ≤ satAdd 0 t.viewsAhead) (standing : t.Standing p)
    (member : t.observer = false) : t.Heeds p m := by
  rcases m with m | s | s | m | m
  · intro hzero
    rcases Nat.eq_zero_or_pos p.view with hfirst | hpos
    · rcases h with hother | hphase | hbusy | hheld
      · exact absurd (hzero.trans hfirst.symm) hother
      · refine Or.inl (hfirst ▸ standing.settled_current member (fun hc => absurd hc hphase) ?_)
        exact fun hmoving => Nat.ne_of_gt (standing.moving hmoving) hfirst
      · exact Or.inr (hbusy.trans (congrArg some hzero))
      · rw [hzero] at hheld
        exact Or.inl (Progress.settled_of_held hheld)
    · exact Or.inl (Or.inl hpos)
  · rcases h with hlate | hfar | hmisfit | hknown
    · exact Or.inl hlate
    · exact absurd (hfar.symm.trans (not_tooFarAhead near)) (by simp)
    · exact Or.inr (Or.inr (Or.inl (exists_of_not_matchesProposal hmisfit)))
    · rw [MessageLog.hasPrepareFrom, List.any_eq_true] at hknown
      simp only [Bool.and_eq_true, beq_iff_eq] at hknown
      exact Or.inr (Or.inr (Or.inr hknown))
  · rcases h with hlate | hfar | hmisfit | hknown
    · exact Or.inl hlate
    · exact absurd (hfar.symm.trans (not_tooFarAhead near)) (by simp)
    · exact Or.inr (Or.inr (Or.inl (exists_of_not_matchesProposal hmisfit)))
    · rw [MessageLog.hasCommitFrom, List.any_eq_true] at hknown
      simp only [Bool.and_eq_true, beq_iff_eq] at hknown
      exact Or.inr (Or.inr (Or.inr hknown))
  · intro hleads
    rcases h with hlate | hfar | hfollows | hknown
    · exact Or.inl hlate
    · exact absurd (hfar.symm.trans (not_tooFarAhead near)) (by simp)
    · exact absurd (hleads.symm.trans hfollows) (by simp)
    · obtain ⟨b, hb, hkey⟩ := MessageLog.storeViewChange?_eq_none hknown
      simp only [MessageLog.viewChangeKey, Prod.mk.injEq] at hkey
      obtain ⟨hheight, hview, hsender⟩ := hkey
      exact Or.inr (Or.inr ⟨b, MessageLog.mem_viewChangesFor.2
        ⟨hb, hheight.symm.trans height, hview.symm⟩, hsender.symm⟩)
  · intro hpos
    rcases h with hlate | ⟨hview, hphase⟩ | hbusy
    · exact Or.inl (Or.inl hlate)
    · rw [hview] at hpos ⊢
      refine Or.inl (standing.settled_current member (fun hc => ?_) hphase)
      rcases standing.opened hc with hzero | ⟨b, hb, hbview⟩
      · exact absurd hzero (Nat.ne_of_gt hpos)
      · exact Or.inr (Or.inr ⟨b, hb, hbview⟩)
    · exact Or.inr hbusy

/-- Nothing is dismissed that has not had its effect, unless it is too late. -/
theorem Dismisses.heard (h : t.Dismisses past.progress stimulus)
    (permits : t.Permits past stimulus) (serves : Serves past stimulus)
    (standing : t.Standing past.progress) (member : t.observer = false)
    (underway : t.UnderWay past) : t.Heard past.progress stimulus := by
  rcases stimulus with _ | m | view | ⟨view, _ | proposal⟩ | ⟨m, valid⟩
  · trivial
  · intro hvalid hnear
    rcases h with hdone | hinvalid | hspares
    · rcases m with m | s | s | m | m
      · exact fun _ => Or.inl (Or.inr (Or.inl hdone))
      · exact Or.inr (Or.inl hdone)
      · exact Or.inr (Or.inl hdone)
      · exact fun _ => Or.inr (Or.inl hdone)
      · exact fun _ => Or.inl (Or.inr (Or.inl hdone))
    · exact absurd hvalid hinvalid
    · exact hspares.heeds hvalid.height hnear standing member
  · trivial
  · trivial
  · obtain ⟨⟨hle, hleads⟩, hawaited⟩ := underway.awaited view serves
    rcases h with hdone | hother | hfollows | hnone | ⟨hfree, hlate⟩
    · exact Or.inr (Or.inl hdone)
    · exact Or.inl (Nat.lt_of_le_of_ne hle hother)
    · exact absurd (hleads.symm.trans hfollows) (by simp)
    · exact absurd hnone (by simp)
    · -- above the first view, the member has waited for this block
      rcases hlate with hpos | hheld
      · rcases hawaited.resolve_left hpos with hsettled | ⟨votes, hp⟩
        · exact hsettled
        · exact absurd (hfree.symm.trans hp) (by simp)
      · exact Progress.settled_of_held hheld
  · obtain ⟨hle, hattended⟩ := underway.examined m permits
    rcases h with hdone | hother | hidle
    · exact Or.inr (Or.inl hdone)
    · exact Or.inl (Nat.lt_of_le_of_ne hle hother)
    · exact hattended.resolve_right hidle

/-- What is taken in has its effect at once. -/
theorem Act.heard (h : t.Act stimulus past.progress rs q) (permits : t.Permits past stimulus)
    (serves : Serves past stimulus) (standing : t.Standing past.progress)
    (member : t.observer = false) (underway : t.UnderWay past) : t.Heard q stimulus := by
  have hdismissed := fun hd : t.Dismisses past.progress stimulus =>
    hd.heard permits serves standing member underway
  generalize past.progress = p at h hdismissed
  cases h with
  | ignore dismisses => exact hdismissed dismisses
  | start | watch | elapse => trivial
  | examine => exact fun _ _ hzero => Or.inr (congrArg some hzero)
  | follow => exact fun _ _ _ => Or.inr rfl
  | @release _ m valid live view validating useless =>
    have hsettled : p.Settled m.view := Progress.settled_of_not_store (useless serves)
    exact hsettled
  | @approve _ m log live view validating stored =>
    refine Or.inr (Or.inr ⟨m, ?_, rfl⟩)
    rw [prePrepares_voteFor]
    exact (MessageLog.mem_storePrePrepare? stored).2 (Or.inl rfl)
  | @propose _ block hash =>
    exact p.settled_install (t.keys.prePrepare t.height p.view block hash)
  | @openPending _ block hash =>
    exact { p with pendingNewView := none : Progress }.settled_install
      (t.keys.prePrepare t.height p.view block hash)
  | @keepPrepare _ s live mem height =>
    intro _ _
    obtain ⟨b, hb, hsender⟩ := MessageLog.exists_preparesFor_withPrepare p.log s
    obtain ⟨hmem, ⟨hheight, hview⟩, -⟩ := MessageLog.mem_preparesFor.1 hb
    exact Or.inr (Or.inr (Or.inr ⟨b, hmem, ⟨hheight.trans height, hview⟩, hsender⟩))
  | @keepCommit _ s live mem height =>
    intro _ _
    obtain ⟨b, hb, hsender⟩ := MessageLog.exists_commitsFor_withCommit p.log s
    obtain ⟨hmem, ⟨hheight, hview⟩, -⟩ := MessageLog.mem_commitsFor.1 hb
    exact Or.inr (Or.inr (Or.inr ⟨b, hmem, ⟨hheight.trans height, hview⟩, hsender⟩))
  | @keepViewChange _ m log live current near leads admits stored =>
    intro hvalid _ _
    obtain rfl := MessageLog.storeViewChange?_eq_some stored
    obtain ⟨b, hb, hsender⟩ := MessageLog.exists_viewChangesFor_withViewChange p.log m
    obtain ⟨hmem, hheight, hview⟩ := MessageLog.mem_viewChangesFor.1 hb
    exact Or.inr (Or.inr ⟨b, MessageLog.mem_viewChangesFor.2
      ⟨hmem, hheight.trans hvalid.height, hview⟩, hsender⟩)

/-- **Nothing is lost on a term.**  Everything that a member has taken in has had its
effect, or was too late for one. -/
theorem Served.heard (h : t.Served past) (member : t.observer = false) :
    t.UnderWay past ∧ ∀ stimulus ∈ past.taken, t.Heard past.progress stimulus := by
  refine h.induct (P := fun past => t.UnderWay past ∧
    ∀ stimulus ∈ past.taken, t.Heard past.progress stimulus) ?_ ?_ ?_
  · exact ⟨Served.fresh.underWay, fun stimulus hs => absurd hs List.not_mem_nil⟩
  · rintro past stimulus rs q trace permits serves act ⟨underway, ih⟩
    refine ⟨underway.act serves trace.standing act, fun taken htaken => ?_⟩
    rcases List.mem_append.1 htaken with hold | hnew
    · exact (ih taken hold).mono
        (act.advances serves trace.standing fun v hv => (underway.examining v hv).1)
    · rw [List.mem_singleton.1 hnew]
      exact act.heard permits serves trace.standing member underway
  · rintro past rs q trace consequence ⟨underway, ih⟩
    refine ⟨underway.consequence trace.standing consequence, fun taken htaken => ?_⟩
    exact (ih taken htaken).mono
      (consequence.advances trace.standing fun v hv => (underway.examining v hv).1)

end Term

end CommitteeConsensus
