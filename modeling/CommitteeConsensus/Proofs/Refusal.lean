import CommitteeConsensus.Proofs.Adoption
import CommitteeConsensus.Proofs.Passage

/-!
# A block that is turned down changes nothing

A block of the network comes unasked, at any moment of a height, and with whatever proof.  It is
turned down if it is behind the active height, does not match its proof, has no committee, or is
not proved to its committee (`Controller.Refuses`).  The controller is then what it was before, to
the last field, and the host was asked for a committee at the most.

Every other block is taken over (`Controller.sync_run_of_vouches`): it is counted, it becomes the
tip, and the next height is started from there, with the seed of its proof.  Its own height is not
committed again, since the call goes up from the next one, and nothing else is counted as a
decision of the network; the latter is what `Unsynced` is for.
-/

namespace CommitteeConsensus

/-! ## Counters -/

/-- What an effect reports. -/
def Effect.metric? : Effect → Option Metric
  | .report metric => some metric
  | _ => none

namespace Recorder

variable {r : Recorder} {k : Counter} {es : List Effect}

/-- The recorder of a host, after a controller did something to the world. -/
def after (r : Recorder) (es : List Effect) : Recorder := r.recordAll (es.filterMap (·.metric?))

theorem lookup_cons_of_ne {κ : Type} [DecidableEq κ] {key k : κ} (h : k ≠ key) (n : Nat)
    (l : List (κ × Nat)) : ((key, n) :: l).lookup k = l.lookup k := by
  rw [List.lookup_cons, beq_false_of_ne h]

theorem lookup_updateAt {κ : Type} [DecidableEq κ] {key k : κ} {absent : Nat} {f : Nat → Nat}
    (l : List (κ × Nat)) : (updateAt key absent f l).lookup k =
      if k = key then some (f ((l.lookup key).getD absent)) else l.lookup k := by
  induction l with
  | nil =>
    rw [updateAt]
    split
    · next h => rw [h, List.lookup_cons_self]; rfl
    · next h => exact lookup_cons_of_ne h _ _
  | cons entry rest ih =>
    obtain ⟨k', n⟩ := entry
    rw [updateAt]
    by_cases hkey : k' = key
    · subst hkey
      rw [if_pos rfl, List.lookup_cons_self]
      split
      · next h => rw [h, List.lookup_cons_self]; rfl
      · next h => rw [lookup_cons_of_ne h, lookup_cons_of_ne h]
    · rw [if_neg hkey, lookup_cons_of_ne (Ne.symm hkey)]
      by_cases h : k = k'
      · rw [h, List.lookup_cons_self, List.lookup_cons_self, if_neg hkey]
      · rw [lookup_cons_of_ne h, lookup_cons_of_ne h, ih]

/-- A counter grows by what is counted under it, and goes round. -/
theorem counter_record_count (r : Recorder) (k k' : Counter) (n : Nat) :
    (r.record (.count k' n)).counter k =
      if k = k' then (r.counter k + n) % (maxWord + 1) else r.counter k := by
  show ((updateAt k' 0 _ r.counters).lookup k).getD 0 = _
  rw [lookup_updateAt]
  split
  · next h =>
    subst h
    rfl
  · rfl

/-- A counter that nothing is counted under stays as it is. -/
theorem counter_after (r : Recorder) (none : ∀ n, .report (.count k n) ∉ es) :
    (r.after es).counter k = r.counter k := by
  induction es generalizing r with
  | nil => rfl
  | cons e es ih =>
    have hrest : ∀ n, .report (.count k n) ∉ es := fun n hn => none n (List.mem_cons_of_mem _ hn)
    rcases e with _ | _ | _ | _ | metric
    iterate 4 exact ih r hrest
    rcases metric with ⟨gauge, value⟩ | ⟨k', n⟩
    · exact ih (r.record (.set gauge value)) hrest
    · have hne : k ≠ k' := by
        rintro rfl
        exact none n List.mem_cons_self
      refine (ih (r.record (.count k' n)) hrest).trans ?_
      rw [counter_record_count, if_neg hne]

end Recorder

/-! ## What counts as a decision of the network -/

/-- No decision of the network is counted. -/
def Unsynced (es : List Effect) : Prop := ∀ n, .report (.count .decisionsBySync n) ∉ es

theorem unsynced_nil : Unsynced [] := fun _ => List.not_mem_nil

theorem Unsynced.append {es es' : List Effect} (h : Unsynced es) (h' : Unsynced es') :
    Unsynced (es ++ es') := fun n hn => (List.mem_append.1 hn).elim (h n) (h' n)

theorem Unsynced.cons {e : Effect} {es : List Effect} (h : Unsynced es)
    (first : ∀ n, e ≠ .report (.count .decisionsBySync n)) : Unsynced (e :: es) := fun n hn =>
  (List.mem_cons.1 hn).elim (fun heq => first n heq.symm) (h n)

theorem unsynced_reports {metrics : List Metric} (h : Plain metrics) :
    Unsynced (metrics.map .report) := by
  intro n hn
  obtain ⟨metric, hmetric, heq⟩ := List.mem_map.1 hn
  have hplain : (Metric.count .decisionsBySync n).Plain := Effect.report.inj heq ▸ h metric hmetric
  exact hplain.elim

/-- A call is in the middle of something. -/
def Agenda.Underway : Agenda → Prop
  | .heed _ => False
  | _ => True

namespace Controller

variable {moment : Moment} {c c' : Controller} {t : Term} {s : Step} {a a' : Agenda}
  {es : List Effect} {block : Block} {proof : BlockProof} {previous : Option BlockProof}

theorem unsynced_followedBy {now : Nanoseconds} (h : Plain s.metrics) :
    Unsynced (c.followedBy now t s) := by
  refine (unsynced_reports h).append fun n hn => ?_
  rcases mem_emitAll hn with ⟨recipients, m, heq⟩ | ⟨task, heq⟩ <;> exact absurd heq (by simp)

theorem unsynced_begunBy (c : Controller) (now : Nanoseconds) (height : Height)
    (committee : Committee) : Unsynced (c.begunBy now height committee) := by
  have hfollowed : Unsynced ((c.leave height).followedBy now ((c.leave height).termAt height
      committee) (c.firstStep height committee)) :=
    unsynced_followedBy (plain_view _)
  exact (hfollowed.cons fun n => by simp).cons fun n => by simp

/-- Only what a call is made for can count as a decision of the network. -/
theorem Move.unsynced (move : Move moment c a es c' a') (underway : a.Underway) :
    Unsynced es ∧ a'.Underway := by
  cases move with
  | begin | sift | adopt => exact underway.elim
  | @react t p _ metrics stimulus messages s stage gives react =>
    refine ⟨(unsynced_reports gives.plain).append
      (unsynced_followedBy (Term.plain_react _ _ s react)), ?_⟩
    cases s.decision? <;> trivial
  | skip skips =>
    cases skips with
    | message => exact ⟨unsynced_nil, trivial⟩
    | trigger | late | useless | unproven => exact underway.elim
  | commit => exact ⟨(unsynced_nil.cons fun n => by simp).cons fun n => by simp, trivial⟩
  | succeed => exact ⟨unsynced_nil, trivial⟩
  | @start height committee release check names free =>
    exact ⟨(unsynced_begunBy c moment.now height committee).append
      (unsynced_reports (Admission.plain_setHeight free)), trivial⟩

theorem Halt.unsynced {reason : Stop} (halt : Halt moment c a es c' reason) : Unsynced es := by
  cases halt with
  | sift | succeed | check => exact unsynced_nil
  | react stage gives => exact unsynced_reports gives.plain
  | sync | committee => exact unsynced_nil.cons fun n => by simp
  | filter => exact unsynced_begunBy _ _ _ _

theorem Course.unsynced {o : Outcome Unit} (h : Course moment c a o) (underway : a.Underway) :
    Unsynced o.effects := by
  have hkept := @Course.induct moment (fun es _ a => Unsynced es ∧ a.Underway)
    (fun move ⟨before, underway⟩ =>
      ⟨before.append (move.unsynced underway).1, (move.unsynced underway).2⟩)
    c a o h [] ⟨unsynced_nil, underway⟩
  rcases hkept with ⟨-, hend, -⟩ | ⟨c₁, a₁, body, tail, reason, -, heffects, ⟨hbody, -⟩, hhalt⟩
  · exact hend
  · rw [heffects]
    exact Unsynced.append hbody hhalt.unsynced

/-! ## Turning a block down -/

/-- **Why a block from the network is turned down**, and what the call comes to. -/
inductive Refuses (moment : Moment) (c : Controller) (block : Block) (proof : BlockProof)
    (previous : Option BlockProof) : Except Stop Unit → Prop where
  /-- It is behind the active height. -/
  | behind (behind : c.height?.any (proof.height < ·) = true) :
    Refuses moment c block proof previous (.ok ())
  /-- It does not match its proof. -/
  | misfit (current : c.height?.any (proof.height < ·) = false)
    (misfit : c.capabilities.matchesHash proof.height block proof.blockHash = false) :
    Refuses moment c block proof previous (.ok ())
  /-- The host does not name the committee of its height. -/
  | unnamed {error : HostError} (current : c.height?.any (proof.height < ·) = false)
    (fits : c.capabilities.matchesHash proof.height block proof.blockHash = true)
    (unnamed : moment.committeeOf proof.height (drawnBy previous) = .error error) :
    Refuses moment c block proof previous (.error (.failed error))
  /-- Its proof is not accepted by this committee. -/
  | unproven {committee : Committee} (current : c.height?.any (proof.height < ·) = false)
    (fits : c.capabilities.matchesHash proof.height block proof.blockHash = true)
    (names : moment.Names proof.height (drawnBy previous) committee)
    (rejects : committee.acceptsBlockProof c.capabilities.keys proof (drawnBy previous) = false) :
    Refuses moment c block proof previous (.ok ())

/-- A block that is turned down leaves the controller as it is. -/
theorem sync_run_of_refuses {result : Except Stop Unit}
    (refuses : c.Refuses moment block proof previous result) :
    (sync block proof previous).run moment c = ⟨c, [], result⟩ ∨
      (sync block proof previous).run moment c =
        ⟨c, [.askCommittee proof.height (drawnBy previous)], result⟩ := by
  cases refuses with
  | behind behind => exact Or.inl (sync_run_of_useless (Or.inl behind))
  | misfit _ misfit => exact Or.inl (sync_run_of_useless (Or.inr misfit))
  | @unnamed error current fits unnamed =>
    refine Or.inr (sync_run_of_stop current fits ?_)
    have hunnamed : moment.committeeOf proof.height ((previous.map (·.nextSeed)).getD 0) =
      .error error := unnamed
    simp only [Activity.run, Activity.committee, hunnamed]
  | unproven current fits names rejects =>
    exact Or.inr (sync_run_of_rejects current fits names rejects)

theorem Refuses.not_adopts {result : Except Stop Unit}
    (refuses : c.Refuses moment block proof previous result) :
    ¬c.Adopts moment block proof previous := by
  rcases sync_run_of_refuses refuses with hrun | hrun <;> rw [Adopts, hrun] <;> simp

/-- A block that is vouched for is taken over, and the next height is started. -/
theorem sync_run_of_vouches {committee : Committee}
    (current : c.height?.any (proof.height < ·) = false)
    (fits : c.capabilities.matchesHash proof.height block proof.blockHash = true)
    (vouches : Vouches moment c.capabilities.keys proof previous committee)
    (room : proof.height < maxWord) :
    (sync block proof previous).run moment c =
      let next := (setHeight (proof.height + 1)).run moment { c with tip := some ⟨block, proof⟩ }
      ⟨next.controller, .askCommittee proof.height (drawnBy previous) ::
        .report (.count .decisionsBySync 1) :: next.effects, next.result⟩ := by
  rw [sync_run_of_accepts current fits vouches.1 vouches.2, nextHeight_of_lt room]
  rfl

/-- A block is turned down, or vouched for, unless its committee has no members. -/
theorem refuses_or_vouches (moment : Moment) (c : Controller) (block : Block) (proof : BlockProof)
    (previous : Option BlockProof)
    (peopled : moment.committeeOf proof.height (drawnBy previous) ≠ .ok []) :
    (∃ result, c.Refuses moment block proof previous result) ∨
      c.height?.any (proof.height < ·) = false ∧
        c.capabilities.matchesHash proof.height block proof.blockHash = true ∧
          ∃ committee, Vouches moment c.capabilities.keys proof previous committee := by
  rcases hbehind : c.height?.any (proof.height < ·) with _ | _
  swap
  · exact Or.inl ⟨_, .behind hbehind⟩
  rcases hfits : c.capabilities.matchesHash proof.height block proof.blockHash with _ | _
  · exact Or.inl ⟨_, .misfit hbehind hfits⟩
  rcases hmembers : moment.committeeOf proof.height (drawnBy previous) with error | members
  · exact Or.inl ⟨_, .unnamed hbehind hfits hmembers⟩
  have hne : members ≠ [] := by
    rintro rfl
    exact peopled hmembers
  have hnames : moment.Names proof.height (drawnBy previous) ⟨members, hne⟩ :=
    ⟨members, hmembers, dif_neg hne⟩
  rcases haccepts : Committee.acceptsBlockProof ⟨members, hne⟩ c.capabilities.keys proof
    (drawnBy previous) with _ | _
  · exact Or.inl ⟨_, .unproven hbehind hfits hnames haccepts⟩
  · exact Or.inr ⟨rfl, rfl, _, hnames, haccepts⟩

/-- Starting a height begins with asking for its committee, with the seed of the tip. -/
theorem head_setHeight {height : Height} (check : c.checkStart height = .ok ()) :
    ((setHeight height).run moment c).effects.head? = some (.askCommittee height c.seed) := by
  rcases committee_run moment height (c.leave height).seed (c.leave height) with
    ⟨committee, names, hasks⟩ | ⟨reason, hasks⟩
  · rw [setHeight, startHeight_run check hasks rfl]
    rfl
  · rw [setHeight, startHeight_run_error check hasks]
    rfl

/-- **A block that is turned down changes nothing, and every other one is taken over.**  In the
first case the controller stays as it is, nothing is sent, committed or counted, and the call goes
well unless the committee was not to be had.  In the second case, below the last heights, the
decision of the network is counted once, the block becomes the tip, and the next height is started
with the seed of its proof; its own height is not committed. -/
theorem sync_refused_or_taken_over (moment : Moment) (c : Controller) (block : Block)
    (proof : BlockProof) (previous : Option BlockProof) :
    let o := (sync block proof previous).run moment c
    let taken : Controller := { c with tip := some ⟨block, proof⟩ }
    let next := (setHeight (proof.height + 1)).run moment taken
    (∀ result, c.Refuses moment block proof previous result →
      (o.controller = c ∧ o.result = result) ∧
        (∀ e ∈ o.effects, e = .askCommittee proof.height (drawnBy previous)) ∧
        ∀ r : Recorder, r.after o.effects = r) ∧
    ((∀ result, ¬c.Refuses moment block proof previous result) →
      moment.committeeOf proof.height (drawnBy previous) ≠ .ok [] →
      proof.height + 1 < maxWord →
        o = ⟨next.controller, .askCommittee proof.height (drawnBy previous) ::
            .report (.count .decisionsBySync 1) :: next.effects, next.result⟩ ∧
          (taken.checkStart (proof.height + 1) = .ok () ∧
            next.effects.head? = some (.askCommittee (proof.height + 1) proof.nextSeed)) ∧
          proof.height ∉ committedIn o.effects ∧
          ∀ r : Recorder, (r.after o.effects).counter .decisionsBySync =
            (r.counter .decisionsBySync + 1) % (maxWord + 1)) := by
  intro o taken next
  refine ⟨fun result refuses => ?_, fun unrefused peopled room => ?_⟩
  · rcases sync_run_of_refuses refuses with hrun | hrun
    · rw [show o = _ from hrun]
      exact ⟨⟨rfl, rfl⟩, fun _ he => absurd he List.not_mem_nil, fun _ => rfl⟩
    · rw [show o = _ from hrun]
      exact ⟨⟨rfl, rfl⟩, fun _ he => List.mem_singleton.1 he, fun _ => rfl⟩
  obtain ⟨current, fits, committee, vouches⟩ :=
    (refuses_or_vouches moment c block proof previous peopled).resolve_left
      fun ⟨result, refuses⟩ => unrefused result refuses
  have hrun : o = _ := sync_run_of_vouches current fits vouches (Nat.lt_of_succ_lt room)
  have hcheck : taken.checkStart (proof.height + 1) = .ok () := by
    refine checkStart_of_lt fun height hheight => Nat.lt_succ_of_le ?_
    have hactive : c.height? = some height := hheight
    rw [hactive] at current
    simpa using current
  have hcourse : Course moment taken (.start (proof.height + 1)) next := course_setHeight
  obtain ⟨low, top, high, hpassage⟩ := hcourse.passage (Passes.start taken (proof.height + 1))
  refine ⟨hrun, ⟨hcheck, head_setHeight hcheck⟩, ?_, fun r => ?_⟩
  · rw [hrun]
    intro hmem
    have hnext : proof.height ∈ committedIn next.effects := hmem
    exact absurd (hpassage.mem_commits.1 hnext).1 (Nat.not_succ_le_self _)
  · rw [hrun]
    show ((r.record (.count .decisionsBySync 1)).after next.effects).counter _ = _
    rw [Recorder.counter_after _ (hcourse.unsynced trivial), Recorder.counter_record_count,
      if_pos rfl]

end Controller

namespace Lives

/-- At height `5`, a block of height `4` changes nothing, and a block that the committee of the
term proves is counted. -/
theorem sync_refused_or_taken_over_divided :
    let c := dividedLife.session.controller
    let past := (Controller.sync (Assembly.plainBlock 4) (Assembly.soloProof 2 4 0) none).run
      dividedMoment c
    let due := (Controller.sync (Assembly.plainBlock 5) (Assembly.soloProof 2 5 0) none).run
      dividedMoment c
    (past.controller = c ∧ past.result = .ok ()) ∧
      (Recorder.empty.after due.effects).counter .decisionsBySync = 1 := by
  intro c past due
  obtain ⟨hrefused, -⟩ := Controller.sync_refused_or_taken_over dividedMoment c
    (Assembly.plainBlock 4) (Assembly.soloProof 2 4 0) none
  obtain ⟨-, htaken⟩ := Controller.sync_refused_or_taken_over dividedMoment c
    (Assembly.plainBlock 5) (Assembly.soloProof 2 5 0) none
  have hadopts : c.Adopts dividedMoment (Assembly.plainBlock 5) (Assembly.soloProof 2 5 0) none := by
    decide +kernel
  obtain ⟨-, -, -, hcounted⟩ := htaken (fun result refuses => refuses.not_adopts hadopts)
    (by decide) (by decide)
  exact ⟨(hrefused _ (.behind (by decide +kernel))).1, hcounted Recorder.empty⟩

end Lives

end CommitteeConsensus
