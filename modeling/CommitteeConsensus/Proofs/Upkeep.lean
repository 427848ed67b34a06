import CommitteeConsensus.Proofs.Indexes
import CommitteeConsensus.Proofs.Recovery

/-!
# Filter and term in step

A controller moves its filter and its term to a new height one after the other, and a call may
fail between the two.  Yet between calls an active term is of the height of the filter
(`Serves.inStep`), and the filter never goes back (`Controller.Move.filter_le`).

From there a controller can be started on a higher height, and the call goes on to its end
(`Controller.Course.ok_of_start`): as long as the host names committees and heights do not run out,
there is nothing that a call could stop at.  What is replayed was cached under the height that it
claims, and a term stops at no message of its height; and each height is started above the one
before.
-/

namespace CommitteeConsensus

/-! ## Messages of the height of a term -/

namespace Term

variable {t : Term} {p : Progress}

theorem checkViewChanges_ok (t : Term) (p : Progress) (view : View) :
    ∃ s, t.checkViewChanges p view = .ok s := by
  rw [checkViewChanges]
  dsimp only
  split
  · exact ⟨_, rfl⟩
  · split
    · next hlt =>
      rw [enterView_of_lt (p := { p with lastNewView := some view }) hlt]
      exact ⟨_, rfl⟩
    · exact ⟨_, rfl⟩

theorem onViewChange_ok (t : Term) (p : Progress) (m : ViewChange) :
    ∃ s, t.onViewChange p m = .ok s := by
  rw [onViewChange]
  split
  · exact ⟨_, rfl⟩
  · split
    · exact ⟨_, rfl⟩
    · split
      · exact ⟨_, rfl⟩
      · split
        · exact ⟨_, rfl⟩
        · exact checkViewChanges_ok _ _ _

theorem onNewView_ok (t : Term) (p : Progress) (m : NewView) : ∃ s, t.onNewView p m = .ok s := by
  rw [onNewView]
  dsimp only
  split
  · exact ⟨_, rfl⟩
  · split
    · exact ⟨_, rfl⟩
    · split
      · exact ⟨_, rfl⟩
      · split
        · next hlt =>
          rw [enterView_of_lt hlt]
          exact ⟨_, rfl⟩
        · exact ⟨_, rfl⟩

/-- **A term stops at no message of its height.** -/
theorem handleMessage_ok {m : Message} (h : m.height = t.height) (p : Progress) :
    ∃ s, t.handleMessage p m = .ok s := by
  unfold handleMessage
  rw [if_neg (not_not_intro h)]
  split
  · exact ⟨_, rfl⟩
  · split
    · exact ⟨_, rfl⟩
    · cases m with
      | prePrepare | prepare | commit => exact ⟨_, rfl⟩
      | viewChange m => exact onViewChange_ok t p m
      | newView m => exact onNewView_ok t p m

end Term

/-! ## Filters in order -/

/-- The filter keeps a list of entries, for the member and with the limits of its controller. -/
structure Controller.Tidy (c : Controller) : Prop where
  keeps : ∃ l, c.admission.Keeps l
  me : c.admission.me = c.capabilities.keys.me
  limits : c.admission.limits = c.config.limits

namespace Admission

variable {a : Admission} {l : List Entry} {height : Height} {release : Release}

theorem Keeps.setHeight (keeps : a.Keeps l) (free : a.setHeight height = .ok release) :
    release.admission.Keeps (above height l) := by
  rw [(release_eq_of_setHeight free).1]
  exact keeps.moved height

theorem Keeps.height_of_released (keeps : a.Keeps l) (free : a.setHeight height = .ok release) :
    ∀ m ∈ release.released, m.height = height := by
  intro m hm
  rw [(release_eq_of_setHeight free).2, keeps.released, List.mem_map] at hm
  obtain ⟨e, he, rfl⟩ := hm
  exact (mem_shelf.1 he).2

theorem gate_of_setHeight (free : a.setHeight height = .ok release) :
    release.admission.gate = (a.me, height, a.limits) := by
  rw [(release_eq_of_setHeight free).1]
  rfl

/-- A filter that moves does not go back, and does not reach the end. -/
theorem bounds_of_setHeight (free : a.setHeight height = .ok release) :
    a.height ≤ height ∧ height < maxWord := by
  rw [setHeight] at free
  split at free
  · exact absurd free (by simp)
  · next hup =>
    refine ⟨Nat.le_of_not_lt hup, ?_⟩
    rcases hnext : nextHeight height with fault | next
    · rw [hnext] at free
      exact absurd free (by simp [bind, Except.bind])
    · rw [nextHeight] at hnext
      split at hnext
      · next hsome => exact (nextHeight?_eq_some.1 hsome).1
      · exact absurd hnext (by simp)

/-- A filter moves to every height that is not below its own, but for the last. -/
theorem setHeight_ok (hup : a.height ≤ height) (hlast : height < maxWord) :
    ∃ release, a.setHeight height = .ok release := by
  rw [setHeight, if_neg (Nat.not_lt_of_le hup), nextHeight_of_lt hlast]
  exact ⟨_, rfl⟩

end Admission

namespace Controller

variable {moment : Moment} {c c' : Controller} {a a' : Agenda} {es : List Effect}

theorem Tidy.congr (h : c.Tidy) (setting : c'.setting = c.setting)
    (admission : c'.admission = c.admission) : c'.Tidy := by
  have hconfig : c'.config = c.config := congrArg Prod.fst setting
  have hcapabilities : c'.capabilities = c.capabilities := congrArg Prod.snd setting
  refine ⟨?_, ?_, ?_⟩
  · rw [admission]
    exact h.keeps
  · rw [admission, hcapabilities]
    exact h.me
  · rw [admission, hconfig]
    exact h.limits

/-- A filter is put in the place of another for the same member and limits. -/
theorem Tidy.replace (h : c.Tidy) {a : Admission} {l : List Entry} (keeps : a.Keeps l)
    (me : a.me = c.admission.me) (limits : a.limits = c.admission.limits) :
    Tidy { c with admission := a } :=
  ⟨⟨l, keeps⟩, me.trans h.me, limits.trans h.limits⟩

theorem admission_begun (c : Controller) (now : Nanoseconds) (height : Height)
    (committee : Committee) : (c.begun now height committee).admission = c.admission :=
  admission_followed _ _ _ _

theorem setting_begun (c : Controller) (now : Nanoseconds) (height : Height)
    (committee : Committee) : (c.begun now height committee).setting = c.setting :=
  setting_followed (c.leave height) now ((c.leave height).termAt height committee) _

theorem height?_begun (c : Controller) (now : Nanoseconds) (height : Height)
    (committee : Committee) : (c.begun now height committee).height? = some height :=
  height?_followed _ _ _ _

/-- The filter of a controller that started a height keeps what is above. -/
theorem Tidy.start (h : c.Tidy) {height : Height} {committee : Committee}
    {release : Admission.Release} (free : c.admission.setHeight height = .ok release) :
    Tidy { c.begun moment.now height committee with admission := release.admission } := by
  obtain ⟨l, keeps⟩ := h.keeps
  have hgate := Admission.gate_of_setHeight free
  have hbegun : (c.begun moment.now height committee).Tidy :=
    h.congr (setting_begun _ _ _ _) (admission_begun _ _ _ _)
  refine hbegun.replace (keeps.setHeight free) ?_ ?_
  · rw [admission_begun]
    exact congrArg Prod.fst hgate
  · rw [admission_begun]
    exact congrArg (fun gate => gate.2.2) hgate

/-- **Every move keeps the filter in order.** -/
theorem Move.tidy (move : Move moment c a es c' a') (h : c.Tidy) : c'.Tidy := by
  cases move with
  | begin | skip | succeed => exact h
  | adopt | commit => exact h.congr rfl rfl
  | @sift m answer offer =>
    obtain ⟨l, keeps⟩ := h.keeps
    obtain ⟨answer', l', hoffer, hgate, hkeeps⟩ := keeps.offer m
    obtain rfl := Except.ok.inj (offer.symm.trans hoffer)
    exact h.replace hkeeps (congrArg Prod.fst hgate) (congrArg (fun gate => gate.2.2) hgate)
  | react => exact h.congr (setting_followed _ _ _ _) (admission_followed _ _ _ _)
  | start check names free => exact h.start free

/-- **The filter never goes back.** -/
theorem Move.filter_le (move : Move moment c a es c' a') :
    c.admission.height ≤ c'.admission.height := by
  cases move with
  | begin | skip | succeed | adopt | commit => exact Nat.le_refl _
  | sift offer => exact Nat.le_of_eq (Admission.offered_of_offer offer).height.symm
  | @react t p _ metrics stimulus messages s =>
    exact Nat.le_of_eq (congrArg Admission.height (admission_followed c _ t s)).symm
  | @start height committee release check names free =>
    show _ ≤ release.admission.height
    rw [(Admission.freed_of_setHeight free).height_eq]
    exact (Admission.bounds_of_setHeight free).1

/-! ## In step -/

/-- The filter is in order, and an active term is of its height. -/
structure InStep (c : Controller) : Prop where
  tidy : c.Tidy
  level : ∀ height, c.height? = some height → c.admission.height = height

theorem InStep.replace (h : c.InStep) {a : Admission} {l : List Entry} (keeps : a.Keeps l)
    (gate : a.gate = c.admission.gate) : InStep { c with admission := a } := by
  refine ⟨h.tidy.replace keeps (congrArg Prod.fst gate) (congrArg (fun gate => gate.2.2) gate),
    fun height hheight => ?_⟩
  have hsame : a.height = c.admission.height := congrArg (fun gate => gate.2.1) gate
  exact hsame.trans (h.level height hheight)

/-- Without a term there is nothing to be in step with. -/
theorem InStep.leave (h : c.InStep) (height : Height) : (c.leave height).InStep :=
  ⟨h.tidy.congr rfl rfl, fun _ hnone => absurd hnone (by simp [height?, Controller.leave])⟩

/-- Every move keeps filter and term in step: only the start of a height changes either of the
heights, and it changes both. -/
theorem Move.inStep (move : Move moment c a es c' a') (h : c.InStep) : c'.InStep := by
  refine ⟨move.tidy h.tidy, ?_⟩
  cases move with
  | begin | skip | succeed | adopt | commit => exact h.level
  | sift offer =>
    intro height hheight
    rw [← h.level height hheight]
    exact (Admission.offered_of_offer offer).height
  | @react t p _ metrics stimulus messages s stage =>
    intro height hheight
    rw [admission_followed]
    rw [height?_followed] at hheight
    exact h.level height ((height?_of_stage stage).trans hheight)
  | @start next committee release check names free =>
    intro height hheight
    have hnext : some next = some height :=
      (height?_begun c moment.now next committee).symm.trans hheight
    rw [← Option.some.inj hnext]
    exact (Admission.freed_of_setHeight free).height_eq

end Controller

/-- **Between calls filter and term are in step**, whatever was called for, and after failed
calls as well. -/
theorem inStep_invariant (config : Config) (capabilities : Capabilities) :
    Service.Invariant config capabilities .anything fun _ c _ => c.InStep where
  fresh := ⟨⟨⟨[], Admission.keeps_start _ _ _⟩, rfl, rfl⟩, fun _ hnone => absurd hnone (by
    simp [Controller.height?, Controller.initial])⟩
  call := fun h _ => h
  move := fun move h => move.inStep h
  fail := by
    intro moment es es' c c' a error halt h
    cases halt with
    | sync => exact h
    | committee => exact h.leave _
  fire := fun h => ⟨h.tidy.congr rfl rfl, h.level⟩

theorem Serves.inStep {config : Config} {capabilities : Capabilities} {s : Service}
    (h : Serves config capabilities .anything s) (alive : s.Alive) : s.controller.InStep :=
  h.keeps (inStep_invariant config capabilities) alive

/-! ## Upward -/

/-- What is on the agenda of an active term of this height is of the height, or starts a height
above. -/
def Agenda.Upward (current : Height) : Agenda → Prop
  | .heed (.start height) => current < height
  | .heed _ => False
  | .hear messages => ∀ m ∈ messages, m.height = current
  | .close d => d.height = current
  | .succeed height => height = current
  | .start height => current < height

/-- What is on the agenda leaves a height that was decided. -/
def Agenda.Leaves (height : Height) : Agenda → Prop
  | .heed _ | .hear _ => False
  | .close d => d.height = height
  | .succeed below => below = height
  | .start next => next = height + 1

/-- The host names a committee of every height, whatever the seed. -/
def Moment.Willing (moment : Moment) : Prop :=
  ∀ height seed, ∃ committee, moment.Names height seed committee

/-- The host names every committee that it was asked for. -/
def Moment.Grants (moment : Moment) (es : List Effect) : Prop :=
  ∀ height seed, .askCommittee height seed ∈ es → ∃ committee, moment.Names height seed committee

theorem Moment.Willing.grants {moment : Moment} (h : moment.Willing) (es : List Effect) :
    moment.Grants es := fun height seed _ => h height seed

/-- The host names every committee that it was asked for, from a height on. -/
def Moment.GrantsFrom (low : Height) (moment : Moment) (es : List Effect) : Prop :=
  ∀ height seed, low ≤ height → .askCommittee height seed ∈ es →
    ∃ committee, moment.Names height seed committee

theorem Moment.Grants.grantsFrom {moment : Moment} {es : List Effect} (h : moment.Grants es)
    (low : Height) : moment.GrantsFrom low es := fun height seed _ => h height seed

theorem Moment.GrantsFrom.right {low : Height} {moment : Moment} {es es' : List Effect}
    (h : moment.GrantsFrom low (es ++ es')) : moment.GrantsFrom low es' :=
  fun height seed hle hmem => h height seed hle (List.mem_append_right _ hmem)

namespace Controller

variable {moment : Moment} {c c' : Controller} {a a' : Agenda} {es : List Effect} {low : Height}

/-- A controller on its way up from a height: term and filter are in step, there is a height
above, and the agenda leads there. -/
structure Rises (low : Height) (c : Controller) (a : Agenda) : Prop where
  inStep : c.InStep
  upward : ∃ current, c.height? = some current ∧ low ≤ current ∧ current < maxWord ∧
    a.Upward current

/-- **Every move leads on upward.** -/
theorem Move.rises (move : Move moment c a es c' a') (h : Rises low c a) : Rises low c' a' := by
  refine ⟨move.inStep h.inStep, ?_⟩
  obtain ⟨current, hcurrent, hlow, hlast, hupward⟩ := h.upward
  cases move with
  | begin | commit => exact ⟨current, hcurrent, hlow, hlast, hupward⟩
  | sift | adopt => exact hupward.elim
  | @react t p _ metrics stimulus messages s stage gives react =>
    have hheight : t.height = current := by
      rw [height?_of_stage stage] at hcurrent
      exact Option.some.inj hcurrent
    refine ⟨current, (height?_followed _ _ _ _).trans (congrArg some hheight), hlow, hlast, ?_⟩
    cases gives with
    | trigger | late => exact hupward.elim
    | message =>
      rcases hdecided : s.decision? with _ | d
      · exact fun m hm => hupward m (List.mem_cons_of_mem _ hm)
      · exact (Term.react_decision_height react hdecided).trans hheight
  | skip skips =>
    cases skips with
    | message stage =>
      rw [height?, stage] at hcurrent
      exact absurd hcurrent (by simp)
    | trigger | late | useless | unproven => exact hupward.elim
  | @succeed height next next_eq =>
    refine ⟨current, hcurrent, hlow, hlast, ?_⟩
    rw [eq_succ_of_nextHeight next_eq, show height = current from hupward]
    exact Nat.lt_succ_self current
  | @start height committee release check names free =>
    obtain ⟨l, keeps⟩ := h.inStep.tidy.keeps
    have habove : current < height := hupward
    exact ⟨height, height?_begun _ _ _ _, Nat.le_of_lt (Nat.lt_of_le_of_lt hlow habove),
      (Admission.bounds_of_setHeight free).2, keeps.height_of_released free⟩

/-- On the way up there is nothing to stop at, but for the end of all heights. -/
theorem Rises.not_halt (h : Rises low c a) {reason : Stop}
    (halt : Halt moment c a es c' reason) (grants : moment.GrantsFrom low es)
    (room : ∀ k ∈ startedIn es, k < maxWord) : False := by
  obtain ⟨current, hcurrent, hlow, hlast, hupward⟩ := h.upward
  cases halt with
  | sift | sync => exact hupward.elim
  | @react t p _ metrics stimulus messages fault stage gives react =>
    cases gives with
    | trigger | late => exact hupward.elim
    | @message m messages =>
      rw [height?_of_stage stage] at hcurrent
      have hheight : m.height = t.height :=
        (hupward m List.mem_cons_self).trans (Option.some.inj hcurrent).symm
      obtain ⟨s, hs⟩ := Term.handleMessage_ok hheight p
      replace react : t.handleMessage p m = .error fault := react
      rw [hs] at react
      exact absurd react (by simp)
  | @succeed height fault next_eq =>
    obtain rfl : height = current := hupward
    rw [nextHeight_of_lt hlast] at next_eq
    exact absurd next_eq (by simp)
  | @check height fault check =>
    have hbelow : current < height := hupward
    rw [checkStart, hcurrent] at check
    dsimp only at check
    rw [if_pos hbelow] at check
    exact absurd check (by simp)
  | @committee height reason check asks =>
    have habove : current < height := hupward
    obtain ⟨committee, names⟩ := grants height (c.leave height).seed
      (Nat.le_of_lt (Nat.lt_of_le_of_lt hlow habove)) List.mem_cons_self
    rw [committee_run_of_names names] at asks
    exact absurd asks (by simp)
  | @filter height committee fault check names free =>
    have hup : c.admission.height ≤ height := by
      rw [h.inStep.level current hcurrent]
      exact Nat.le_of_lt hupward
    have hroom : height < maxWord := by
      refine room height ?_
      rw [(heights_begunBy _ _ _ _).2]
      exact List.mem_cons_self
    obtain ⟨release, hfree⟩ := Admission.setHeight_ok hup hroom
    exact absurd (hfree.symm.trans free) (by simp)

/-- **A call that leads up goes on to its end**, if the host names committees and the heights
that are started do not reach the last one. -/
theorem Course.ok {o : Outcome Unit} (h : Course moment c a o) (rises : Rises low c a)
    (grants : moment.GrantsFrom low o.effects) (room : ∀ k ∈ startedIn o.effects, k < maxWord) :
    o.result = .ok () := by
  have hkept := @Course.induct moment (fun _ c a => Rises low c a)
    (fun move rises => move.rises rises) c a o h [] rises
  rcases hkept with
    ⟨hresult, -⟩ | ⟨c₁, a₁, body, tail, reason, -, heffects, hrises, hhalt⟩
  · exact hresult
  · rw [heffects] at grants
    refine (hrises.not_halt hhalt grants.right fun k hk => room k ?_).elim
    rw [heffects, startedIn_append]
    exact List.mem_append_right _ hk

/-- **A height that may be started is started**, with or without a term before it, if the host
names committees and the heights do not reach the last one. -/
theorem Course.ok_of_start {height : Height} {o : Outcome Unit}
    (h : Course moment c (.start height) o) (inStep : c.InStep)
    (check : c.checkStart height = .ok ()) (up : c.admission.height ≤ height)
    (last : height < maxWord) (grants : moment.GrantsFrom height o.effects)
    (room : ∀ k ∈ startedIn o.effects, k < maxWord) : o.result = .ok () := by
  cases h with
  | halt halt =>
    cases halt with
    | react stage gives => cases gives
    | check refused => exact absurd (check.symm.trans refused) (by simp)
    | committee _ asks =>
      obtain ⟨committee, names⟩ :=
        grants height (c.leave height).seed (Nat.le_refl height) List.mem_cons_self
      rw [committee_run_of_names names] at asks
      exact absurd asks (by simp)
    | filter _ names free =>
      obtain ⟨release, hfree⟩ := Admission.setHeight_ok up last
      exact absurd (hfree.symm.trans free) (by simp)
  | move move rest =>
    have hstep := move.inStep inStep
    cases move with
    | react stage gives => cases gives
    | skip skips => cases skips
    | @start _ committee release _ names free =>
      obtain ⟨l, keeps⟩ := inStep.tidy.keeps
      refine rest.ok ⟨hstep, height, height?_begun _ _ _ _, Nat.le_refl height, last, ?_⟩
        grants.right fun k hk => room k ?_
      · exact keeps.height_of_released free
      · rw [startedIn_append]
        exact List.mem_append_right _ hk

/-- A height that is being left is left at the start of the next one. -/
theorem Move.leaves {height : Height} (move : Move moment c a es c' a')
    (h : a.Leaves height ∨ height < c.admission.height) :
    a'.Leaves height ∨ height < c'.admission.height := by
  rcases h with h | h
  · cases move with
    | begin | sift | adopt => exact h.elim
    | skip skips => cases skips <;> exact h.elim
    | react stage gives => cases gives <;> exact h.elim
    | commit => exact Or.inl h
    | @succeed below next next_eq =>
      obtain rfl : below = height := h
      exact Or.inl (eq_succ_of_nextHeight next_eq)
    | @start next committee release check names free =>
      refine Or.inr ?_
      obtain rfl : next = height + 1 := h
      rw [(Admission.freed_of_setHeight free).height_eq]
      exact Nat.lt_succ_self height
  · exact Or.inr (Nat.lt_of_lt_of_le h move.filter_le)

/-- **A decision that was settled** leaves the filter above its height. -/
theorem Course.left {d : Decision} {o : Outcome Unit} (h : Course moment c (.close d) o)
    (ok : o.result = .ok ()) : d.height < o.controller.admission.height := by
  have hkept := @Course.induct moment
    (fun _ c a => a.Leaves d.height ∨ d.height < c.admission.height)
    (fun move leaves => move.leaves leaves) c (.close d) o h [] (Or.inl rfl)
  rcases hkept with ⟨-, hleft⟩ | ⟨c₁, a₁, body, tail, reason, hresult, -⟩
  · exact hleft.resolve_left fun h => h
  · exact absurd (ok.symm.trans hresult) (by simp)

end Controller

end CommitteeConsensus
