import CommitteeConsensus.Proofs.Lineage
import CommitteeConsensus.Proofs.Service

/-!
# Heights after a failed call

A host that is told that no committee was to be had keeps its controller and calls it again.
What is left then is a controller without a term.  It has cleared what it stored of lower
heights, but its filter is still at the height before.  Nothing tells the controller which
heights it had started.

A call to start a height is the host's own doing, so it can be asked to go up.  A block from the
network is not.  An active term refuses the blocks of lower heights; without a term there is
nothing to compare with, and an old block with a proof that holds is taken over.  The height
above it is started again, whether or not it was decided (`not_never_go_back`).  So heights go
up, after failures as well, under one condition: no block that is behind comes while no term is
active (`heights_never_go_back`).

Only three things matter to the argument: the heights that were committed, those that were
started, and the height of the active term.  `Climb` relates them to what is on the agenda.
-/

namespace CommitteeConsensus

/-! ## Decisions are of the term's height -/

namespace Term

variable {t : Term} {p q : Progress} {rs : List Request} {d : Decision} {stimulus : Stimulus}

theorem Consequences.decision_height (h : t.Consequences p rs q) (hd : .decide d ∈ rs) :
    d.height = t.height := by
  induction h with
  | none => exact absurd hd List.not_mem_nil
  | more first rest ih =>
    rcases List.mem_append.1 hd with hd | hd
    · obtain ⟨m, -, -, rfl⟩ := first.decides hd
      rfl
    · exact ih hd

/-- Whatever a term takes in, what it decides is of its height. -/
theorem react_decision_height {s : Step} (h : t.react p stimulus = .ok s)
    (hd : s.decision? = some d) : d.height = t.height := by
  obtain ⟨p₁, rs₁, rs₂, hact, hconsequences, hrequests⟩ := react_drawn h
  have hmem : .decide d ∈ s.requests :=
    mem_decisionsIn.1 (List.mem_of_mem_head? (Option.mem_def.2 hd))
  rw [hrequests] at hmem
  rcases List.mem_append.1 hmem with hmem | hmem
  · exact absurd hmem hact.not_decides
  · exact hconsequences.decision_height hmem

end Term

/-! ## Climbing -/

/-- What was committed is below the active term. -/
def OpenAt (commits : List Height) (current : Option Height) : Prop :=
  ∀ height, current = some height → ∀ k ∈ commits, k < height

/-- What is on the agenda leads up from what was committed and started. -/
def Agenda.LeadsUp (commits starts : List Height) (current : Option Height) : Agenda → Prop
  | .heed (.start height) => ∀ k ∈ starts, k < height
  | .heed (.input (.sync _ proof _)) =>
    OpenAt commits current ∧ (current = none → ∀ k ∈ starts, k ≤ proof.height)
  | .heed _ => OpenAt commits current
  | .hear _ => OpenAt commits current
  | .close d => current = some d.height ∧ ∀ k ∈ commits, k < d.height
  | .succeed height => ∀ k ∈ starts, k ≤ height
  | .start height => ∀ k ∈ starts, k < height

/-- The heights that were committed and started ascend.  No committed height is above all that
were started, and the active term is of the height that was started last. -/
structure Climb (commits starts : List Height) (current : Option Height) (a : Agenda) : Prop where
  commits_ascend : commits.Pairwise (· < ·)
  starts_ascend : starts.Pairwise (· < ·)
  started : ∀ k ∈ commits, ∃ j ∈ starts, k ≤ j
  active : ∀ height, current = some height → height ∈ starts ∧ ∀ k ∈ starts, k ≤ height
  leadsUp : a.LeadsUp commits starts current

namespace Climb

variable {commits starts : List Height} {current : Option Height} {a a' : Agenda}

/-- The agenda changes, and nothing else. -/
theorem turn (h : Climb commits starts current a) (leadsUp : a'.LeadsUp commits starts current) :
    Climb commits starts current a' :=
  ⟨h.commits_ascend, h.starts_ascend, h.started, h.active, leadsUp⟩

/-- There is no term any more. -/
theorem leave (h : Climb commits starts current a) : Climb commits starts none (.hear []) :=
  ⟨h.commits_ascend, h.starts_ascend, h.started, fun _ hnone => absurd hnone (by simp),
    fun _ hnone => absurd hnone (by simp)⟩

/-- The height of the active term is committed. -/
theorem commit {d : Decision} (h : Climb commits starts current (.close d)) :
    Climb (commits ++ [d.height]) starts current (.succeed d.height) := by
  obtain ⟨hcurrent, hbelow⟩ := h.leadsUp
  obtain ⟨hstarted, hhighest⟩ := h.active d.height hcurrent
  refine ⟨pairwise_lt_snoc h.commits_ascend hbelow, h.starts_ascend, fun k hk => ?_, h.active,
    hhighest⟩
  rcases List.mem_append.1 hk with hk | hk
  · exact h.started k hk
  · rw [List.mem_singleton.1 hk]
    exact ⟨d.height, hstarted, Nat.le_refl _⟩

/-- A height above all others is started. -/
theorem start {height : Height} {messages : List Message}
    (h : Climb commits starts current (.start height)) :
    Climb commits (starts ++ [height]) (some height) (.hear messages) := by
  have habove : ∀ k ∈ starts, k < height := h.leadsUp
  refine ⟨h.commits_ascend, pairwise_lt_snoc h.starts_ascend habove, fun k hk => ?_, ?_, ?_⟩
  · obtain ⟨j, hj, hle⟩ := h.started k hk
    exact ⟨j, List.mem_append_left _ hj, hle⟩
  · intro height' heq
    obtain rfl := Option.some.inj heq
    refine ⟨List.mem_append_right _ List.mem_cons_self, fun k hk => ?_⟩
    rcases List.mem_append.1 hk with hk | hk
    · exact Nat.le_of_lt (habove k hk)
    · exact Nat.le_of_eq (List.mem_singleton.1 hk)
  · intro height' heq k hk
    obtain rfl := Option.some.inj heq
    obtain ⟨j, hj, hle⟩ := h.started k hk
    exact Nat.lt_of_le_of_lt hle (habove j hj)

end Climb

/-! ## Calls climb -/

/-- A host that starts heights only above all that were started. -/
def Policy.rising : Policy := fun es _ cue =>
  match cue with
  | .start height => ∀ k ∈ startedIn es, k < height
  | _ => True

/-- Such a host, in a network from which no block that is behind comes while no term is
active. -/
def Policy.forward : Policy := fun es c cue =>
  Policy.rising es c cue ∧
    match cue with
    | .input (.sync _ proof _) => c.height? = none → ∀ k ∈ startedIn es, k ≤ proof.height
    | _ => True

namespace Controller

variable {moment : Moment} {c c' : Controller} {t : Term} {p : Progress} {a a' : Agenda}
  {es es' : List Effect}

theorem height?_of_stage (stage : c.stage = .running t p) : c.height? = some t.height := by
  rw [height?, stage]

theorem height?_followed (c : Controller) (now : Nanoseconds) (t : Term) (s : Step) :
    (c.followed now t s).height? = some t.height :=
  height?_of_stage (resembles_followed c now t s).stage

theorem Gives.openAt {metrics : List Metric} {stimulus : Stimulus} {messages : List Message}
    {commits starts : List Height} {current : Option Height}
    (gives : Gives t p a metrics stimulus messages) (h : a.LeadsUp commits starts current) :
    OpenAt commits current := by
  cases gives <;> exact h

theorem Skips.openAt {messages : List Message} {commits starts : List Height}
    {current : Option Height} (skips : Skips moment c a es messages)
    (h : a.LeadsUp commits starts current) : OpenAt commits current := by
  cases skips with
  | message | trigger | late => exact h
  | useless | unproven => exact h.1

/-- What a controller did to the world climbs to where it is. -/
def Climbs (es : List Effect) (c : Controller) (a : Agenda) : Prop :=
  Climb (committedIn es) (startedIn es) c.height? a

/-- Effects that say nothing of heights. -/
theorem Climbs.quiet (h : Climbs es c a) (uneventful : Uneventful es')
    (same : c'.height? = c.height?)
    (leadsUp : a'.LeadsUp (committedIn es) (startedIn es) c.height?) :
    Climbs (es ++ es') c' a' := by
  obtain ⟨hcommits, hstarts⟩ := uneventful
  rw [Climbs, committedIn_append, startedIn_append, hcommits, hstarts, List.append_nil,
    List.append_nil, same]
  exact h.turn leadsUp

/-- **Every move climbs.** -/
theorem Move.climbs (move : Move moment c a es' c' a') (h : Climbs es c a) :
    Climbs (es ++ es') c' a' := by
  cases move with
  | begin => exact h.quiet uneventful_nil rfl h.leadsUp
  | sift offer =>
    exact h.quiet (uneventful_reports (Admission.plain_offer offer)) rfl h.leadsUp
  | @react t p _ metrics stimulus messages s stage gives react =>
    have hquiet : Uneventful (metrics.map .report ++ c.followedBy moment.now t s) :=
      (uneventful_reports gives.plain).append
        (uneventful_followedBy (Term.plain_react _ _ s react))
    have hcurrent : c.height? = some t.height := height?_of_stage stage
    refine h.quiet hquiet ((height?_followed c _ t s).trans hcurrent.symm) ?_
    have hopen : OpenAt (committedIn es) c.height? := gives.openAt h.leadsUp
    rcases hdecided : s.decision? with _ | d
    · exact hopen
    · have hheight : d.height = t.height := Term.react_decision_height react hdecided
      refine ⟨by rw [hheight, hcurrent], fun k hk => ?_⟩
      rw [hheight]
      exact hopen t.height hcurrent k hk
  | skip skips => exact h.quiet skips.uneventful rfl (skips.openAt h.leadsUp)
  | @adopt block proof previous committee current =>
    refine h.quiet ⟨rfl, rfl⟩ rfl fun k hk => ?_
    rcases hheight : c.height? with _ | height
    · exact h.leadsUp.2 hheight k hk
    · have hle : height ≤ proof.height := by
        rw [hheight] at current
        simpa using current
      exact Nat.le_trans ((h.active height hheight).2 k hk) hle
  | @commit d =>
    rw [Climbs, committedIn_append, startedIn_append]
    show Climb (_ ++ [d.height]) (_ ++ []) c.height? _
    rw [List.append_nil]
    exact Climb.commit h
  | @succeed height next next_eq =>
    refine h.quiet uneventful_nil rfl fun k hk => ?_
    rw [eq_succ_of_nextHeight next_eq]
    exact Nat.lt_succ_of_le (h.leadsUp k hk)
  | @start height committee release check names free =>
    obtain ⟨hcommits, hstarts⟩ := heights_begunBy c moment.now height committee
    obtain ⟨hquiet, hquiet'⟩ := uneventful_reports (Admission.plain_setHeight free)
    have hcurrent : (c.begun moment.now height committee).height? = some height :=
      height?_followed _ _ _ _
    rw [Climbs, committedIn_append, startedIn_append, committedIn_append, startedIn_append,
      hcommits, hstarts, hquiet, hquiet', List.append_nil, List.append_nil, List.append_nil]
    show Climb _ _ (c.begun moment.now height committee).height? _
    rw [hcurrent]
    exact Climb.start h

/-- A call that failed has started no height that was not committed to the host's eyes: the
controller is as it was, or without a term. -/
theorem Halt.climbs {error : HostError} (halt : Halt moment c a es' c' (.failed error))
    (h : Climbs es c a) : Climbs (es ++ es') c' (.hear []) := by
  cases halt with
  | sync asks => exact h.quiet (uneventful_ask _ _) rfl h.leadsUp.1
  | @committee height check asks =>
    rw [Climbs, committedIn_append, startedIn_append]
    show Climb (_ ++ []) (_ ++ []) none _
    rw [List.append_nil, List.append_nil]
    exact Climb.leave h

end Controller

/-- **A service that is called forward climbs.** -/
theorem climbs (config : Config) (capabilities : Capabilities) :
    Service.Invariant config capabilities .forward Controller.Climbs where
  fresh := ⟨List.Pairwise.nil, List.Pairwise.nil, fun _ hk => absurd hk List.not_mem_nil,
    fun _ hnone => absurd hnone (by simp [Controller.height?, Controller.initial]),
    fun _ _ _ hk => absurd hk List.not_mem_nil⟩
  call := by
    intro es c cue h hpolicy
    refine h.turn ?_
    cases cue with
    | start height => exact hpolicy.1
    | late event => exact h.leadsUp
    | input input =>
      cases input with
      | message m => exact h.leadsUp
      | sync block proof previous => exact ⟨h.leadsUp, hpolicy.2⟩
      | triggerElection => exact h.leadsUp
  move := fun move h => move.climbs h
  fail := fun halt h => halt.climbs h
  fire := fun h => h

namespace Assembly

/-- A block of a height. -/
def plainBlock (height : Height) : Block := ⟨height, [7]⟩

/-- The commit of a member proves a block to a committee of this member alone, for a seed. -/
def soloProof (member : MemberId) (height : Height) (seed : Seed) : BlockProof :=
  let commit := (plainKeys member).commit height 0 (plainHash (plainBlock height)) seed
  { height, view := 0, blockHash := plainHash (plainBlock height), commits := [commit]
    seedSignature := (plainKeys member).aggregate height (seedShares [commit]) }

end Assembly

namespace Serves

variable {config : Config} {capabilities : Capabilities} {s : Service}

/-- The heights of a service ascend, up to where a promise was broken. -/
theorem ascend (h : Serves config capabilities .forward s) :
    (committedIn s.effects).Pairwise (· < ·) ∧ (startedIn s.effects).Pairwise (· < ·) := by
  by_cases alive : s.Alive
  · have hclimbs := h.keeps (climbs config capabilities) alive
    exact ⟨hclimbs.commits_ascend, hclimbs.starts_ascend⟩
  · obtain ⟨moment, es, c, a, tail, fault, heffects, hclimbs, hhalt⟩ :=
      h.ends (climbs config capabilities) alive
    obtain ⟨hcommits, hstarts⟩ := hhalt.heights
    rw [heffects, committedIn_append, startedIn_append, hcommits, List.append_nil]
    refine ⟨hclimbs.commits_ascend, ?_⟩
    rcases hstarts with hstarts | ⟨height, rfl, hstarts⟩
    · rw [hstarts, List.append_nil]
      exact hclimbs.starts_ascend
    · rw [hstarts]
      exact pairwise_lt_snoc hclimbs.starts_ascend hclimbs.leadsUp

/-- **Heights never go back, after failed calls as well**, if no block that is behind comes
while no term is active.  The heights that are committed ascend, and so do those that are
started; and an active term is of the last height that was started, so that a block below that
height comes to nothing. -/
theorem heights_never_go_back (h : Serves config capabilities .forward s) :
    ((committedIn s.effects).Pairwise (· < ·) ∧ (startedIn s.effects).Pairwise (· < ·)) ∧
      (s.Alive → s.controller.height? ≠ none →
        ∀ (moment : Moment) (block : Block) (proof : BlockProof) (previous : Option BlockProof),
          (∃ k ∈ startedIn s.effects, proof.height < k) →
            (Controller.sync block proof previous).run moment s.controller =
              ⟨s.controller, [], .ok ()⟩) := by
  refine ⟨h.ascend, fun alive hactive moment block proof previous ⟨k, hk, hlt⟩ => ?_⟩
  have hclimbs := h.keeps (climbs config capabilities) alive
  obtain ⟨height, hheight⟩ := Option.ne_none_iff_exists'.1 hactive
  have hbehind : proof.height < height :=
    Nat.lt_of_lt_of_le hlt ((hclimbs.active height hheight).2 k hk)
  rw [Controller.sync, Controller.run_look_bind, if_pos]
  · rfl
  · rw [hheight]
    simpa using hbehind

/-! ### A host that carries on -/

/-- The host names member `0` alone, for every height but `6`. -/
def lameMoment : Moment :=
  ⟨0, fun height _ => if height = 6 then .error (.membership "no committee") else .ok [0]⟩

/-- An observer starts height `5`, and fails to start height `6`. -/
def stranded : Service :=
  ((Service.fresh .standard (Assembly.sample.capabilities 1)).call lameMoment (.start 5)).call
    lameMoment (.start 6)

/-- A block of a height comes from the network. -/
def oldNews (height : Height) : Cue :=
  .input (.sync (Assembly.plainBlock height) (Assembly.soloProof 0 height 0) none)

theorem alive_of_result {s : Service} (result : Except Stop Unit) (h : s.result = result)
    (unbroken : ∀ fault, result ≠ .error (.broken fault)) : s.Alive :=
  fun fault hfault => unbroken fault (h.symm.trans hfault)

theorem stranded_alive : stranded.Alive :=
  alive_of_result (.error (.failed (.membership "no committee"))) (by decide +kernel)
    (by simp)

theorem stranded_serves : Serves .standard (Assembly.sample.capabilities 1) .forward stranded := by
  refine .call (.call .fresh ?_ ⟨?_, trivial⟩) ?_ ⟨?_, trivial⟩
  · exact alive_of_result (.ok ()) rfl (by simp)
  · exact fun k hk => absurd hk List.not_mem_nil
  · exact alive_of_result (.ok ()) (by decide +kernel) (by simp)
  · show ∀ k ∈ startedIn _, k < 6
    decide +kernel

/-- The host goes on with height `7`, and then an old block makes no difference. -/
theorem heights_never_go_back_resumed :
    startedIn (stranded.call lameMoment (.start 7)).effects = [5, 7] ∧
      (stranded.call lameMoment (.start 7)).controller.height? = some 7 ∧
      (Controller.sync (Assembly.plainBlock 4) (Assembly.soloProof 0 4 0) none).run lameMoment
          (stranded.call lameMoment (.start 7)).controller =
        ⟨(stranded.call lameMoment (.start 7)).controller, [], .ok ()⟩ := by
  have hstarted : startedIn (stranded.call lameMoment (.start 7)).effects = [5, 7] ∧
      (stranded.call lameMoment (.start 7)).controller.height? = some 7 := by
    decide +kernel
  have hserves : Serves .standard (Assembly.sample.capabilities 1) .forward
      (stranded.call lameMoment (.start 7)) := by
    refine .call stranded_serves stranded_alive ⟨?_, trivial⟩
    show ∀ k ∈ startedIn stranded.effects, k < 7
    decide +kernel
  have halive : (stranded.call lameMoment (.start 7)).Alive :=
    alive_of_result (.ok ()) (by decide +kernel) (by simp)
  refine ⟨hstarted.1, hstarted.2, ?_⟩
  refine (heights_never_go_back hserves).2 halive ?_ lameMoment _ _ none ?_
  · rw [hstarted.2]
    exact Option.some_ne_none _
  · rw [hstarted.1]
    exact ⟨5, List.mem_cons_self, Nat.lt_succ_self 4⟩

/-- **Without the condition heights do go back.**  The host keeps to heights above all that it
started.  Height `5` was started, and height `6` was not to be had; now a block of height `4`
starts height `5` once more, and a block of height `3` breaks the promise that heights do not
descend. -/
theorem not_never_go_back :
    (Serves .standard (Assembly.sample.capabilities 1) .rising stranded ∧ stranded.Alive ∧
        startedIn stranded.effects = [5] ∧ stranded.controller.height? = none) ∧
      (Serves .standard (Assembly.sample.capabilities 1) .rising
          (stranded.call lameMoment (oldNews 4)) ∧
        (stranded.call lameMoment (oldNews 4)).result = .ok () ∧
        (stranded.call lameMoment (oldNews 4)).controller.height? = some 5 ∧
        startedIn (stranded.call lameMoment (oldNews 4)).effects = [5, 5]) ∧
      (stranded.call lameMoment (oldNews 3)).result =
        .error (.broken (.heightDecreasing 5 4)) := by
  have hserves : Serves .standard (Assembly.sample.capabilities 1) .rising stranded :=
    stranded_serves.mono fun _ _ _ hforward => hforward.1
  have hstranded : startedIn stranded.effects = [5] ∧ stranded.controller.height? = none := by
    decide +kernel
  have hrevived : (stranded.call lameMoment (oldNews 4)).result = .ok () ∧
      (stranded.call lameMoment (oldNews 4)).controller.height? = some 5 ∧
      startedIn (stranded.call lameMoment (oldNews 4)).effects = [5, 5] := by
    decide +kernel
  refine ⟨⟨hserves, stranded_alive, hstranded⟩,
    ⟨.call hserves stranded_alive trivial, hrevived⟩, ?_⟩
  decide +kernel

end Serves

end CommitteeConsensus
