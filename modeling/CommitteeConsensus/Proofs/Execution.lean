import CommitteeConsensus.Controller.Inputs
import CommitteeConsensus.Proofs.Announcements

/-!
# What becomes of the requests of a term

A controller executes what a term asks for, request after request.  As long as a term is
active and decides at most once, this never stops, and it comes to a function of the
controller and the requests: `Controller.obeyAll` is where it leads, and
`Controller.emitAll` what it does to the world.  `follow_run` says so, and nothing about
heights needs to look at single requests again.

That a term decides at most once, and last of all, is a fact about its consequences
(`react_decides_once`): a decided term draws none.
-/

namespace CommitteeConsensus

/-! ## Decisions among requests -/

/-- The decision that a request announces. -/
def Request.decision? : Request → Option Decision
  | .decide decision => some decision
  | _ => none

/-- The decisions that requests announce. -/
def decisionsIn (requests : List Request) : List Decision := requests.filterMap Request.decision?

@[simp] theorem decisionsIn_nil : decisionsIn [] = [] := rfl

@[simp] theorem decisionsIn_append (rs rs' : List Request) :
    decisionsIn (rs ++ rs') = decisionsIn rs ++ decisionsIn rs' := List.filterMap_append

@[simp] theorem mem_decisionsIn {rs : List Request} {d : Decision} :
    d ∈ decisionsIn rs ↔ .decide d ∈ rs := by
  rw [decisionsIn, List.mem_filterMap]
  constructor
  · rintro ⟨r, hr, hd⟩
    cases r <;> simp only [Request.decision?, reduceCtorEq, Option.some.injEq] at hd
    rwa [← hd]
  · intro h
    exact ⟨_, h, rfl⟩

theorem decisionsIn_eq_nil {rs : List Request} (h : ∀ d, .decide d ∉ rs) : decisionsIn rs = [] :=
  List.eq_nil_iff_forall_not_mem.2 fun d hd => h d (mem_decisionsIn.1 hd)

/-- The decision that a step announces. -/
def Step.decision? (s : Step) : Option Decision := (decisionsIn s.requests).head?

namespace Term

variable {t : Term} {p q : Progress} {rs : List Request} {stimulus : Stimulus}

/-- Requests announce no decision and leave the height open, or announce one and close it. -/
def DecidesOnce (rs : List Request) (q : Progress) : Prop :=
  decisionsIn rs = [] ∧ q.phase ≠ .committed ∨ ∃ d, decisionsIn rs = [d] ∧ q.phase = .committed

theorem install_live {m : PrePrepare} (h : p.phase ≠ .committed) :
    (p.install m).progress.phase ≠ .committed := by
  rw [Progress.install]
  split
  · exact h
  · simp [Step.ask]

/-- A decided term draws no consequences. -/
theorem Consequence.live (h : t.Consequence p rs q) : p.phase ≠ .committed := by
  cases h with
  | repropose claims | await claims => exact claims.live
  | commit phase =>
    rw [phase]
    simp
  | decide phase => exact phase

theorem Consequence.decides_once (h : t.Consequence p rs q) : DecidesOnce rs q := by
  have hlive := h.live
  cases h with
  | @repropose view block hash claims obliged =>
    refine Or.inl ⟨decisionsIn_eq_nil fun d hd => ?_, install_live (p.claim_live hlive)⟩
    rcases List.mem_append.1 hd with h | h
    · exact absurd (mem_arming h) (by simp)
    · rcases List.mem_cons.1 h with h | h
      · exact absurd h (by simp [broadcast])
      · exact absurd (mem_install h) (by simp)
  | await =>
    refine Or.inl ⟨decisionsIn_eq_nil fun d hd => ?_, p.claim_live hlive⟩
    rcases List.mem_append.1 hd with h | h
    · exact absurd (mem_arming h) (by simp)
    · exact absurd (List.mem_singleton.1 h) (by simp)
  | commit =>
    refine Or.inl ⟨decisionsIn_eq_nil fun d hd => ?_, by rw [phase_commitTo]; simp⟩
    exact absurd (mem_commitTo hd).2 (by simp [broadcast])
  | decide => exact Or.inr ⟨_, rfl, rfl⟩

/-- Nothing follows on a decision. -/
theorem Consequences.decides_once (h : t.Consequences p rs q) (live : p.phase ≠ .committed) :
    DecidesOnce rs q := by
  induction h with
  | none p => exact Or.inl ⟨rfl, live⟩
  | @more p p' p'' rs rs' first rest ih =>
    rcases first.decides_once with ⟨hnone, hopen⟩ | ⟨d, hd, hclosed⟩
    · rw [DecidesOnce, decisionsIn_append, hnone, List.nil_append]
      exact ih hopen
    · cases rest with
      | none => exact Or.inr ⟨d, by rw [List.append_nil]; exact hd, hclosed⟩
      | more second => exact absurd hclosed second.live

/-- Whatever a term takes in, it acts on it and draws consequences, be it at rest or not. -/
theorem react_drawn {s : Step} (h : t.react p stimulus = .ok s) :
    ∃ p₁ rs₁ rs₂, t.Act stimulus p rs₁ p₁ ∧ t.Consequences p₁ rs₂ s.progress ∧
      s.requests = rs₁ ++ rs₂ := by
  by_cases hvalidated : ∃ m valid, stimulus = .event (.validationFinished m valid)
  · obtain ⟨m, valid, rfl⟩ := hvalidated
    replace h : t.handleEvent p (.validationFinished m valid) = .ok s := h
    rw [handleEvent] at h
    split at h
    · next hdone =>
      rw [← Except.ok.inj h]
      exact ⟨p, [], [], .ignore (Or.inl hdone), .none p, rfl⟩
    · next live =>
      rw [← Except.ok.inj h, onValidated]
      split
      · next hother => exact ⟨p, [], [], .ignore (Or.inr hother), .none p, rfl⟩
      · next hview =>
        simp only [not_or, ne_eq, not_not] at hview
        dsimp only
        split
        · next hvalid =>
          subst hvalid
          rcases hs : p.log.storePrePrepare? m with _ | log
          · rw [accept_of_not_store t (p := { p with validating := none }) hs]
            exact ⟨_, [], [], .release live hview.1 hview.2 fun _ => hs, .none _, rfl⟩
          · rw [accept_of_store t (p := { p with validating := none }) hs]
            exact ⟨_, _, _, .approve live hview.1 hview.2 hs, t.consequences_recount _ m, rfl⟩
        · next hvalid =>
          exact ⟨_, [], [], .release live hview.1 hview.2 fun h => absurd h hvalid, .none _, rfl⟩
  · exact (react_cases (fun m valid heq => absurd ⟨m, valid, heq⟩ hvalidated) h).drawn

/-- **A term decides at most once, and is closed exactly if it does.** -/
theorem react_decides_once {s : Step} (h : t.react p stimulus = .ok s)
    (live : p.phase ≠ .committed) : DecidesOnce s.requests s.progress := by
  obtain ⟨p₁, rs₁, rs₂, hact, hc, hrs⟩ := react_drawn h
  have hnone : decisionsIn rs₁ = [] := decisionsIn_eq_nil fun d => hact.not_decides
  rw [DecidesOnce, hrs, decisionsIn_append, hnone, List.nil_append]
  exact hc.decides_once (hact.live live)

/-- A decided term decides nothing any more. -/
theorem react_of_committed {s : Step} (h : t.react p stimulus = .ok s)
    (done : p.phase = .committed) : s.progress = p ∧ decisionsIn s.requests = [] := by
  obtain ⟨p₁, rs₁, rs₂, hact, hc, hrs⟩ := react_drawn h
  obtain rfl := hact.of_committed done
  have hnone : decisionsIn rs₁ = [] := decisionsIn_eq_nil fun d => hact.not_decides
  rw [hrs, decisionsIn_append, hnone, List.nil_append]
  cases hc with
  | none => exact ⟨rfl, rfl⟩
  | more first => exact absurd done first.live

theorem length_decisionsIn_of_react {s : Step} (h : t.react p stimulus = .ok s) :
    (decisionsIn s.requests).length ≤ 1 := by
  by_cases hdone : p.phase = .committed
  · rw [(react_of_committed h hdone).2]
    exact Nat.zero_le 1
  · rcases react_decides_once h hdone with ⟨hnone, -⟩ | ⟨d, hd, -⟩
    · rw [hnone]
      exact Nat.zero_le 1
    · rw [hd]
      exact Nat.le_refl 1

theorem decisionsIn_start (t : Term) (p : Progress) : decisionsIn (t.start p).requests = [] := by
  refine decisionsIn_eq_nil fun d hd => ?_
  rcases mem_start hd with h | ⟨-, h⟩ <;> exact absurd h (by simp)

end Term

/-! ## Obeying requests -/

/-- The view that work is for. -/
def Work.view : Work → View
  | .build view => view
  | .validate m => m.view

namespace Controller

variable (now : Nanoseconds) (height : Height)

/-- The controller once the scope alive is for a view at least as high as this one. -/
def reach (c : Controller) (view : View) : Controller :=
  if c.scope.view < view then { c with scope := ⟨c.scope.number + 1, view⟩ } else c

/-- The controller after it started work. -/
def launching (c : Controller) (work : Work) : Controller :=
  { c.reach work.view with launched := c.launched + 1 }

/-- The task that work is started as. -/
def taskFor (c : Controller) (work : Work) : Task :=
  { number := c.launched, height, scope := (c.reach work.view).scope.number
    previous := c.tip.map (·.block), work }

/-- The controller after a request of the term of a height. -/
def obey (c : Controller) : Request → Controller
  | .scheduleElection view => { c.reach view with timer := c.timer.arm now view height }
  | .cancelElection => { c with timer := c.timer.disarm }
  | .buildProposal view => c.launching (.build view)
  | .validateProposal m => c.launching (.validate m)
  | .send _ _ | .decide _ => c

/-- What a request does to the world. -/
def emit (c : Controller) : Request → List Effect
  | .send recipients message => [.send recipients message]
  | .buildProposal view => [.launch (c.taskFor height (.build view))]
  | .validateProposal m => [.launch (c.taskFor height (.validate m))]
  | _ => []

/-- The controller after requests. -/
def obeyAll : Controller → List Request → Controller
  | c, [] => c
  | c, request :: requests => obeyAll (c.obey now height request) requests

/-- What requests do to the world. -/
def emitAll : Controller → List Request → List Effect
  | _, [] => []
  | c, request :: requests =>
    c.emit height request ++ emitAll (c.obey now height request) requests

variable {now height} {c : Controller}

theorem obeyAll_append (c : Controller) (rs rs' : List Request) :
    c.obeyAll now height (rs ++ rs') = (c.obeyAll now height rs).obeyAll now height rs' := by
  induction rs generalizing c with
  | nil => rfl
  | cons r rs ih => exact ih _

theorem emitAll_append (c : Controller) (rs rs' : List Request) :
    c.emitAll now height (rs ++ rs') =
      c.emitAll now height rs ++ (c.obeyAll now height rs).emitAll now height rs' := by
  induction rs generalizing c with
  | nil => rfl
  | cons r rs ih =>
    rw [List.cons_append, emitAll, ih, emitAll, obeyAll, List.append_assoc]

/-! ### What requests leave alone -/

/-- Two controllers differ in their timer, their scope and the number of their tasks at most. -/
structure Resembles (c c' : Controller) : Prop where
  config : c'.config = c.config
  capabilities : c'.capabilities = c.capabilities
  admission : c'.admission = c.admission
  stage : c'.stage = c.stage
  tip : c'.tip = c.tip

theorem Resembles.refl (c : Controller) : Resembles c c := ⟨rfl, rfl, rfl, rfl, rfl⟩

theorem Resembles.trans {a b c : Controller} (h : Resembles a b) (h' : Resembles b c) :
    Resembles a c :=
  ⟨h'.config.trans h.config, h'.capabilities.trans h.capabilities,
    h'.admission.trans h.admission, h'.stage.trans h.stage, h'.tip.trans h.tip⟩

theorem resembles_reach (c : Controller) (view : View) : Resembles c (c.reach view) := by
  rw [reach]
  split <;> exact ⟨rfl, rfl, rfl, rfl, rfl⟩

theorem resembles_obey (c : Controller) (r : Request) : Resembles c (c.obey now height r) := by
  cases r with
  | send | decide => exact .refl c
  | cancelElection => exact ⟨rfl, rfl, rfl, rfl, rfl⟩
  | scheduleElection view =>
    have h := resembles_reach c view
    exact ⟨h.config, h.capabilities, h.admission, h.stage, h.tip⟩
  | buildProposal view =>
    have h := resembles_reach c view
    exact ⟨h.config, h.capabilities, h.admission, h.stage, h.tip⟩
  | validateProposal m =>
    have h := resembles_reach c m.view
    exact ⟨h.config, h.capabilities, h.admission, h.stage, h.tip⟩

theorem resembles_obeyAll (c : Controller) (rs : List Request) :
    Resembles c (c.obeyAll now height rs) := by
  induction rs generalizing c with
  | nil => exact .refl c
  | cons r rs ih => exact (resembles_obey c r).trans (ih _)

theorem height?_eq_of_stage {c c' : Controller} (h : c'.stage = c.stage) :
    c'.height? = c.height? := by
  rw [height?, height?, h]

/-! ### Where effects come from -/

theorem send_mem_emitAll {rs : List Request} {recipients : List MemberId} {m : Message}
    (h : .send recipients m ∈ c.emitAll now height rs) : .send recipients m ∈ rs := by
  induction rs generalizing c with
  | nil => exact absurd h List.not_mem_nil
  | cons r rs ih =>
    rcases List.mem_append.1 h with h | h
    · cases r <;> simp only [emit, List.mem_singleton, List.not_mem_nil, reduceCtorEq,
        Effect.send.injEq] at h
      obtain ⟨rfl, rfl⟩ := h
      exact List.mem_cons_self
    · exact List.mem_cons_of_mem _ (ih h)

/-- The request that work is started on. -/
def Work.request : Work → Request
  | .build view => .buildProposal view
  | .validate m => .validateProposal m

theorem launch_mem_emitAll {rs : List Request} {task : Task}
    (h : .launch task ∈ c.emitAll now height rs) :
    task.height = height ∧ Work.request task.work ∈ rs := by
  induction rs generalizing c with
  | nil => exact absurd h List.not_mem_nil
  | cons r rs ih =>
    rcases List.mem_append.1 h with h | h
    · cases r <;> simp only [emit, List.mem_singleton, List.not_mem_nil, reduceCtorEq,
        Effect.launch.injEq] at h
      · subst h
        exact ⟨rfl, List.mem_cons_self⟩
      · subst h
        exact ⟨rfl, List.mem_cons_self⟩
    · exact (ih h).imp_right (List.mem_cons_of_mem _)

/-- Requests are sent and launched, and nothing else. -/
theorem mem_emitAll {rs : List Request} {effect : Effect} (h : effect ∈ c.emitAll now height rs) :
    (∃ recipients m, effect = .send recipients m) ∨ ∃ task, effect = .launch task := by
  induction rs generalizing c with
  | nil => exact absurd h List.not_mem_nil
  | cons r rs ih =>
    rcases List.mem_append.1 h with h | h
    · cases r <;> simp only [emit, List.mem_singleton, List.not_mem_nil] at h
      · exact Or.inl ⟨_, _, h⟩
      · exact Or.inr ⟨_, h⟩
      · exact Or.inr ⟨_, h⟩
    · exact ih h

/-! ## Executing requests -/

section Running

open Activity

variable (moment : Moment)

theorem height?_reach (c : Controller) (view : View) : (c.reach view).height? = c.height? :=
  height?_eq_of_stage (resembles_reach c view).stage

theorem timer_reach (c : Controller) (view : View) : (c.reach view).timer = c.timer := by
  rw [reach]
  split <;> rfl

theorem launched_reach (c : Controller) (view : View) : (c.reach view).launched = c.launched := by
  rw [reach]
  split <;> rfl

theorem activeHeight_run (h : c.height? = some height) :
    activeHeight.run moment c = ⟨c, [], .ok height⟩ := by
  simp only [activeHeight, Activity.run, bind, Activity.andThen, look, h, List.nil_append]
  rfl

theorem launch_run (h : c.height? = some height) {view : View} {work : Work}
    (hview : work.view = view) :
    (launch view work).run moment c =
      ⟨c.launching work, [.launch (c.taskFor height work)], .ok ()⟩ := by
  subst hview
  have htip := (resembles_reach c work.view).tip
  have hactive := activeHeight_run moment h
  rw [launch, run_bind_of_ok (congrArg Outcome.result hactive), hactive]
  show Outcome.mk { c.reach work.view with launched := (c.reach work.view).launched + 1 }
    [.launch ⟨(c.reach work.view).launched, height, (c.reach work.view).scope.number,
      (c.reach work.view).tip.map (·.block), work⟩] (Except.ok ()) = _
  rw [launched_reach, htip]
  rfl

/-- Executing a request never stops, unless it is a second decision. -/
theorem execute_run (h : c.height? = some height) {decided : Option Decision} {r : Request}
    (sole : (decided.toList ++ r.decision?.toList).length ≤ 1) :
    (execute decided r).run moment c = ⟨c.obey moment.now height r, c.emit height r,
      .ok (decided.toList ++ r.decision?.toList).head?⟩ := by
  have hkept : (decided.toList ++ []).head? = decided := by
    cases decided <;> rfl
  cases r with
  | send => simp only [Request.decision?, Option.toList_none, hkept]; rfl
  | cancelElection => simp only [Request.decision?, Option.toList_none, hkept]; rfl
  | scheduleElection view =>
    simp only [Request.decision?, Option.toList_none, hkept]
    have hactive := activeHeight_run moment ((height?_reach c view).trans h)
    have hreach : (reachView view).run moment c = ⟨c.reach view, [], .ok ()⟩ := rfl
    rw [execute, run_bind_of_ok (congrArg Outcome.result hreach), hreach,
      run_bind_of_ok (congrArg Outcome.result hactive), hactive]
    show Outcome.mk { c.reach view with timer := (c.reach view).timer.arm moment.now view height }
      [] (Except.ok decided) = _
    rw [timer_reach]
    rfl
  | buildProposal view =>
    simp only [Request.decision?, Option.toList_none, hkept]
    have hrun : (launch view (.build view)).run moment c =
      ⟨c.launching (.build view), [.launch (c.taskFor height (.build view))], .ok ()⟩ :=
        launch_run moment h rfl
    rw [execute, run_bind_of_ok (congrArg Outcome.result hrun), hrun]
    rfl
  | validateProposal m =>
    simp only [Request.decision?, Option.toList_none, hkept]
    have hrun : (launch m.view (.validate m)).run moment c =
      ⟨c.launching (.validate m), [.launch (c.taskFor height (.validate m))], .ok ()⟩ :=
        launch_run moment h rfl
    rw [execute, run_bind_of_ok (congrArg Outcome.result hrun), hrun]
    rfl
  | decide d =>
    rcases decided with _ | d'
    · rfl
    · simp [Request.decision?] at sole

theorem executeAll_run (h : c.height? = some height) {decided : Option Decision}
    {rs : List Request} (sole : (decided.toList ++ decisionsIn rs).length ≤ 1) :
    (executeAll decided rs).run moment c = ⟨c.obeyAll moment.now height rs,
      c.emitAll moment.now height rs, .ok (decided.toList ++ decisionsIn rs).head?⟩ := by
  induction rs generalizing c decided with
  | nil =>
    have hkept : (decided.toList ++ []).head? = decided := by
      cases decided <;> rfl
    rw [decisionsIn_nil, hkept]
    rfl
  | cons r rs ih =>
    have hcons : decisionsIn (r :: rs) = r.decision?.toList ++ decisionsIn rs := by
      rw [decisionsIn, List.filterMap_cons]
      cases r.decision? <;> rfl
    rw [hcons, ← List.append_assoc] at sole ⊢
    have hfirst : (decided.toList ++ r.decision?.toList).length ≤ 1 := by
      rw [List.length_append] at sole
      omega
    -- at most one decision was met, so the first one met stands for all of them
    have hmet : (decided.toList ++ r.decision?.toList).head?.toList =
        decided.toList ++ r.decision?.toList := by
      generalize decided.toList ++ r.decision?.toList = met at hfirst
      match met with
      | [] => rfl
      | [_] => rfl
      | _ :: _ :: _ => simp at hfirst
    have hrun := execute_run moment h hfirst
    have hheight : (c.obey moment.now height r).height? = some height :=
      (height?_eq_of_stage (resembles_obey c r).stage).trans h
    have hrest := ih hheight (by rw [hmet]; exact sole)
    rw [hmet] at hrest
    rw [executeAll, run_bind_of_ok (congrArg Outcome.result hrun), hrun, hrest]
    rfl

/-- The controller that takes over what a term did. -/
def adopting (c : Controller) (term : Term) (progress : Progress) : Controller :=
  { c with stage := .running term progress }

/-- The controller once it has done what a term asked for. -/
def followed (c : Controller) (now : Nanoseconds) (term : Term) (s : Step) : Controller :=
  (c.adopting term s.progress).obeyAll now term.height s.requests

/-- What following a term does to the world. -/
def followedBy (c : Controller) (now : Nanoseconds) (term : Term) (s : Step) : List Effect :=
  s.metrics.map .report ++ (c.adopting term s.progress).emitAll now term.height s.requests

theorem resembles_followed (c : Controller) (now : Nanoseconds) (t : Term) (s : Step) :
    Resembles (c.adopting t s.progress) (c.followed now t s) :=
  resembles_obeyAll _ _

/-- **Following a term** never stops, and comes to its decision, if there is one. -/
theorem follow_run (c : Controller) (term : Term) {s : Step}
    (sole : (decisionsIn s.requests).length ≤ 1) :
    (follow term (.ok s)).run moment c = ⟨c.followed moment.now term s,
      c.followedBy moment.now term s, .ok s.decision?⟩ := by
  have hheight : (c.adopting term s.progress).height? = some term.height := rfl
  have hrun : (executeAll none s.requests).run moment (c.adopting term s.progress) = _ :=
    executeAll_run moment hheight sole
  have hreports : (follow term (.ok s)).run moment c =
      ⟨((executeAll none s.requests).run moment (c.adopting term s.progress)).controller,
        s.metrics.map .report ++
          ((executeAll none s.requests).run moment (c.adopting term s.progress)).effects,
        ((executeAll none s.requests).run moment (c.adopting term s.progress)).result⟩ := rfl
  rw [hreports, hrun]
  rfl

theorem follow_run_error (c : Controller) (term : Term) (fault : Fault) :
    (follow term (.error fault)).run moment c = ⟨c, [], .error (.broken fault)⟩ := rfl

end Running

end Controller

end CommitteeConsensus
