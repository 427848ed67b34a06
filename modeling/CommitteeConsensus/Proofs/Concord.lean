import CommitteeConsensus.Proofs.Chronicle
import CommitteeConsensus.Proofs.Situation
import Mathlib.Data.Nat.Pairing

/-!
# Members of a chain do not diverge

Two correct members that work on one height do so under the same seed, in the same committee, and
on top of the same block (`Federation.Reachable.never_diverge`).

The seed of a height is founded, whoever works on it, and a height has one founded seed
(`Chronicled.seed_unique`).  What remains is to lead every member along the chronicle.  A member
`Stands` in it if its controller is in a `Situation` whose past is the member's past in the term of
its height and seed, if this seed is founded, and if its tip is certain.  A founded seed and a
certain tip stay so whatever the others do, because the chronicle only grows; so it is enough to
look at one member at a time, and at one move of it (`Amid.move`).

A member comes to a seed by its tip only, and to a tip by two ways.  What it decides is proven,
under the seed that it works under.  What it is given by the network is proven because the proof
was checked, and under which seed makes no difference: the block before it comes with a proof that
nobody checks, but no proof can be of a foreign seed (`Chronicled.proven_of_accepts`).
-/

namespace CommitteeConsensus

open Controller

/-! ## What is sent -/

/-- Nothing is sent. -/
def Silent (es : List Effect) : Prop := ∀ recipients m, .send recipients m ∉ es

theorem silent_nil : Silent [] := fun _ _ => List.not_mem_nil

theorem Silent.append {es es' : List Effect} (h : Silent es) (h' : Silent es') :
    Silent (es ++ es') := fun recipients m hm =>
  (List.mem_append.1 hm).elim (h recipients m) (h' recipients m)

theorem silent_reports (metrics : List Metric) : Silent (metrics.map .report) := by
  intro recipients m hm
  obtain ⟨metric, -, heq⟩ := List.mem_map.1 hm
  exact absurd heq (by simp)

namespace Controller

variable {moment : Moment} {c c' : Controller} {now : Nanoseconds} {a : Agenda} {es : List Effect}

theorem send_mem_followedBy {t : Term} {s : Step} {recipients : List MemberId} {m : Message}
    (h : .send recipients m ∈ c.followedBy now t s) : .send recipients m ∈ s.requests :=
  (List.mem_append.1 h).elim (fun h => absurd h (silent_reports _ _ _)) send_mem_emitAll

theorem silent_begunBy (c : Controller) (now : Nanoseconds) (height : Height)
    (committee : Committee) : Silent (c.begunBy now height committee) := by
  intro recipients m hm
  simp only [begunBy, List.mem_cons, reduceCtorEq, false_or] at hm
  rcases Term.mem_start (send_mem_followedBy hm) with h | ⟨-, h⟩ <;> exact absurd h (by simp)

theorem Skips.silent {messages : List Message} (h : Skips moment c a es messages) : Silent es := by
  cases h with
  | message | trigger | late | useless => exact silent_nil
  | unproven => exact fun _ _ hm => absurd hm (by simp)

/-- A call that ends early sends nothing at its end. -/
theorem Halt.silent {reason : Stop} (h : Halt moment c a es c' reason) : Silent es := by
  cases h with
  | sift | succeed | check => exact silent_nil
  | react => exact silent_reports _
  | sync | committee => exact fun _ _ hm => absurd hm (by simp)
  | filter => exact silent_begunBy _ _ _ _

end Controller

/-! ## Growing chronicles -/

namespace Chronicle

variable {ch later : Chronicle} {i : MemberId} {es es' : List Effect}

/-- A member has done more, and nobody else has. -/
structure Extends (ch later : Chronicle) (i : MemberId) : Prop where
  before : ch.Before later
  others : ∀ place j, j ≠ i → later place j = ch place j

theorem Extends.refl (ch : Chronicle) (i : MemberId) : ch.Extends ch i :=
  ⟨ch.before_refl, fun _ _ _ => rfl⟩

/-- What is done at one height leaves greater heights alone. -/
theorem record_ahead {height : Height} {seed : Seed} {past : Past}
    (h : ∀ height' seed', height < height' → ch (height', seed') i = .fresh) :
    ∀ height' seed', height < height' →
      ch.record (height, seed) i past (height', seed') i = .fresh := by
  intro height' seed' hlt
  have hplace : (height', seed') ≠ (height, seed) := fun heq =>
    absurd (Prod.mk.inj heq).1.symm (Nat.ne_of_lt hlt)
  rw [record_other_place _ _ _ _ hplace]
  exact h height' seed' hlt

theorem Knows.append (h : ch.Knows i es) (h' : ch.Knows i es') : ch.Knows i (es ++ es') :=
  fun recipients m hm => (List.mem_append.1 hm).elim (h recipients m) (h' recipients m)

theorem knows_of_silent (h : Silent es) : ch.Knows i es := fun recipients m hm =>
  absurd hm (h recipients m)

end Chronicle

/-- What a chain needs of a block to go on: its height, its hash, and the signature that the next
seed comes from. -/
def Tip.link (tip : Tip) : Height × BlockHash × Signature :=
  (tip.proof.height, tip.proof.blockHash, tip.proof.seedSignature)

theorem Controller.exists_term_of_height? {c : Controller} {height : Height}
    (h : c.height? = some height) : ∃ t p, c.stage = .running t p ∧ t.height = height := by
  rw [height?] at h
  rcases hstage : c.stage with log | ⟨t, p⟩
  · rw [hstage] at h
    exact absurd h (by simp)
  · rw [hstage] at h
    exact ⟨t, p, rfl, Option.some.inj h⟩

namespace Federation

variable {f : Federation} {promise promise' : Promise} {ch later : Chronicle} {i j : MemberId}
  {height : Height} {seed : Seed} {c : Controller} {a : Agenda} {tasks : List Task}
  {events : List LateEvent} {lives lives' : MemberId → Life} {es es' : List Effect}

/-! ## Where a member stands -/

/-- **Where a member stands in a chronicle**, at a height and under a seed. -/
structure Stands (f : Federation) (promise : Promise) (ch : Chronicle) (i : MemberId)
    (height : Height) (seed : Seed) (c : Controller) (a : Agenda) (tasks : List Task)
    (events : List LateEvent) : Prop where
  situation : Situation promise f.first c a tasks events ((f.assembly height seed).term i)
    (ch (height, seed) i)
  config : c.config = f.config i
  founded : f.Founded ch height seed
  /-- Nothing was done at greater heights. -/
  ahead : ∀ height' seed', height < height' → ch (height', seed') i = .fresh
  tip : ∀ tip, c.tip = some tip → f.Certain ch tip.proof

namespace Stands

theorem capabilities (h : f.Stands promise ch i height seed c a tasks events) :
    c.capabilities = f.capabilities i := h.situation.capabilities.symm

/-- Between calls, either no block is below the height that a member is at, or a certain one. -/
theorem below (h : f.Stands promise ch i height seed c (.hear []) tasks events) :
    (c.tip = none ∧ height = f.first) ∨
      ∃ tip, c.tip = some tip ∧ tip.proof.height + 1 = height ∧ f.Certain ch tip.proof := by
  rcases h.situation.fits.1.linked with ⟨hnone, hfirst, -⟩ | ⟨tip, htip, hbelow, -, -⟩
  · exact Or.inl ⟨hnone, hfirst⟩
  · exact Or.inr ⟨tip, htip, hbelow, h.tip tip htip⟩

/-- The controller has changed, and its term has not. -/
theorem changed (h : f.Stands promise ch i height seed c a tasks events) {c' : Controller}
    {a' : Agenda} {tasks' : List Task} {events' : List LateEvent}
    (situation : Situation promise f.first c' a' tasks' events' ((f.assembly height seed).term i)
      (ch (height, seed) i)) (config : c'.config = c.config)
    (tip : ∀ tip, c'.tip = some tip → f.Certain ch tip.proof) :
    f.Stands promise ch i height seed c' a' tasks' events' :=
  ⟨situation, config.trans h.config, h.founded, h.ahead, tip⟩

/-- Where a member stands, it stands whatever the others do. -/
theorem congr (h : f.Stands promise ch j height seed c a tasks events)
    (growth : ch.Extends later i) (other : j ≠ i) :
    f.Stands promise later j height seed c a tasks events where
  situation := by
    rw [growth.others (height, seed) j other]
    exact h.situation
  config := h.config
  founded := h.founded.mono growth.before
  ahead height' seed' hlt := by
    rw [growth.others (height', seed') j other]
    exact h.ahead height' seed' hlt
  tip tip htip := (h.tip tip htip).mono growth.before

theorem imp (h : f.Stands promise ch i height seed c a tasks events)
    (implies : promise.Implies promise') : f.Stands promise' ch i height seed c a tasks events :=
  { h with situation := h.situation.imp implies }

end Stands

/-! ## What is known of the members -/

/-- A chronicle has all that a correct member has sent, and the place where the member stands. -/
structure Known (f : Federation) (lives : MemberId → Life) (ch : Chronicle) (i : MemberId) :
    Prop where
  knows : ch.Knows i (lives i).effects
  unborn : (lives i).moments = [] →
    lives i = .unborn (f.config i) (f.capabilities i) ∧ ∀ place, ch place i = .fresh
  running : (lives i).Running → ∃ height seed, f.Stands (f.promise lives i) ch i height seed
    (lives i).session.controller (.hear []) (lives i).session.tasks (lives i).session.events

/-- What is said stays said. -/
theorem promise_implies (grows : ∀ k, (lives k).effects ⊆ (lives' k).effects) (i : MemberId) :
    (f.promise lives i).Implies (f.promise lives' i) where
  message _ h part hpart hverified hcorrect :=
    (h part hpart hverified hcorrect).mono (grows part.sender)
  proposal _ _ _ h := h
  proof _ h s hs hverified hcorrect := (h s hs hverified hcorrect).mono (grows s.sender)

theorem Known.congr (h : f.Known lives ch j) (growth : ch.Extends later i) (other : j ≠ i) :
    f.Known lives later j where
  knows := h.knows.mono growth.before
  unborn hmoments := by
    obtain ⟨hlife, hfresh⟩ := h.unborn hmoments
    exact ⟨hlife, fun place => (growth.others place j other).trans (hfresh place)⟩
  running hrunning := by
    obtain ⟨height, seed, hstands⟩ := h.running hrunning
    exact ⟨height, seed, hstands.congr growth other⟩

/-- Something has happened to another member. -/
theorem Known.elsewhere (h : f.Known lives ch j)
    (grows : ∀ k, (lives k).effects ⊆ (lives' k).effects) (same : lives' j = lives j) :
    f.Known lives' ch j := by
  refine ⟨?_, ?_, ?_⟩ <;> rw [same]
  · exact h.knows
  · exact h.unborn
  · intro hrunning
    obtain ⟨height, seed, hstands⟩ := h.running hrunning
    exact ⟨height, seed, hstands.imp (promise_implies grows j)⟩

/-- What is known in the middle of a call of one member, when it has done these things. -/
structure Scene (f : Federation) (lives : MemberId → Life) (i : MemberId) (es : List Effect)
    (ch : Chronicle) : Prop where
  chronicled : f.Chronicled ch
  others : ∀ j, f.correct j = true → j ≠ i → f.Known lives ch j
  knows : ch.Knows i es
  told : (lives i).effects ⊆ es

namespace Scene

/-- The member has done more. -/
theorem extend (h : f.Scene lives i es ch) (growth : ch.Extends later i)
    (chronicled : f.Chronicled later) (knows : later.Knows i es') :
    f.Scene lives i (es ++ es') later where
  chronicled := chronicled
  others j hcorrect hother := (h.others j hcorrect hother).congr growth hother
  knows := (h.knows.mono growth.before).append knows
  told := fun _ he => List.mem_append_left _ (h.told he)

/-- Nothing was sent. -/
theorem silent (h : f.Scene lives i es ch) (silent : Silent es') :
    f.Scene lives i (es ++ es') ch :=
  h.extend (.refl ch i) h.chronicled (Chronicle.knows_of_silent silent)

/-- What correct members have said, they have signed under a founded seed. -/
theorem signs (h : f.Scene lives i es ch) {part : Part} (said : f.Said lives part)
    (correct : f.correct part.sender = true) :
    ∃ seed, f.Founded ch part.content.height seed ∧
      (ch (part.content.height, seed) part.sender).Signs part.sender part.content := by
  have huttered := said correct
  by_cases hself : part.sender = i
  · have hknows : ch.Knows part.sender es := hself ▸ h.knows
    rw [hself] at huttered
    exact h.chronicled.signs_of_uttered correct hknows (huttered.mono h.told)
  · exact h.chronicled.signs_of_uttered correct (h.others _ correct hself).knows huttered

end Scene

/-! ## Moves -/

/-- A member does something in the term that it works on. -/
theorem Scene.record (h : f.Scene lives i es ch) (founded : f.Founded ch height seed)
    (correct : f.correct i = true) {stimulus : Stimulus} {s : Step}
    (permits : ((f.assembly height seed).term i).Permits (ch (height, seed) i) stimulus)
    (authentic : ∀ m, stimulus = .message m → ∀ part ∈ m.parts, part.content.height = height →
      Verified (f.keys i) part → (f.assembly height seed).Attested (ch (height, seed)) part)
    (react : ((f.assembly height seed).term i).react (ch (height, seed) i).progress stimulus =
      .ok s) (sends : ∀ recipients m, .send recipients m ∈ es' → .send recipients m ∈ s.requests) :
    let later := ch.record (height, seed) i ((ch (height, seed) i).after stimulus s)
    ch.Before later ∧ f.Scene lives i (es ++ es') later := by
  intro later
  obtain ⟨hbefore, hchronicled⟩ := h.chronicled.record founded correct permits authentic react
  refine ⟨hbefore, h.extend ⟨hbefore, fun place j hother => ?_⟩ hchronicled
    fun recipients m hm => ⟨(height, seed), ?_⟩⟩
  · exact Chronicle.record_other_member ch (height, seed) i _ hother place
  · show _ ∈ (ch.record (height, seed) i _ (height, seed) i).requests
    rw [Chronicle.record_self]
    exact List.mem_append_right _ (sends recipients m hm)

/-- **Something comes to the term** that a member works on. -/
theorem Scene.react {moment : Moment} {metrics : List Metric} {stimulus : Stimulus}
    {messages : List Message} {s : Step} (h : f.Scene lives i es ch)
    (stands : f.Stands (f.promise lives i) ch i height seed c a tasks events) (secure : f.Secure)
    (correct : f.correct i = true)
    (gives : Gives ((f.assembly height seed).term i) (ch (height, seed) i).progress a metrics
      stimulus messages)
    (react : ((f.assembly height seed).term i).react (ch (height, seed) i).progress stimulus =
      .ok s) :
    let emitted := metrics.map .report ++
      c.followedBy moment.now ((f.assembly height seed).term i) s
    ∃ later, f.Scene lives i (es ++ emitted) later ∧
      f.Stands (f.promise lives i) later i height seed
        (c.followed moment.now ((f.assembly height seed).term i) s)
        (.after s.decision? messages) (tasks ++ launchedIn emitted) events := by
  intro emitted
  obtain ⟨⟨hpermits, hkeeps⟩, -, -⟩ := stands.situation.due gives
  have hauthentic : ∀ m, stimulus = .message m → ∀ part ∈ m.parts,
      part.content.height = height → Verified (f.keys i) part →
        (f.assembly height seed).Attested (ch (height, seed)) part := by
    rintro m rfl part hpart hheight hverified
    exact h.chronicled.attested secure stands.founded hheight
      (h.signs (hkeeps part hpart hverified))
  have hsends : ∀ recipients m, .send recipients m ∈ emitted → .send recipients m ∈ s.requests :=
    fun recipients m hm => (List.mem_append.1 hm).elim
      (fun hm => absurd hm (silent_reports _ _ _)) send_mem_followedBy
  obtain ⟨hbefore, hscene⟩ := h.record stands.founded correct hpermits hauthentic react hsends
  have hsame := resembles_followed c moment.now ((f.assembly height seed).term i) s
  refine ⟨_, hscene, ⟨?_, hsame.config.trans stands.config, stands.founded.mono hbefore,
    Chronicle.record_ahead stands.ahead, fun last hlast => ?_⟩⟩
  · rw [Chronicle.record_self]
    exact stands.situation.react gives react
  · rw [hsame.tip] at hlast
    exact (stands.tip last hlast).mono hbefore

/-- A height that a member is ready for has the seed that the member would start it with. -/
theorem founded_of_ready (ready : Ready promise f.first c height tasks events)
    (tip : ∀ tip, c.tip = some tip → f.Certain ch tip.proof) : f.Founded ch height c.seed := by
  rcases ready.tip with ⟨hnone, rfl⟩ | ⟨below, rfl, last, hlast, hbelow, -⟩
  · rw [Controller.seed, hnone]
    exact .first
  · obtain ⟨seed, hseed, hproven⟩ := tip last hlast
    rw [hbelow] at hseed hproven
    rw [Controller.seed, hlast]
    exact .next hseed hproven

/-- The term that a member would start is its term in the assembly of the height. -/
theorem termAt_eq {moment : Moment} {committee : Committee} (named : f.NamedBy moment)
    (names : moment.Names height c.seed committee) (config : c.config = f.config i)
    (capabilities : c.capabilities = f.capabilities i) :
    (c.leave height).termAt height committee = (f.assembly height c.seed).term i := by
  show Term.mk height c.seed committee c.capabilities c.config.limits.viewsAhead = _
  rw [named _ _ _ names, capabilities, config]
  rfl

/-- **A member starts a height** that it is ready for, and stands there. -/
theorem Scene.start {moment : Moment} {committee : Committee} {release : Admission.Release}
    (h : f.Scene lives i es ch) (correct : f.correct i = true) (named : f.NamedBy moment)
    (ready : Ready promise f.first c height tasks events) (config : c.config = f.config i)
    (capabilities : c.capabilities = f.capabilities i)
    (tip : ∀ tip, c.tip = some tip → f.Certain ch tip.proof)
    (ahead : ∀ height' seed', height ≤ height' → ch (height', seed') i = .fresh)
    (names : moment.Names height c.seed committee)
    (free : c.admission.setHeight height = .ok release) :
    ∃ later,
      f.Scene lives i
        (es ++ (c.begunBy moment.now height committee ++ release.metrics.map .report)) later ∧
      f.Stands promise later i height c.seed
        { c.begun moment.now height committee with admission := release.admission }
        (.hear release.released)
        (tasks ++ launchedIn (c.begunBy moment.now height committee ++
          release.metrics.map .report)) events := by
  have hfounded := founded_of_ready ready tip
  have hterm := termAt_eq named names config capabilities
  have hfresh : ch (height, c.seed) i = .fresh := ahead height c.seed (Nat.le_refl height)
  have hreact : ((f.assembly height c.seed).term i).react (ch (height, c.seed) i).progress .start =
      .ok (c.firstStep height committee) := by
    rw [ready.firstStep_eq committee, hterm, hfresh]
    rfl
  have hpermits : ((f.assembly height c.seed).term i).Permits (ch (height, c.seed) i) .start :=
    trivial
  have hsilent : Silent (c.begunBy moment.now height committee ++ release.metrics.map .report) :=
    (silent_begunBy c moment.now height committee).append (silent_reports _)
  obtain ⟨hbefore, hscene⟩ := h.record hfounded correct hpermits
    (fun m hm => absurd hm (by simp)) hreact fun recipients m hm => absurd hm (hsilent recipients m)
  have hsame := resembles_followed (c.leave height) moment.now
    ((c.leave height).termAt height committee) (c.firstStep height committee)
  have hahead : ∀ height' seed', height < height' → ch (height', seed') i = .fresh :=
    fun height' seed' hlt => ahead height' seed' (Nat.le_of_lt hlt)
  refine ⟨_, hscene, ⟨?_, ?_, hfounded.mono hbefore, Chronicle.record_ahead hahead,
    fun last hlast => ?_⟩⟩
  · rw [Chronicle.record_self, hfresh, ← hterm]
    exact ready.start free
  · exact (show _ = c.config from hsame.config).trans config
  · have htip : (c.begun moment.now height committee).tip = c.tip := hsame.tip
    exact (tip last (htip ▸ hlast)).mono hbefore

/-- What is known in the middle of a call of a member, and where the member stands. -/
def Amid (f : Federation) (lives : MemberId → Life) (i : MemberId) (es : List Effect)
    (c : Controller) (a : Agenda) (tasks : List Task) (events : List LateEvent) : Prop :=
  ∃ ch height seed, f.Scene lives i es ch ∧
    f.Stands (f.promise lives i) ch i height seed c a tasks events

/-- **Every move keeps it.** -/
theorem Amid.move {moment : Moment} {c' : Controller} {a' : Agenda}
    (h : f.Amid lives i es c a tasks events) (secure : f.Secure) (correct : f.correct i = true)
    (named : f.NamedBy moment) (move : Move moment c a es' c' a') :
    f.Amid lives i (es ++ es') c' a' (tasks ++ launchedIn es') events := by
  obtain ⟨ch, height, seed, scene, stands⟩ := h
  cases move with
  | begin => exact stands.situation.fits.elim
  | sift offer =>
    rw [append_launchedIn tasks (launchedIn_reports _)]
    exact ⟨ch, height, seed, scene.silent (silent_reports _),
      stands.changed (stands.situation.sift offer) rfl stands.tip⟩
  | @react t p _ metrics stimulus messages s stage gives react =>
    obtain ⟨rfl, rfl⟩ := Stage.running.inj (stands.situation.stage.symm.trans stage)
    obtain ⟨later, hscene, hstands⟩ := scene.react stands secure correct gives react
    exact ⟨later, height, seed, hscene, hstands⟩
  | skip skips =>
    exact ⟨ch, height, seed, scene.silent skips.silent,
      stands.changed (stands.situation.skip skips) rfl stands.tip⟩
  | @adopt block proof previous committee current fits names accepts =>
    rw [append_launchedIn tasks rfl]
    refine ⟨ch, height, seed, scene.silent fun _ _ hm => absurd hm (by simp),
      stands.changed (stands.situation.adopt current fits) rfl ?_⟩
    rintro _ ⟨⟩
    rw [named _ _ _ names, stands.capabilities] at accepts
    exact ⟨_, scene.chronicled.proven_of_accepts secure correct accepts
      fun s hs hverified => scene.signs (stands.situation.fits.2 s hs hverified)⟩
  | @commit d =>
    rw [append_launchedIn tasks rfl]
    refine ⟨ch, height, seed, scene.silent fun _ _ hm => absurd hm (by simp),
      stands.changed stands.situation.commit rfl ?_⟩
    rintro _ ⟨⟩
    have hproven := scene.chronicled.proven_of_decides secure correct stands.situation.fits
    refine ⟨seed, ?_, ?_⟩ <;> rw [hproven.height_eq]
    · exact stands.founded
    · exact hproven
  | succeed next_eq =>
    rw [append_launchedIn tasks launchedIn_nil]
    exact ⟨ch, height, seed, scene.silent silent_nil,
      stands.changed (stands.situation.succeed next_eq) rfl stands.tip⟩
  | @start next committee release check names free =>
    obtain ⟨below, rfl, hle, -⟩ := stands.situation.fits
    obtain ⟨later, hscene, hstands⟩ := scene.start correct named stands.situation.ready
      stands.config stands.capabilities stands.tip
      (fun height' seed' hle' => stands.ahead height' seed'
        (Nat.lt_of_lt_of_le (Nat.lt_succ_of_le hle) hle')) names free
    exact ⟨later, _, _, hscene, hstands⟩

/-- Whatever happens keeps it. -/
theorem Amid.kept {moment : Moment} (secure : f.Secure) (correct : f.correct i = true)
    (named : f.NamedBy moment) :
    Session.Invariant (f.promise lives i) moment (f.Amid lives i) where
  input := fun ⟨ch, height, seed, scene, stands⟩ kept =>
    ⟨ch, height, seed, scene, stands.changed (stands.situation.input kept) rfl stands.tip⟩
  late := fun ⟨ch, height, seed, scene, stands⟩ =>
    ⟨ch, height, seed, scene, stands.changed stands.situation.late rfl stands.tip⟩
  move := fun move h => h.move secure correct named move
  cancel := fun ⟨ch, height, seed, scene, stands⟩ =>
    ⟨ch, height, seed, scene, stands.changed (stands.situation.cancel _) rfl stands.tip⟩
  timer := fun ⟨ch, height, seed, scene, stands⟩ pending =>
    ⟨ch, height, seed, scene, stands.changed (stands.situation.fire pending) rfl stands.tip⟩
  answer := fun ⟨ch, height, seed, scene, stands⟩ found keeps =>
    ⟨ch, height, seed, scene.silent (silent_reports _),
      stands.changed (stands.situation.answer (List.mem_of_find?_eq_some found) keeps _) rfl
        stands.tip⟩

/-! ## All members -/

/-- **What happens to a member leaves it where it stands, or elsewhere in a later chronicle.** -/
theorem Known.after {moment : Moment} {happening : Happening} (h : f.Known lives ch i)
    (scene : f.Scene lives i (lives i).effects ch) (secure : f.Secure)
    (correct : f.correct i = true) (allows : (lives i).Allows f.first happening)
    (named : f.NamedBy moment) (kept : (f.promise lives i).Kept (lives i).session.tasks happening) :
    ∃ later, f.Scene lives i ((lives i).after moment happening).effects later ∧
      (((lives i).after moment happening).ending = none → ∃ height seed,
        f.Stands (f.promise lives i) later i height seed
          ((lives i).after moment happening).session.controller (.hear [])
          ((lives i).after moment happening).session.tasks
          ((lives i).after moment happening).session.events) := by
  by_cases hstarted : (lives i).moments = []
  · obtain rfl := Lives.eq_start_of_allows allows hstarted
    obtain ⟨hlife, hfresh⟩ := h.unborn hstarted
    have hsession : (lives i).session = .fresh (.initial (f.config i) (f.capabilities i)) := by
      rw [hlife]
      rfl
    rw [Life.after, hsession]
    rcases Session.first_step (f.config i) (f.capabilities i) moment f.first with
      ⟨-, committee, release, -, names, free, hcontroller, heffects, htasks, hevents⟩ |
      ⟨hends, reason, hhalt⟩
    · have hready : Ready (f.promise lives i) f.first
          (.initial (f.config i) (f.capabilities i)) f.first [] [] :=
        ready_initial fun _ _ _ _ => trivial
      obtain ⟨later, hscene, hstands⟩ := scene.start correct named hready rfl rfl
        (fun tip htip => absurd htip (by simp [Controller.initial])) (fun _ _ _ => hfresh _) names
        free
      rw [released_eq_nil free fun m => Admission.not_holds_start _ _] at hstands
      rw [← heffects] at hscene
      refine ⟨later, hscene, fun _ => ⟨f.first, 0, ?_⟩⟩
      rw [hevents, htasks, heffects, hcontroller]
      exact hstands.changed (hstands.situation.cancel _) rfl hstands.tip
    · exact ⟨ch, scene.silent hhalt.silent, fun hgoes => absurd hgoes hends⟩
  · obtain ⟨height, seed, hstands⟩ := h.running (Lives.running_of_allows allows hstarted)
    rcases (Amid.kept secure correct named).step (Lives.not_start allows hstarted) kept
      ⟨ch, height, seed, scene, hstands⟩ with
      ⟨-, later, height, seed, hscene, hstands⟩ | ⟨hends, hhalted⟩
    · exact ⟨later, hscene, fun _ => ⟨height, seed, hstands⟩⟩
    · rcases hhalted with heffects | ⟨c, a, tasks, events, body, tail, reason, heffects,
        ⟨later, height, seed, hscene, -⟩, hhalt⟩
      · refine ⟨ch, ?_, fun hgoes => absurd hgoes hends⟩
        rw [Life.after, heffects]
        exact scene.silent silent_nil
      · refine ⟨later, ?_, fun hgoes => absurd hgoes hends⟩
        rw [Life.after, heffects, ← List.append_assoc]
        exact hscene.silent hhalt.silent

namespace Reachable

/-- **There is a chronicle of whatever has happened**, and all members stand in it. -/
theorem known (h : f.Reachable lives) (secure : f.Secure) :
    ∃ ch, f.Chronicled ch ∧ ∀ i, f.correct i = true → f.Known lives ch i := by
  induction h with
  | unborn =>
    refine ⟨.blank, .blank f, fun i _ => ⟨Chronicle.knows_of_silent silent_nil,
      fun _ => ⟨rfl, fun _ => rfl⟩, fun hrunning => absurd rfl hrunning.1⟩⟩
  | @next lives i moment happening reachable correct allows named kept ih =>
    obtain ⟨ch, hchronicled, hknown⟩ := ih
    have hscene : f.Scene lives i (lives i).effects ch :=
      ⟨hchronicled, fun j hj _ => hknown j hj, (hknown i correct).knows, List.Subset.refl _⟩
    obtain ⟨later, hlater, hstands⟩ :=
      (hknown i correct).after hscene secure correct allows named kept
    have hgrows : ∀ k, (lives k).effects ⊆
        (happen lives i moment happening k).effects :=
      (Function.forall_update_iff lives fun k life => (lives k).effects ⊆ life.effects).2
        ⟨List.subset_append_left _ _, fun _ _ => List.Subset.refl _⟩
    refine ⟨later, hlater.chronicled, fun j hj => ?_⟩
    by_cases hother : j = i
    · subst hother
      refine ⟨?_, ?_, ?_⟩ <;> rw [happen, Function.update_self]
      · exact hlater.knows
      · exact fun hmoments => absurd hmoments (by simp [Life.after])
      · intro hrunning
        obtain ⟨height, seed, hstands⟩ := hstands hrunning.2
        exact ⟨height, seed, hstands.imp (promise_implies hgrows j)⟩
    · exact (hlater.others j hj hother).elsewhere hgrows (Function.update_of_ne hother _ _)

/-- **Members of a chain do not diverge.**  Two correct members that work on one height do so under
the same seed and in the same committee.  Neither has a block below, or both have, and then the
proofs that they have of it are for the same block of the same height, and draw the same seed. -/
theorem never_diverge (h : f.Reachable lives) (secure : f.Secure) {i j : MemberId}
    (correct : f.correct i = true) (correct' : f.correct j = true) (running : (lives i).Running)
    (running' : (lives j).Running) {t t' : Term} {p p' : Progress}
    (stage : (lives i).session.controller.stage = .running t p)
    (stage' : (lives j).session.controller.stage = .running t' p') (height : t.height = t'.height) :
    t.committee = t'.committee ∧ t.seed = t'.seed ∧
      (lives i).session.controller.tip.map Tip.link =
        (lives j).session.controller.tip.map Tip.link := by
  obtain ⟨ch, hchronicled, hknown⟩ := h.known secure
  obtain ⟨k, seed, hstands⟩ := (hknown i correct).running running
  obtain ⟨k', seed', hstands'⟩ := (hknown j correct').running running'
  obtain ⟨rfl, -⟩ := Stage.running.inj (stage.symm.trans hstands.situation.stage)
  obtain ⟨rfl, -⟩ := Stage.running.inj (stage'.symm.trans hstands'.situation.stage)
  obtain rfl : k = k' := height
  obtain rfl : seed' = seed := hchronicled.seed_unique secure hstands.founded hstands'.founded
  refine ⟨rfl, rfl, ?_⟩
  rcases hstands.below with ⟨hnone, hfirst⟩ | ⟨tip, htip, hbelow, hcertain⟩ <;>
    rcases hstands'.below with ⟨hnone', hfirst'⟩ | ⟨tip', htip', hbelow', hcertain'⟩
  · rw [hnone, hnone']
  · exact absurd hcertain'.le (Nat.not_le_of_lt (hfirst ▸ hbelow' ▸ Nat.lt_succ_self _))
  · exact absurd hcertain.le (Nat.not_le_of_lt (hfirst' ▸ hbelow ▸ Nat.lt_succ_self _))
  · have hsame : tip'.proof.height = tip.proof.height := Nat.succ.inj (hbelow'.trans hbelow.symm)
    obtain ⟨hhash, hsignature⟩ := hchronicled.certain_unique secure hcertain hcertain' hsame
    rw [htip, htip', Option.map_some, Option.map_some, Tip.link, Tip.link, hsame, hhash,
      hsignature]

end Reachable

/-! ## A chain of one member

One member makes up every committee, and another one looks on.  The member decides the first
height by itself, and the other takes the block over from the network. -/

/-- Keys that sign by putting the own name in front.  The length of a share tells its height and
seed, and but for the name all shares are the same. -/
def sampleKeys (me : MemberId) : Keys where
  me := me
  sign data := UInt8.ofNat me :: data
  verify data signature member := signature == UInt8.ofNat member :: data
  signSeed height seed := UInt8.ofNat me :: List.replicate (Nat.pair height seed) 0
  verifySeed height seed share member :=
    share == UInt8.ofNat member :: List.replicate (Nat.pair height seed) 0
  aggregate _ shares := (shares.head?.map (·.2.tail)).getD []

/-- Member `0` is in every committee, and member `1` is an observer. -/
def sample : Federation where
  first := 1
  config _ := .standard
  capabilities i := ⟨sampleKeys i, Assembly.plainMatches⟩
  committeeOf _ _ := ⟨[0], by decide⟩
  correct i := i == 0 || i == 1
  own_keys _ := rfl
  distinct _ _ := by decide
  few_faulty _ _ := by decide

theorem sample_share {share : Signature} {member : MemberId}
    (h : sample.Share height seed share member) :
    share = UInt8.ofNat member :: List.replicate (Nat.pair height seed) 0 := by
  obtain ⟨i, -, hverifies⟩ := h
  exact eq_of_beq hverifies

theorem sample_aggregate {shares : List (MemberId × Signature)}
    (h : sample.Suffice height seed shares) :
    (sample.keys i).aggregate height shares = List.replicate (Nat.pair height seed) 0 := by
  rcases shares with _ | ⟨⟨member, share⟩, shares⟩
  · exact absurd h.enough (Nat.not_le_of_lt (Committee.quorum_pos _))
  · have hshare : share = _ := sample_share (h.valid _ List.mem_cons_self)
    rw [hshare]
    rfl

theorem sample_secure : sample.Secure where
  own _ _ _ _ := beq_self_eq_true _
  only h h' := by
    have htails := congrArg List.tail ((sample_share h).symm.trans (sample_share h'))
    have hlength := congrArg List.length htails
    rw [List.tail_cons, List.tail_cons, List.length_replicate, List.length_replicate] at hlength
    exact Nat.pair_eq_pair.1 hlength
  sum _ _ h h' := by rw [sample_aggregate h, sample_aggregate h']

/-- What the host says at some time. -/
def sampleMoment (now : Nanoseconds) : Moment := ⟨now, fun _ _ => .ok [0]⟩

theorem sample_named (now : Nanoseconds) : sample.NamedBy (sampleMoment now) :=
  fun _ _ _ names => names.eq rfl

/-- The member has decided the first height. -/
def sampleDecided : MemberId → Life :=
  happen (happen (happen (fun i => .unborn (sample.config i) (sample.capabilities i))
    0 (sampleMoment 0) (.start 1))
    0 (sampleMoment 1) (.answer 0 (.proposal Assembly.sampleBlock.1 Assembly.sampleBlock.2)))
    0 (sampleMoment 2) .attend

/-- What the member has committed to. -/
def sampleCommit : Signed CommitContent := (sampleKeys 0).commit 1 0 Assembly.sampleBlock.2 0

/-- The proof of the first block. -/
def sampleProof : BlockProof := ⟨1, 0, Assembly.sampleBlock.2, [sampleCommit], [0, 0]⟩

/-- The other one has got the block from the network. -/
def sampleLives : MemberId → Life :=
  happen (happen sampleDecided 1 (sampleMoment 3) (.start 1))
    1 (sampleMoment 4) (.input (.sync Assembly.sampleBlock.1 sampleProof none))

theorem sampleDecided_reachable : sample.Reachable sampleDecided := by
  refine .next (.next (.next .unborn rfl ⟨rfl, rfl⟩ (sample_named _) trivial) rfl
    ⟨?_, ?_⟩ (sample_named _) fun _ _ _ => trivial) rfl ⟨?_, ?_⟩ (sample_named _) trivial <;>
    decide +kernel

theorem sampleLives_reachable : sample.Reachable sampleLives := by
  have hlooking : sample.Reachable (happen sampleDecided 1 (sampleMoment 3) (.start 1)) :=
    .next sampleDecided_reachable rfl ⟨by decide +kernel, rfl⟩ (sample_named _) trivial
  refine .next hlooking rfl ⟨by decide +kernel, by decide +kernel⟩ (sample_named _)
    fun s hs _ _ => ?_
  -- the member has sent the one commit that is in the proof
  rw [List.mem_singleton.1 hs]
  have hsent : .send [] (.commit sampleCommit) ∈
      (happen sampleDecided 1 (sampleMoment 3) (.start 1) 0).effects := by
    decide +kernel
  exact ⟨[], .commit sampleCommit, hsent, _, List.mem_cons_self, rfl, rfl⟩

theorem never_diverge_sample :
    ∃ t p t' p', (sampleLives 0).session.controller.stage = .running t p ∧
      (sampleLives 1).session.controller.stage = .running t' p' ∧
      (t.height = 2 ∧ t'.height = 2) ∧ t.committee = t'.committee ∧ t.seed = t'.seed ∧
      (sampleLives 0).session.controller.tip.map Tip.link =
        (sampleLives 1).session.controller.tip.map Tip.link := by
  have hrunning : (sampleLives 0).Running ∧ (sampleLives 1).Running := by
    refine ⟨⟨?_, ?_⟩, ⟨?_, ?_⟩⟩ <;> decide +kernel
  have hheights : (sampleLives 0).session.controller.height? = some 2 ∧
      (sampleLives 1).session.controller.height? = some 2 := by
    decide +kernel
  obtain ⟨t, p, hstage, hheight⟩ := exists_term_of_height? hheights.1
  obtain ⟨t', p', hstage', hheight'⟩ := exists_term_of_height? hheights.2
  exact ⟨t, p, t', p', hstage, hstage', ⟨hheight, hheight'⟩,
    sampleLives_reachable.never_diverge sample_secure rfl rfl hrunning.1 hrunning.2 hstage hstage'
      (hheight.trans hheight'.symm)⟩

end Federation

end CommitteeConsensus
