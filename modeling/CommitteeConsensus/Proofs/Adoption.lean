import CommitteeConsensus.Proofs.Recovery
import CommitteeConsensus.Proofs.Synchronization

/-!
# What a block from the network is judged by

A block of the network comes with two proofs: its own, and that of the block before it.  The
first is a certificate by the committee of its height, and this committee is drawn by the seed
that the second one yields.  The controller does not compare that seed with anything.  It asks
the host for the committee of the height and this seed, and the block is taken over exactly if
this committee accepts the proof (`Controller.adopts_iff`).

So the second proof is taken on trust.  If it yields the seed that the controller itself goes on
from, and the host answers as before, a block of the active height is judged by the committee of
the active term, since that term was started with this seed (`adoption_judged`).  If it does
not, or is missing, another committee may be asked, and a block that is ahead may follow on
anything (`not_judged_by_chain`).
-/

namespace CommitteeConsensus

/-- The seed that the proof of the block before a block yields; a chain without a block starts
with 0. -/
def drawnBy (previous : Option BlockProof) : Seed := (previous.map (·.nextSeed)).getD 0

namespace Controller

variable {moment : Moment} {c : Controller} {block : Block} {proof : BlockProof}
  {previous : Option BlockProof}

/-- A block from the network is taken over: it is counted as decided by others. -/
def Adopts (c : Controller) (moment : Moment) (block : Block) (proof : BlockProof)
    (previous : Option BlockProof) : Prop :=
  .report (.count .decisionsBySync 1) ∈ ((sync block proof previous).run moment c).effects

instance : Decidable (c.Adopts moment block proof previous) :=
  inferInstanceAs (Decidable (_ ∈ _))

/-- The committee that the host names for a height and the seed that the previous proof yields
accepts a proof. -/
def Vouches (moment : Moment) (keys : Keys) (proof : BlockProof) (previous : Option BlockProof)
    (committee : Committee) : Prop :=
  moment.Names proof.height (drawnBy previous) committee ∧
    committee.acceptsBlockProof keys proof (drawnBy previous) = true

/-- **What is taken over**: a block that is not behind, matches its proof, and is vouched for. -/
theorem adopts_iff : c.Adopts moment block proof previous ↔
    c.height?.any (proof.height < ·) = false ∧
      c.capabilities.matchesHash proof.height block proof.blockHash = true ∧
        ∃ committee, Vouches moment c.capabilities.keys proof previous committee := by
  unfold Adopts
  rcases hcurrent : c.height?.any (proof.height < ·) with _ | _
  swap
  · rw [sync_run_of_useless (Or.inl hcurrent)]
    exact iff_of_false List.not_mem_nil fun h => absurd h.1 (by simp)
  rcases hfits : c.capabilities.matchesHash proof.height block proof.blockHash with _ | _
  · rw [sync_run_of_useless (Or.inr hfits)]
    exact iff_of_false List.not_mem_nil fun h => absurd h.2.1 (by simp)
  rcases committee_run moment proof.height (drawnBy previous) c with
    ⟨committee, names, -⟩ | ⟨reason, hasks⟩
  · rcases haccepts : committee.acceptsBlockProof c.capabilities.keys proof (drawnBy previous)
      with _ | _
    · rw [sync_run_of_rejects hcurrent hfits names haccepts]
      refine iff_of_false (by simp) ?_
      rintro ⟨-, -, committee', names', haccepts'⟩
      rw [names'.eq names.committeeOf, haccepts] at haccepts'
      exact absurd haccepts' (by simp)
    · rw [sync_run_of_accepts hcurrent hfits names haccepts]
      exact iff_of_true (by simp) ⟨rfl, rfl, committee, names, haccepts⟩
  · rw [sync_run_of_stop hcurrent hfits hasks]
    refine iff_of_false (by simp) ?_
    rintro ⟨-, -, committee, names, -⟩
    exact absurd (congrArg Outcome.result (hasks.symm.trans (committee_run_of_names names c)))
      (by simp)

end Controller

namespace Lives

variable {config : Config} {capabilities : Capabilities} {first : Height} {life : Life} {t : Term}
  {p : Progress}

/-- **What a block from the network is judged by.**  A running member takes it over exactly if
it is not behind the active height, matches its proof, and the proof is accepted with the seed
that the proof before yields, by the committee that the host names for this seed.  If the block
is of the active height and that seed is the one that the member itself goes on from, it is the
seed of the active term; and the committee is that of the term, if the host names for this
height and seed what it always named. -/
theorem adoption_judged (h : Lives config capabilities first .nothing life)
    (running : life.Running) (stage : life.session.controller.stage = .running t p)
    (moment : Moment) (block : Block) (proof : BlockProof) (previous : Option BlockProof) :
    (life.session.controller.Adopts moment block proof previous ↔
      t.height ≤ proof.height ∧
        capabilities.matchesHash proof.height block proof.blockHash = true ∧
          ∃ committee, Controller.Vouches moment capabilities.keys proof previous committee) ∧
    (proof.height = t.height → drawnBy previous = life.session.controller.seed →
      drawnBy previous = t.seed ∧
        ((∀ earlier ∈ life.moments,
            earlier.committeeOf t.height t.seed = moment.committeeOf t.height t.seed) →
          ∀ committee, Controller.Vouches moment capabilities.keys proof previous committee →
            committee = t.committee)) := by
  have hchecks : ∀ height block hash, capabilities.matchesHash height block hash = true →
      Promise.nothing.proposal height block hash := fun _ _ _ _ => trivial
  have hlineage := keeps (lineage_of_checks hchecks) h running
  obtain ⟨t', past, situation, -, earlier, hearlier, hnamed⟩ := hlineage
  obtain ⟨rfl, rfl⟩ := Stage.running.inj (situation.stage.symm.trans stage)
  have hcapabilities : life.session.controller.capabilities = capabilities :=
    congrArg Prod.snd (h.setting running)
  refine ⟨?_, fun hheight hdrawn => ?_⟩
  · rw [Controller.adopts_iff, hcapabilities, Controller.height?_of_stage stage]
    simp
  · have hseed : life.session.controller.seed = t'.seed := by
      rw [Controller.seed]
      rcases situation.fits.1.linked with ⟨hnone, -, hzero⟩ | ⟨tip, htip, -, -, hnext⟩
      · rw [hnone, hzero]
      · rw [htip, hnext]
    refine ⟨hdrawn.trans hseed, fun hsteady committee hvouches => ?_⟩
    obtain ⟨hnames, -⟩ := hvouches
    rw [hheight, hdrawn.trans hseed] at hnames
    exact hnames.eq ((hsteady earlier hearlier).symm.trans hnamed)

/-! ### Two committees -/

/-- Member `2` alone is the committee of height `5` and the seed `0`, and member `0` alone is
every other committee. -/
def dividedMoment : Moment :=
  ⟨0, fun height seed => if height = 5 ∧ seed = 0 then .ok [2] else .ok [0]⟩

theorem dividedMoment_committeeOf {seed : Seed} (foreign : seed ≠ 0) :
    dividedMoment.committeeOf 5 seed = .ok [0] := if_neg fun h => foreign h.2

/-- An observer starts height `5`. -/
def dividedLife : Life :=
  (Life.unborn .standard (Assembly.sample.capabilities 1)).after dividedMoment (.start 5)

theorem dividedLife_lives :
    Lives .standard (Assembly.sample.capabilities 1) 5 .nothing dividedLife :=
  .next .unborn ⟨rfl, rfl⟩ trivial

theorem dividedLife_running : dividedLife.Running :=
  ⟨List.cons_ne_nil _ _, by decide +kernel⟩

/-- The active term. -/
def activeTerm? (c : Controller) : Option Term :=
  match c.stage with
  | .idle _ => none
  | .running t _ => some t

/-- Its term has the seed `0` and the committee of member `2`. -/
theorem exists_dividedTerm : ∃ t p, dividedLife.session.controller.stage = .running t p ∧
    t.height = 5 ∧ t.seed = 0 ∧ t.committee.members = [2] := by
  have hterm : (activeTerm? dividedLife.session.controller).map
      (fun t => (t.height, t.seed, t.committee.members)) =
        some ((5, 0, [2]) : Height × Seed × List MemberId) := by
    decide +kernel
  rw [activeTerm?] at hterm
  rcases hstage : dividedLife.session.controller.stage with log | ⟨t, p⟩
  · rw [hstage] at hterm
    exact absurd hterm (by simp)
  · rw [hstage] at hterm
    simp only [Option.map_some, Option.some.injEq, Prod.mk.injEq] at hterm
    exact ⟨t, p, rfl, hterm⟩

/-- A block of height `5` that the committee of the term proves is taken over. -/
theorem adoption_judged_chained : ∃ t p, dividedLife.session.controller.stage = .running t p ∧
    dividedLife.session.controller.Adopts dividedMoment (Assembly.plainBlock 5)
      (Assembly.soloProof 2 5 0) none ∧
    drawnBy none = t.seed ∧ ∀ committee, Controller.Vouches dividedMoment (Assembly.plainKeys 1)
      (Assembly.soloProof 2 5 0) none committee → committee = t.committee := by
  obtain ⟨t, p, hstage, hheight, -, -⟩ := exists_dividedTerm
  obtain ⟨-, hchained⟩ := adoption_judged dividedLife_lives dividedLife_running hstage
    dividedMoment (Assembly.plainBlock 5) (Assembly.soloProof 2 5 0) none
  have hdrawn : drawnBy none = dividedLife.session.controller.seed := by decide +kernel
  obtain ⟨hseed, hcommittee⟩ := hchained hheight.symm hdrawn
  refine ⟨t, p, hstage, by decide +kernel, hseed, hcommittee fun earlier hearlier => ?_⟩
  rw [List.mem_singleton.1 hearlier]

/-- **The seed is not the chain's own.**  A block of height `5` is taken over with the seed of
a proof that the member has never seen, by a committee that is not that of its term; and a block
of height `9` is taken over without any proof before it. -/
theorem not_judged_by_chain : ∃ t p, dividedLife.session.controller.stage = .running t p ∧
    (dividedLife.session.controller.Adopts dividedMoment (Assembly.plainBlock 5)
        (Assembly.soloProof 0 5 (drawnBy (some (Assembly.soloProof 0 4 0))))
        (some (Assembly.soloProof 0 4 0)) ∧
      (Assembly.soloProof 0 5 (drawnBy (some (Assembly.soloProof 0 4 0)))).height = t.height ∧
      drawnBy (some (Assembly.soloProof 0 4 0)) ≠ t.seed ∧
      ∀ committee, Controller.Vouches dividedMoment (Assembly.plainKeys 1)
        (Assembly.soloProof 0 5 (drawnBy (some (Assembly.soloProof 0 4 0))))
        (some (Assembly.soloProof 0 4 0)) committee → committee ≠ t.committee) ∧
    dividedLife.session.controller.Adopts dividedMoment (Assembly.plainBlock 9)
        (Assembly.soloProof 0 9 0) none ∧
      t.height < (Assembly.soloProof 0 9 0).height := by
  obtain ⟨t, p, hstage, hheight, hzero, hmembers⟩ := exists_dividedTerm
  have hforeign : drawnBy (some (Assembly.soloProof 0 4 0)) ≠ 0 := by decide +kernel
  refine ⟨t, p, hstage, ⟨?_, hheight.symm, ?_, fun committee hvouches heq => ?_⟩, ?_, ?_⟩
  · decide +kernel
  · rwa [hzero]
  · have hnamed := hvouches.1.committeeOf
    have hother := dividedMoment_committeeOf hforeign
    have hmembers' : [0] = committee.members := Except.ok.inj (hother.symm.trans hnamed)
    rw [heq, hmembers] at hmembers'
    exact absurd hmembers' (by decide)
  · decide +kernel
  · rw [hheight]
    show 5 < 9
    decide

end Lives

end CommitteeConsensus
