import CommitteeConsensus.Proofs.Agreement
import CommitteeConsensus.Proofs.Lives

/-!
# The members of a chain

Controllers of any number of members run side by side, from the same first height on.  Each goes
its own way: inputs come, timers fire and hosts answer in any order (`Federation.Reachable`).  The
hosts name the same committees, unless they fail to, and each committee that they would name has
few faulty members.

A member may be given anything that the faulty members and the network come up with: any message,
any block with any proof, and any proof of the block before it.  They forge nothing that a correct
member signs.  So a part that verifies as a correct member's was part of a message that this
member gave to the network before (`Federation.Said`).

What is asked of the keys beyond that is in `Federation.Secure`, and is about shares of the seed
only: own shares verify, a share verifies for one height and one seed, and it makes no difference
which shares of a quorum are added up.
-/

namespace CommitteeConsensus

/-- Who works on a chain, and with what. -/
structure Federation where
  /-- The height that everyone starts at. -/
  first : Height
  config : MemberId → Config
  capabilities : MemberId → Capabilities
  /-- The committee of a height, as drawn by its seed. -/
  committeeOf : Height → Seed → Committee
  /-- The members and observers that run a controller, and nothing but the controller. -/
  correct : MemberId → Bool
  own_keys : ∀ i, (capabilities i).keys.me = i
  distinct : ∀ height seed, (committeeOf height seed).members.Nodup
  few_faulty : ∀ height seed, ((committeeOf height seed).members.filter fun i => !correct i).length ≤
    maxFaulty (committeeOf height seed).size

/-- A part was given to the network by its sender, among what the sender did to the world. -/
def UtteredIn (es : List Effect) (part : Part) : Prop :=
  ∃ recipients m, .send recipients m ∈ es ∧
    ∃ spoken ∈ m.parts, spoken.sender = part.sender ∧ spoken.content = part.content

theorem UtteredIn.mono {es es' : List Effect} {part : Part} (h : UtteredIn es part)
    (subset : es ⊆ es') : UtteredIn es' part := by
  obtain ⟨recipients, m, hm, hspoken⟩ := h
  exact ⟨recipients, m, subset hm, hspoken⟩

namespace Federation

variable (f : Federation)

/-- The keys of a member. -/
def keys (i : MemberId) : Keys := (f.capabilities i).keys

/-- The members of one height, if its seed is this one. -/
def assembly (height : Height) (seed : Seed) : Assembly where
  height := height
  seed := seed
  committee := f.committeeOf height seed
  capabilities := f.capabilities
  viewsAhead i := (f.config i).limits.viewsAhead
  correct := f.correct
  own_keys := f.own_keys
  distinct := f.distinct height seed
  few_faulty := f.few_faulty height seed

/-! ## What the keys are good for -/

/-- A share of the seed of a height is a member's: it verifies at some correct member. -/
def Share (height : Height) (seed : Seed) (share : Signature) (member : MemberId) : Prop :=
  ∃ i, f.correct i = true ∧ (f.keys i).verifySeed height seed share member = true

/-- Shares that add up to the seed signature of a height: those of a quorum of its committee. -/
structure Suffice (height : Height) (seed : Seed) (shares : List (MemberId × Signature)) :
    Prop where
  enough : (f.committeeOf height seed).quorum ≤ shares.length
  distinct : (shares.map (·.1)).Nodup
  member : ∀ x ∈ shares, x.1 ∈ (f.committeeOf height seed).members
  valid : ∀ x ∈ shares, f.Share height seed x.2 x.1

/-- What is asked of the keys of correct members. -/
structure Secure : Prop where
  /-- The own share verifies. -/
  own : ∀ i, f.correct i = true → ∀ height seed,
    (f.keys i).verifySeed height seed ((f.keys i).signSeed height seed) i = true
  /-- A share is for one height and one seed. -/
  only : ∀ {height height' seed seed' share member}, f.Share height seed share member →
    f.Share height' seed' share member → height = height' ∧ seed = seed'
  /-- It makes no difference who adds up which shares. -/
  sum : ∀ {i j height seed shares shares'}, f.correct i = true → f.correct j = true →
    f.Suffice height seed shares → f.Suffice height seed shares' →
      (f.keys i).aggregate height shares = (f.keys j).aggregate height shares'

/-! ## What can happen -/

/-- If the host names a committee, it is the one that all hosts name. -/
def NamedBy (moment : Moment) : Prop :=
  ∀ height seed committee, moment.Names height seed committee →
    committee = f.committeeOf height seed

/-- If a part is by a correct member, that member has said it. -/
def Said (lives : MemberId → Life) (part : Part) : Prop :=
  f.correct part.sender = true → UtteredIn (lives part.sender).effects part

/-- Nothing is forged: what verifies at a member was said. -/
def promise (lives : MemberId → Life) (i : MemberId) : Promise where
  message m := ∀ part ∈ m.parts, Verified (f.keys i) part → f.Said lives part
  proposal _ _ _ := True
  proof proof := ∀ s ∈ proof.commits, Verified (f.keys i) (s.part .commit) →
    f.Said lives (s.part .commit)

/-- Something happens to one member. -/
def happen (lives : MemberId → Life) (i : MemberId) (moment : Moment) (happening : Happening) :
    MemberId → Life :=
  Function.update lives i ((lives i).after moment happening)

/-- The states that can be reached.  In each step something happens to one correct member, and
what it is given is not forged. -/
inductive Reachable : (MemberId → Life) → Prop where
  | unborn : Reachable fun i => .unborn (f.config i) (f.capabilities i)
  | next {lives : MemberId → Life} {i : MemberId} {moment : Moment} {happening : Happening}
    (reachable : Reachable lives) (correct : f.correct i = true)
    (allows : (lives i).Allows f.first happening)
    (named : f.NamedBy moment)
    (kept : (f.promise lives i).Kept (lives i).session.tasks happening) :
    Reachable (happen lives i moment happening)

end Federation

end CommitteeConsensus
