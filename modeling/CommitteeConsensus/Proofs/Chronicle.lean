import CommitteeConsensus.Proofs.Announcements
import CommitteeConsensus.Proofs.Federation

/-!
# A chronicle of the chain

The seed of a height comes from the proof of the block before it.  Before anything is shown it is
open whether two members at one height have the same seed, so the members of a height are not one
assembly but many, one for each seed (`Federation.assembly`).  A `Chronicle` holds what every member
has done in each of them.

A height and a seed are *founded* (`Federation.Founded`) if they are the first ones, or if the
block below was proven under a founded seed and draws this one.  Of each height one seed is founded
at most, and this is the heart of the matter (`Chronicled.seed_unique`): by induction over the
heights, two proofs of the block below are by the same assembly, so their shares are of the same
height and seed and add up to the same signature.

Nobody works under a seed that is not founded.  So a proof that comes from the network cannot be
of a foreign seed (`Chronicled.proven_of_accepts`).  It needs a share of some correct member; the
share is what that member signed, under the founded seed of the height; and a share verifies for one
seed only.
-/

namespace CommitteeConsensus

/-! ## What a member sends -/

namespace Term

variable {t : Term} {past : Past} {p q : Progress} {rs : List Request} {r : Reading}

/-- What is vouched for is from a member. -/
theorem Vouched.sender_mem {m : Message} (h : t.Vouched r m) :
    m.sender ∈ t.committee.members := by
  rcases m with m | s | s | m | m
  · obtain ⟨-, hproposed, -, -⟩ := h
    show m.signed.sender ∈ _
    rw [hproposed.sender_eq]
    exact Committee.leader_mem _ _
  · exact Committee.Voted.mem h
  · exact Committee.Committed.mem h
  · exact h.1.mem
  · have hopens : t.Opens r m := h
    show m.signed.sender ∈ _
    rw [hopens.sender_eq]
    exact Committee.leader_mem _ _

/-- Every part of what is vouched for is of the height. -/
theorem Vouched.height_parts {m : Message} (h : t.Vouched r m) :
    ∀ part ∈ m.parts, part.content.height = t.height := by
  intro part hpart
  rcases m with m | s | s | m | m
  · rw [List.mem_singleton.1 hpart]
    exact h.2.proposed.height_eq
  · rw [List.mem_singleton.1 hpart]
    exact Committee.Voted.height_eq h
  · rw [List.mem_singleton.1 hpart]
    exact Committee.Committed.height_eq h
  · have hasked : t.committee.Asked (fun part => part.content.height = t.height) t.height m.view
        m.signed := h.1.imp fun _ _ hheight _ => hheight
    exact hasked.parts part hpart
  · have hopens : t.Opens r m := h
    have hjustified : t.committee.Justified (fun part => part.content.height = t.height) t.height
        m.signed.content.view m.signed.content.confirmations :=
      hopens.justified.imp fun _ _ hheight _ => hheight
    rcases List.mem_cons.1 hpart with rfl | hpart
    · exact hopens.height_eq
    · rcases List.mem_cons.1 hpart with rfl | hpart
      · exact hopens.proposed.height_eq
      · exact hjustified.parts part hpart

theorem Consequence.own_share (h : t.Consequence p rs q) {recipients : List MemberId}
    {s : Signed CommitContent} (hs : .send recipients (.commit s) ∈ rs) :
    s.content.seedShare = t.keys.signSeed t.height t.seed := by
  cases h with
  | repropose =>
    rcases List.mem_append.1 hs with hs | hs
    · exact absurd (mem_arming hs) (by simp)
    · rcases List.mem_cons.1 hs with hs | hs
      · exact absurd hs (by simp [broadcast])
      · exact absurd (mem_install hs) (by simp)
  | await =>
    rcases List.mem_append.1 hs with hs | hs
    · exact absurd (mem_arming hs) (by simp)
    · exact absurd (List.mem_singleton.1 hs) (by simp)
  | commit =>
    obtain ⟨-, hs⟩ := mem_commitTo hs
    obtain ⟨-, hs⟩ := Request.send.inj hs
    rw [Message.commit.inj hs]
    rfl
  | decide => simp at hs

/-- **With a commit goes the own share of the seed.** -/
theorem Trace.own_share (h : t.Trace past) {content : CommitContent}
    (hs : past.Signs t.me (.commit content)) :
    content.seedShare = t.keys.signSeed t.height t.seed := by
  have hsent : ∃ s, past.Sent (.commit s) ∧ s.content = content := by
    rcases hs with ⟨m, hm, hc⟩ | ⟨b, hb, hme, hc⟩
    · rcases m with m | m | m | m | m <;>
        simp only [Message.authored, List.mem_cons, List.not_mem_nil, or_false, or_self,
          reduceCtorEq, Statement.commit.injEq] at hc
      exact ⟨m, hm, hc.symm⟩
    · exact absurd hc (by simp)
  clear hs
  obtain ⟨s, ⟨recipients, hm⟩, rfl⟩ := hsent
  induction h with
  | fresh => exact absurd hm List.not_mem_nil
  | act _ _ _ act ih =>
    rcases List.mem_append.1 hm with hold | hnew
    · exact ih hold
    · exact absurd rfl ((act.sends hnew).2.1 s)
  | consequence _ consequence ih =>
    rcases List.mem_append.1 hm with hold | hnew
    · exact ih hold
    · exact consequence.own_share hnew

end Term

/-! ## Chronicles -/

/-- What every member has done in the term of every height and seed. -/
abbrev Chronicle := Height × Seed → MemberId → Past

namespace Chronicle

variable (ch : Chronicle) (place : Height × Seed) (i : MemberId) (past : Past)

/-- Nobody has done anything. -/
def blank : Chronicle := fun _ _ => .fresh

/-- A member has done more in one of its terms. -/
def record : Chronicle := Function.update ch place (Function.update (ch place) i past)

/-- Nothing of one chronicle is missing in another. -/
def Before (ch later : Chronicle) : Prop := ∀ place i, (ch place i).Before (later place i)

/-- What a member has sent was asked for by one of its terms. -/
def Knows (es : List Effect) : Prop :=
  ∀ recipients m, .send recipients m ∈ es → ∃ place, .send recipients m ∈ (ch place i).requests

@[simp] theorem record_self : ch.record place i past place i = past := by
  rw [record, Function.update_self, Function.update_self]

theorem record_place : ch.record place i past place = Function.update (ch place) i past := by
  rw [record, Function.update_self]

theorem record_other_place {place' : Height × Seed} (h : place' ≠ place) :
    ch.record place i past place' = ch place' := by
  rw [record, Function.update_of_ne h]

theorem record_other_member {j : MemberId} (h : j ≠ i) (place' : Height × Seed) :
    ch.record place i past place' j = ch place' j := by
  by_cases hplace : place' = place
  · rw [hplace, record_place, Function.update_of_ne h]
  · rw [record_other_place ch place i past hplace]

theorem before_refl : ch.Before ch := fun _ _ => .refl _

variable {ch place i past}

theorem before_record (h : (ch place i).Before past) : ch.Before (ch.record place i past) := by
  intro place' j
  by_cases hplace : place' = place
  · rw [hplace, record_place]
    exact Assembly.before_update h j
  · rw [record_other_place ch place i past hplace]
    exact .refl _

theorem Knows.mono {later : Chronicle} {es : List Effect} (h : ch.Knows i es)
    (before : ch.Before later) : later.Knows i es := by
  intro recipients m hm
  obtain ⟨place, hplace⟩ := h recipients m hm
  exact ⟨place, (before place i).requests hplace⟩

/-- A member that has sent something has done something. -/
theorem ne_fresh_of_sent {recipients : List MemberId} {m : Message}
    (h : .send recipients m ∈ (ch place i).requests) : ch place i ≠ .fresh := by
  intro hfresh
  rw [hfresh] at h
  exact absurd h List.not_mem_nil

end Chronicle

namespace Federation

variable (f : Federation) (ch : Chronicle)

/-! ## Proofs and seeds -/

/-- A block of a height is proven under a seed: a quorum committed to it, with shares that the
signature in the proof is the sum of. -/
structure Proven (height : Height) (seed : Seed) (proof : BlockProof) : Prop where
  height_eq : proof.height = height
  final : (f.committeeOf height seed).Final ((f.assembly height seed).Attested (ch (height, seed)))
    (f.Share height seed) height proof.view proof.blockHash proof.commits
  summed : ∃ i, f.correct i = true ∧
    (f.keys i).aggregate height (seedShares proof.commits) = proof.seedSignature

/-- A seed that a height may have: it is the first one, or the block below draws it. -/
inductive Founded : Height → Seed → Prop where
  | first : Founded f.first 0
  | next {height : Height} {seed : Seed} {proof : BlockProof} (founded : Founded height seed)
    (proven : f.Proven ch height seed proof) : Founded (height + 1) proof.nextSeed

/-- A block is proven under a seed that its height may have. -/
def Certain (proof : BlockProof) : Prop :=
  ∃ seed, f.Founded ch proof.height seed ∧ f.Proven ch proof.height seed proof

/-- The chronicle is of a run in each assembly, and nobody works under a seed that is not
founded. -/
structure Chronicled : Prop where
  reachable : ∀ height seed, (f.assembly height seed).Reachable (ch (height, seed))
  founded : ∀ height seed i, ch (height, seed) i ≠ .fresh → f.Founded ch height seed

variable {f ch} {later : Chronicle} {height : Height} {seed seed' : Seed}
  {proof proof' : BlockProof} {i j : MemberId}

theorem Proven.mono (h : f.Proven ch height seed proof) (before : ch.Before later) :
    f.Proven later height seed proof where
  height_eq := h.height_eq
  final := h.final.imp (fun _ _ hattested => hattested.mono (before (height, seed)))
    fun _ _ hshare => hshare
  summed := h.summed

theorem Founded.mono (h : f.Founded ch height seed) (before : ch.Before later) :
    f.Founded later height seed := by
  induction h with
  | first => exact .first
  | next _ proven ih => exact .next ih (proven.mono before)

theorem Certain.mono (h : f.Certain ch proof) (before : ch.Before later) :
    f.Certain later proof := by
  obtain ⟨seed, hfounded, hproven⟩ := h
  exact ⟨seed, hfounded.mono before, hproven.mono before⟩

/-- Nothing is below the first height. -/
theorem Founded.le (h : f.Founded ch height seed) : f.first ≤ height := by
  induction h with
  | first => exact Nat.le_refl _
  | next _ _ ih => exact Nat.le_succ_of_le ih

theorem Certain.le (h : f.Certain ch proof) : f.first ≤ proof.height := by
  obtain ⟨seed, hfounded, -⟩ := h
  exact hfounded.le

/-- The shares in a proof are of a quorum. -/
theorem Proven.suffice (h : f.Proven ch height seed proof) :
    f.Suffice height seed (seedShares proof.commits) where
  enough := by
    rw [seedShares, List.length_map]
    exact h.final.enough
  distinct := by
    rw [seedShares, List.map_map]
    exact h.final.nodup
  member x hx := by
    obtain ⟨s, hs, rfl⟩ := List.mem_map.1 hx
    exact (h.final.committed s hs).mem
  valid x hx := by
    obtain ⟨s, hs, rfl⟩ := List.mem_map.1 hx
    exact (h.final.committed s hs).share

namespace Chronicled

/-- **Two proofs under one seed are for one block, and draw one seed.** -/
theorem proven_unique (h : f.Chronicled ch) (secure : f.Secure)
    (proven : f.Proven ch height seed proof) (proven' : f.Proven ch height seed proof') :
    proof'.blockHash = proof.blockHash ∧ proof'.seedSignature = proof.seedSignature := by
  have hreachable := h.reachable height seed
  have hlocked := hreachable.locked proven.final
  have hlocked' := hreachable.locked proven'.final
  constructor
  · rcases Nat.le_total proof.view proof'.view with hle | hle
    · exact hreachable.locked_unique_of_le hlocked hlocked' hle
    · exact (hreachable.locked_unique_of_le hlocked' hlocked hle).symm
  · obtain ⟨i, hi, hsum⟩ := proven.summed
    obtain ⟨j, hj, hsum'⟩ := proven'.summed
    rw [← hsum, ← hsum']
    exact secure.sum hj hi proven'.suffice proven.suffice

/-- **A height has one seed.** -/
theorem seed_unique (h : f.Chronicled ch) (secure : f.Secure) (founded : f.Founded ch height seed)
    (founded' : f.Founded ch height seed') : seed' = seed := by
  induction founded generalizing seed' with
  | first =>
    generalize hfirst : f.first = height at founded'
    cases founded' with
    | first => rfl
    | next below => exact absurd below.le (Nat.not_le_of_lt (hfirst ▸ Nat.lt_succ_self _))
  | @next height seed proof founded proven ih =>
    generalize hnext : height + 1 = height' at founded'
    cases founded' with
    | first => exact absurd founded.le (Nat.not_le_of_lt (hnext ▸ Nat.lt_succ_self _))
    | @next below seed' proof' founded' proven' =>
      obtain rfl : height = below := Nat.succ.inj hnext
      obtain rfl := ih founded'
      rw [BlockProof.nextSeed, BlockProof.nextSeed, (h.proven_unique secure proven proven').2]

/-- **A height has one block**, whichever proof it comes with. -/
theorem certain_unique (h : f.Chronicled ch) (secure : f.Secure) (certain : f.Certain ch proof)
    (certain' : f.Certain ch proof') (same : proof'.height = proof.height) :
    proof'.blockHash = proof.blockHash ∧ proof'.seedSignature = proof.seedSignature := by
  obtain ⟨seed, hfounded, hproven⟩ := certain
  obtain ⟨seed', hfounded', hproven'⟩ := certain'
  rw [same] at hfounded' hproven'
  rw [h.seed_unique secure hfounded hfounded'] at hproven'
  exact h.proven_unique secure hproven hproven'

/-! ## What was said -/

/-- What a correct member has said, it has signed in a term of the height that it is about. -/
theorem signs_of_uttered (h : f.Chronicled ch) {es : List Effect} {part : Part}
    (correct : f.correct part.sender = true) (knows : ch.Knows part.sender es)
    (uttered : UtteredIn es part) :
    ∃ seed, f.Founded ch part.content.height seed ∧
      (ch (part.content.height, seed) part.sender).Signs part.sender part.content := by
  obtain ⟨recipients, m, hm, own, hown, hsender, hcontent⟩ := uttered
  obtain ⟨⟨height, seed⟩, hasked⟩ := knows recipients m hm
  have hreachable := h.reachable height seed
  have htrace := (hreachable.run part.sender).trace
  have hvouched := (htrace.sound (hreachable.trusts part.sender)).2.sent recipients m hasked
  have hmember : part.sender ∈ (f.committeeOf height seed).members := by
    have hmem := hvouched.sender_mem
    rwa [(htrace.addressed hasked).sender, Assembly.me_term] at hmem
  have hheight : part.content.height = height := hcontent ▸ hvouched.height_parts own hown
  have hsigns := hvouched.parts own hown
  rw [← hsender] at hmember correct
  rw [hheight, ← hcontent]
  refine ⟨seed, h.founded height seed _ (Chronicle.ne_fresh_of_sent hasked), ?_⟩
  have hattested := hsigns hmember correct
  rwa [hsender] at hattested

/-- What was said of a height was signed under its seed. -/
theorem attested (h : f.Chronicled ch) (secure : f.Secure) (founded : f.Founded ch height seed)
    {part : Part} (here : part.content.height = height)
    (signs : f.correct part.sender = true → ∃ seed, f.Founded ch part.content.height seed ∧
      (ch (part.content.height, seed) part.sender).Signs part.sender part.content) :
    (f.assembly height seed).Attested (ch (height, seed)) part := by
  intro _ correct
  obtain ⟨seed', hfounded, hsigns⟩ := signs correct
  rw [here] at hfounded hsigns
  rwa [h.seed_unique secure founded hfounded] at hsigns

/-- What a member decides is proven. -/
theorem proven_of_decides (h : f.Chronicled ch) (secure : f.Secure) (correct : f.correct i = true)
    {d : Decision} (decides : .decide d ∈ (ch (height, seed) i).requests) :
    f.Proven ch height seed d.proof := by
  have hreachable := h.reachable height seed
  have htrusts := hreachable.trusts i
  have hshares : ((f.assembly height seed).term i).Trusts
      ⟨(f.assembly height seed).Attested (ch (height, seed)), f.Share height seed, fun _ _ => True⟩
      (ch (height, seed) i) :=
    ⟨htrusts.received, htrusts.own, fun s _ hverifies => ⟨i, correct, hverifies⟩, by
        rw [Assembly.me_term]
        exact ⟨i, correct, secure.own i correct height seed⟩,
      fun _ _ _ _ _ _ => trivial, fun _ _ _ _ => trivial⟩
  have hcertifies := (hreachable.run i).trace.certifies hshares decides
  exact ⟨hcertifies.proofHeight, hcertifies.final, i, correct, hcertifies.seedSignature.symm⟩

/-- **No proof is of a foreign seed.**  Whatever seed a proof is checked under, the seed is
founded if the proof is accepted, as long as what correct members did not sign is not in it. -/
theorem proven_of_accepts (h : f.Chronicled ch) (secure : f.Secure) (correct : f.correct i = true)
    (accepts : (f.committeeOf proof.height seed).acceptsBlockProof (f.keys i) proof seed = true)
    (signs : ∀ s ∈ proof.commits, Verified (f.keys i) (s.part .commit) →
      f.correct s.sender = true → ∃ seed, f.Founded ch s.content.height seed ∧
        (ch (s.content.height, seed) s.sender).Signs s.sender (.commit s.content)) :
    f.Founded ch proof.height seed ∧ f.Proven ch proof.height seed proof := by
  obtain ⟨hfinal, hsum⟩ := (Committee.acceptsBlockProof_iff _).1 accepts
  -- the share of a correct member is of the seed that it worked under
  have hsigned : ∀ s ∈ proof.commits, f.correct s.sender = true →
      f.Founded ch proof.height seed ∧
        (ch (proof.height, seed) s.sender).Signs s.sender (.commit s.content) := by
    intro s hs hcorrect
    have hcommitted := hfinal.committed s hs
    obtain ⟨seed', hfounded, hsigns⟩ := signs s hs hcommitted.signed hcorrect
    rw [hcommitted.height_eq] at hfounded hsigns
    have hown : s.content.seedShare = (f.keys s.sender).signSeed proof.height seed' := by
      have htrace := ((h.reachable proof.height seed').run s.sender).trace
      refine htrace.own_share ?_
      rwa [Assembly.me_term]
    have hverifies : f.Share proof.height seed s.content.seedShare s.sender :=
      ⟨i, correct, hcommitted.share⟩
    have hverifies' : f.Share proof.height seed' s.content.seedShare s.sender :=
      ⟨s.sender, hcorrect, hown ▸ secure.own s.sender hcorrect proof.height seed'⟩
    rw [(secure.only hverifies hverifies').2]
    exact ⟨hfounded, hsigns⟩
  have hsender : ∃ s ∈ proof.commits, f.correct s.sender = true := by
    obtain ⟨k, hk, hcorrect⟩ := Assembly.exists_correct_of_quorum
      (a := f.assembly proof.height seed) hfinal.nodup (fun k hk => by
        obtain ⟨s, hs, rfl⟩ := List.mem_map.1 hk
        exact (hfinal.committed s hs).mem)
      (by rw [List.length_map]; exact hfinal.enough)
    obtain ⟨s, hs, rfl⟩ := List.mem_map.1 hk
    exact ⟨s, hs, hcorrect⟩
  obtain ⟨s, hs, hcorrect⟩ := hsender
  refine ⟨(hsigned s hs hcorrect).1, rfl, ?_, i, correct, hsum⟩
  exact ⟨hfinal.enough, hfinal.nodup, fun s hs => ⟨(hfinal.committed s hs).height_eq,
    (hfinal.committed s hs).mem, fun _ hcorrect => (hsigned s hs hcorrect).2,
    i, correct, (hfinal.committed s hs).share⟩, hfinal.agree⟩

/-! ## Writing on -/

theorem blank (f : Federation) : f.Chronicled .blank :=
  ⟨fun _ _ => .fresh, fun _ _ _ hdone => absurd rfl hdone⟩

/-- A correct member does something in a term whose seed is founded. -/
theorem record (h : f.Chronicled ch) (founded : f.Founded ch height seed)
    (correct : f.correct i = true) {stimulus : Stimulus} {s : Step}
    (permits : ((f.assembly height seed).term i).Permits (ch (height, seed) i) stimulus)
    (authentic : ∀ m, stimulus = .message m → ∀ part ∈ m.parts, part.content.height = height →
      Verified (f.keys i) part → (f.assembly height seed).Attested (ch (height, seed)) part)
    (react : ((f.assembly height seed).term i).react (ch (height, seed) i).progress stimulus =
      .ok s) :
    let later := ch.record (height, seed) i ((ch (height, seed) i).after stimulus s)
    ch.Before later ∧ f.Chronicled later := by
  intro later
  have hreachable := h.reachable height seed
  have hbefore : ch.Before later :=
    Chronicle.before_record ((hreachable.run i).before permits react)
  refine ⟨hbefore, fun height' seed' => ?_, fun height' seed' j hdone => ?_⟩
  · by_cases hplace : (height', seed') = (height, seed)
    · obtain ⟨rfl, rfl⟩ := Prod.mk.inj hplace
      show (f.assembly height' seed').Reachable (ch.record _ _ _ _)
      rw [Chronicle.record_place]
      exact .step hreachable correct permits authentic react
    · show (f.assembly height' seed').Reachable (ch.record _ _ _ _)
      rw [Chronicle.record_other_place _ _ _ _ hplace]
      exact h.reachable height' seed'
  · by_cases hplace : (height', seed') = (height, seed)
    · obtain ⟨rfl, rfl⟩ := Prod.mk.inj hplace
      exact founded.mono hbefore
    · replace hdone : ch.record _ _ _ (height', seed') j ≠ .fresh := hdone
      rw [Chronicle.record_other_place _ _ _ _ hplace] at hdone
      exact (h.founded height' seed' j hdone).mono hbefore

end Chronicled

end Federation

end CommitteeConsensus
