import CommitteeConsensus.Term.ViewChange
import Mathlib.Data.List.Induction

/-!
# Evidence, apart from the keys that check it

`CommitteeConsensus.Certificate` decides with the keys of one member whether a
certificate holds.  An argument about several members needs the same certificates
under other readings of "this is really signed": that the signature verifies at some
other member, or that its sender did sign.  So the certificates are stated here over
an arbitrary predicate `good` on signed parts, and the deciding functions are the
case in which `good` is "verifies under these keys" (`acceptsProof_iff` and those
after it).

## Parts

The five kinds of contents are put into one type, `Statement`, and a `Part` is a signed
content of any kind.  `Message.parts` lists every part of a message, however deep it
is nested: the proofs inside of the votes inside of a NewView are parts of it.
`Message.authored` lists the contents that whoever makes a message signs for it,
which are the outer content and, in a NewView, its proposal.

A certificate passes from one reading of `good` to another as soon as the second
holds of its parts wherever the first does; these are the lemmas named `imp`.
-/

namespace CommitteeConsensus

/-! ## Contents and parts -/

/-- What a member signs, of any kind. -/
inductive Statement where
  | prePrepare (content : PrePrepareContent)
  | prepare (content : PrepareContent)
  | commit (content : CommitContent)
  | viewChange (content : ViewChangeContent)
  | newView (content : NewViewContent)

namespace Statement

/-- The height that a content is about. -/
def height : Statement → Height
  | .prePrepare c => c.height
  | .prepare c => c.height
  | .commit c => c.height
  | .viewChange c => c.height
  | .newView c => c.height

/-- The bytes that are signed under a content. -/
def bytes : Statement → Bytes
  | .prePrepare c => signingBytes c
  | .prepare c => signingBytes c
  | .commit c => signingBytes c
  | .viewChange c => signingBytes c
  | .newView c => signingBytes c

end Statement

/-- A signed content of any kind. -/
abbrev Part := Signed Statement

/-- A signed content of one kind as a part. -/
def Signed.part {α : Type} (wrap : α → Statement) (s : Signed α) : Part :=
  ⟨wrap s.content, s.sender, s.signature⟩

/-- Whether a part bears the signature of its sender. -/
def Verified (keys : Keys) (p : Part) : Prop :=
  keys.verify p.content.bytes p.signature p.sender = true

/-- A content as the owner of the keys signs it. -/
def Keys.part (keys : Keys) (content : Statement) : Part :=
  ⟨content, keys.me, keys.sign content.bytes⟩

/-- The parts of a prepared proof. -/
def PreparedProof.parts (p : PreparedProof) : List Part :=
  p.prePrepare.toList.map (·.part .prePrepare) ++ p.prepares.map (·.part .prepare)

/-- The parts of a vote for a view: the vote, and those of the proof it carries. -/
def Confirmation.parts (vote : Confirmation) : List Part :=
  vote.part .viewChange :: vote.content.preparedProof.toList.flatMap PreparedProof.parts

namespace Message

/-- Every signed part of a message. -/
def parts : Message → List Part
  | .prePrepare m => [m.signed.part .prePrepare]
  | .prepare m => [m.part .prepare]
  | .commit m => [m.part .commit]
  | .viewChange m => Confirmation.parts m.signed
  | .newView m => m.signed.part .newView :: m.prePrepare.signed.part .prePrepare ::
      m.signed.content.confirmations.flatMap Confirmation.parts

/-- The contents that are signed to make a message. -/
def authored : Message → List Statement
  | .prePrepare m => [.prePrepare m.signed.content]
  | .prepare m => [.prepare m.content]
  | .commit m => [.commit m.content]
  | .viewChange m => [.viewChange m.signed.content]
  | .newView m => [.newView m.signed.content, .prePrepare m.prePrepare.signed.content]

/-- A message brings a block along, under this hash. -/
def Carries : Message → Block → BlockHash → Prop
  | .prePrepare m, block, hash => m.block = block ∧ m.blockHash = hash
  | .viewChange m, block, hash =>
    m.block = some block ∧ m.signed.content.preparedProof.bind (·.blockHash) = some hash
  | .newView m, block, hash => m.prePrepare.block = block ∧ m.prePrepare.blockHash = hash
  | _, _, _ => False

end Message

namespace Committee

variable (c : Committee) (good : Part → Prop)

/-! ## Certificates over a reading of `good` -/

/-- The leader of its view signed a proposal for a height. -/
structure Proposed (height : Height) (m : Signed PrePrepareContent) : Prop where
  height_eq : m.content.height = height
  sender_eq : m.sender = c.leader m.content.view
  signed : good (m.part .prePrepare)

/-- A member other than the leader of the view signed a vote for a height. -/
structure Voted (height : Height) (s : Signed PrepareContent) : Prop where
  height_eq : s.content.height = height
  mem : s.sender ∈ c.members
  sender_ne : s.sender ≠ c.leader s.content.view
  signed : good (s.part .prepare)

/-- A proposal together with the votes of all but one of a quorum: its leader is the
one that is missing. -/
structure Certified (height : Height) (m : Signed PrePrepareContent)
    (votes : List (Signed PrepareContent)) : Prop where
  proposed : c.Proposed good height m
  enough : c.quorum - 1 ≤ votes.length
  nodup : (votes.map (·.sender)).Nodup
  voted : ∀ s ∈ votes, c.Voted good height s
  agree : ∀ s ∈ votes, s.content.view = m.content.view ∧ s.content.blockHash = m.content.blockHash

/-- A prepared proof, if there is one and it claims anything, is a certificate of a
view below `target`. -/
def Proves (height : Height) (target : View) (proof : Option PreparedProof) : Prop :=
  ∀ p, proof = some p → (p.prePrepare = none ∧ p.prepares = []) ∨
    ∃ m, p.prePrepare = some m ∧ p.prepares ≠ [] ∧ m.content.view < target ∧
      c.Certified good height m p.prepares

/-- A member signed a vote for a view, and the proof that comes with it holds. -/
structure Asked (height : Height) (view : View) (vote : Confirmation) : Prop where
  height_eq : vote.content.height = height
  view_eq : vote.content.view = view
  mem : vote.sender ∈ c.members
  signed : good (vote.part .viewChange)
  proves : c.Proves good height view vote.content.preparedProof

/-- A member signed a commit, with its share of the seed. -/
structure Committed (share : Signature → MemberId → Prop) (height : Height)
    (s : Signed CommitContent) : Prop where
  height_eq : s.content.height = height
  mem : s.sender ∈ c.members
  signed : good (s.part .commit)
  share : share s.content.seedShare s.sender

/-- A quorum of distinct members committed to one block in one view. -/
structure Final (share : Signature → MemberId → Prop) (height : Height) (view : View)
    (hash : BlockHash) (commits : List (Signed CommitContent)) : Prop where
  enough : c.quorum ≤ commits.length
  nodup : (commits.map (·.sender)).Nodup
  committed : ∀ s ∈ commits, c.Committed good share height s
  agree : ∀ s ∈ commits, s.content.view = view ∧ s.content.blockHash = hash

/-- A quorum of distinct members voted for a view. -/
structure Justified (height : Height) (view : View) (votes : List Confirmation) : Prop where
  enough : c.quorum ≤ votes.length
  nodup : (votes.map (·.sender)).Nodup
  asked : ∀ vote ∈ votes, c.Asked good height view vote

end Committee

/-- The votes for a view leave its leader no choice but the block with this hash, or
leave the choice open. -/
def Obliges (votes : List Confirmation) (hash : BlockHash) : Prop :=
  ∀ h, (highestPreparedProof votes).bind (·.blockHash) = some h → hash = h

namespace Committee

variable {c : Committee} {good good' : Part → Prop} {height : Height}

/-! ## From one reading to another -/

theorem Proposed.imp {m : Signed PrePrepareContent} (h : c.Proposed good height m)
    (imp : (m.part .prePrepare).content.height = height → good (m.part .prePrepare) →
      good' (m.part .prePrepare)) : c.Proposed good' height m :=
  ⟨h.height_eq, h.sender_eq, imp h.height_eq h.signed⟩

theorem Voted.imp {s : Signed PrepareContent} (h : c.Voted good height s)
    (imp : (s.part .prepare).content.height = height → good (s.part .prepare) →
      good' (s.part .prepare)) : c.Voted good' height s :=
  ⟨h.height_eq, h.mem, h.sender_ne, imp h.height_eq h.signed⟩

theorem Certified.imp {m : Signed PrePrepareContent} {votes : List (Signed PrepareContent)}
    (h : c.Certified good height m votes)
    (imp : ∀ p ∈ m.part .prePrepare :: votes.map (·.part .prepare),
      p.content.height = height → good p → good' p) : c.Certified good' height m votes where
  proposed := h.proposed.imp (imp _ List.mem_cons_self)
  enough := h.enough
  nodup := h.nodup
  voted s hs :=
    (h.voted s hs).imp (imp _ (List.mem_cons_of_mem _ (List.mem_map_of_mem hs)))
  agree := h.agree

theorem Proves.imp {target : View} {proof : Option PreparedProof}
    (h : c.Proves good height target proof)
    (imp : ∀ p ∈ proof.toList.flatMap PreparedProof.parts,
      p.content.height = height → good p → good' p) : c.Proves good' height target proof := by
  intro p hp
  subst hp
  rcases h p rfl with hnone | ⟨m, hm, hne, hlt, hcert⟩
  · exact Or.inl hnone
  · refine Or.inr ⟨m, hm, hne, hlt, hcert.imp fun q hq => imp q ?_⟩
    simpa [PreparedProof.parts, hm] using hq

theorem Asked.imp {view : View} {vote : Confirmation} (h : c.Asked good height view vote)
    (imp : ∀ p ∈ vote.parts, p.content.height = height → good p → good' p) :
    c.Asked good' height view vote where
  height_eq := h.height_eq
  view_eq := h.view_eq
  mem := h.mem
  signed := imp _ List.mem_cons_self h.height_eq h.signed
  proves := h.proves.imp fun p hp => imp p (List.mem_cons_of_mem _ hp)

theorem Justified.imp {view : View} {votes : List Confirmation}
    (h : c.Justified good height view votes)
    (imp : ∀ p ∈ votes.flatMap Confirmation.parts, p.content.height = height → good p → good' p) :
    c.Justified good' height view votes where
  enough := h.enough
  nodup := h.nodup
  asked vote hv := (h.asked vote hv).imp fun p hp => imp p (List.mem_flatMap.2 ⟨vote, hv, hp⟩)

theorem Final.imp {share share' : Signature → MemberId → Prop} {view : View} {hash : BlockHash}
    {commits : List (Signed CommitContent)}
    (h : c.Final good share height view hash commits)
    (imp : ∀ s ∈ commits, good (s.part .commit) → good' (s.part .commit))
    (impShare : ∀ σ member, share σ member → share' σ member) :
    c.Final good' share' height view hash commits where
  enough := h.enough
  nodup := h.nodup
  committed s hs :=
    have hc := h.committed s hs
    ⟨hc.height_eq, hc.mem, imp s hs hc.signed, impShare _ _ hc.share⟩
  agree := h.agree

/-! ## What a certificate is made of -/

theorem Proves.parts {target : View} {proof : Option PreparedProof}
    (h : c.Proves good height target proof) :
    ∀ p ∈ proof.toList.flatMap PreparedProof.parts, good p := by
  intro p hp
  obtain ⟨q, hq, hp⟩ := List.mem_flatMap.1 hp
  rw [Option.mem_toList] at hq
  rcases h q hq with ⟨hnone, hnil⟩ | ⟨m, hm, -, -, hcert⟩
  · simp only [PreparedProof.parts, hnone, hnil, Option.toList_none, List.map_nil,
      List.append_nil, List.not_mem_nil] at hp
  · simp only [PreparedProof.parts, hm, Option.toList_some, List.map_cons, List.map_nil,
      List.cons_append, List.nil_append, List.mem_cons, List.mem_map] at hp
    rcases hp with rfl | ⟨s, hs, rfl⟩
    · exact hcert.proposed.signed
    · exact (hcert.voted s hs).signed

theorem Asked.parts {view : View} {vote : Confirmation} (h : c.Asked good height view vote) :
    ∀ p ∈ vote.parts, good p := by
  intro p hp
  rcases List.mem_cons.1 hp with rfl | hp
  · exact h.signed
  · exact h.proves.parts p hp

theorem Justified.parts {view : View} {votes : List Confirmation}
    (h : c.Justified good height view votes) :
    ∀ p ∈ votes.flatMap Confirmation.parts, good p := by
  intro p hp
  obtain ⟨vote, hvote, hp⟩ := List.mem_flatMap.1 hp
  exact (h.asked vote hvote).parts p hp

/-! ## The deciding functions -/

variable (keys : Keys)

theorem supported_iff {leader : MemberId} {m : Signed PrePrepareContent}
    {votes : List (Signed PrepareContent)} :
    supported keys c.members leader m votes = true ↔
      (m.sender = leader ∧ Verified keys (m.part .prePrepare)) ∧
        (∀ s ∈ votes, ((((s.content.height = m.content.height ∧
          s.content.view = m.content.view) ∧ s.content.blockHash = m.content.blockHash) ∧
            s.sender ≠ leader) ∧ s.sender ∈ c.members) ∧ Verified keys (s.part .prepare)) ∧
          (votes.map (·.sender)).Nodup := by
  simp only [supported, supports, distinct, Bool.and_eq_true, beq_iff_eq, List.all_eq_true,
    bne_iff_ne, List.contains_iff_mem, decide_eq_true_eq, and_assoc]
  rfl

/-- Whether a prepared proof is accepted says what it certifies. -/
theorem acceptsProof_iff {target : View} {proof : Option PreparedProof} :
    c.acceptsProof keys height target proof = true ↔
      c.Proves (Verified keys) height target proof := by
  rcases proof with _ | ⟨m, votes⟩
  · simp [acceptsProof, PreparedProof.triage, Proves]
  · rcases m with _ | m <;> rcases votes with _ | ⟨s, votes⟩
    · simp [acceptsProof, PreparedProof.triage, Proves]
    · simp [acceptsProof, PreparedProof.triage, Proves]
    · simp [acceptsProof, PreparedProof.triage, Proves]
    · simp only [acceptsProof, PreparedProof.triage, Proves, Option.some.injEq]
      constructor
      · intro h p hp
        subst hp
        refine Or.inr ⟨m, rfl, List.cons_ne_nil _ _, ?_⟩
        by_cases hc : (m.content.height == height && decide (m.content.view < target) &&
            decide (c.quorum - 1 ≤ (s :: votes).length)) = true
        · rw [if_pos hc] at h
          obtain ⟨⟨hs, hv⟩, hall, hnd⟩ := (supported_iff keys).1 h
          simp only [Bool.and_eq_true, beq_iff_eq, decide_eq_true_eq] at hc
          refine ⟨hc.1.2, ⟨hc.1.1, hs, hv⟩, hc.2, hnd, fun x hx => ?_, fun x hx => ?_⟩
          · obtain ⟨⟨⟨⟨⟨hh, hw⟩, -⟩, hne⟩, hmem⟩, hver⟩ := hall x hx
            exact ⟨hh.trans hc.1.1, hmem, by rw [hw]; exact hne, hver⟩
          · obtain ⟨⟨⟨⟨⟨-, hw⟩, hb⟩, -⟩, -⟩, -⟩ := hall x hx
            exact ⟨hw, hb⟩
        · rw [if_neg hc] at h
          exact absurd h (by simp)
      · intro h
        rcases h _ rfl with ⟨hnone, -⟩ | ⟨m', hm, -, hlt, hcert⟩
        · exact absurd hnone (by simp)
        · obtain rfl : m = m' := Option.some.inj hm
          have hc : (m.content.height == height && decide (m.content.view < target) &&
              decide (c.quorum - 1 ≤ (s :: votes).length)) = true := by
            simp only [Bool.and_eq_true, beq_iff_eq, decide_eq_true_eq]
            exact ⟨⟨hcert.proposed.height_eq, hlt⟩, hcert.enough⟩
          rw [if_pos hc]
          refine (supported_iff keys).2
            ⟨⟨hcert.proposed.sender_eq, hcert.proposed.signed⟩, fun x hx => ?_, hcert.nodup⟩
          have hv := hcert.voted x hx
          have ha := hcert.agree x hx
          refine ⟨⟨⟨⟨⟨?_, ha.1⟩, ha.2⟩, ?_⟩, hv.mem⟩, hv.signed⟩
          · rw [hv.height_eq, hcert.proposed.height_eq]
          · rw [← ha.1]; exact hv.sender_ne

/-- Whether a vote for a view is accepted says that its sender asked for the view. -/
theorem acceptsVote_iff {view : View} {vote : Confirmation} :
    c.acceptsVote keys height view vote = true ↔ c.Asked (Verified keys) height view vote := by
  simp only [acceptsVote, Bool.and_eq_true, beq_iff_eq, contains_eq_true, acceptsProof_iff]
  constructor
  · rintro ⟨⟨⟨⟨hh, hv⟩, hm⟩, hs⟩, hp⟩
    exact ⟨hh, hv, hm, hs, hp⟩
  · rintro ⟨hh, hv, hm, hs, hp⟩
    exact ⟨⟨⟨⟨hh, hv⟩, hm⟩, hs⟩, hp⟩

/-- Whether confirmations are accepted says that they justify the view. -/
theorem acceptsConfirmations_iff {view : View} {votes : List Confirmation} :
    c.acceptsConfirmations keys height view votes = true ↔
      c.Justified (Verified keys) height view votes := by
  simp only [acceptsConfirmations, distinct, Bool.and_eq_true, decide_eq_true_eq,
    List.all_eq_true, acceptsVote_iff]
  constructor
  · rintro ⟨⟨hq, hd⟩, ha⟩
    exact ⟨hq, hd, ha⟩
  · rintro ⟨hq, hd, ha⟩
    exact ⟨⟨hq, hd⟩, ha⟩

/-- Whether a block proof is accepted says that the commits in it are final. -/
theorem acceptsBlockProof_iff {proof : BlockProof} {seed : Seed} :
    c.acceptsBlockProof keys proof seed = true ↔
      c.Final (Verified keys)
        (fun share member => keys.verifySeed proof.height seed share member = true)
        proof.height proof.view proof.blockHash proof.commits ∧
      keys.aggregate proof.height (seedShares proof.commits) = proof.seedSignature := by
  simp only [acceptsBlockProof, acceptsCommit, distinct, Bool.and_eq_true, decide_eq_true_eq,
    List.all_eq_true, beq_iff_eq, contains_eq_true]
  constructor
  · rintro ⟨⟨⟨hq, hall⟩, hnodup⟩, hsum⟩
    refine ⟨⟨hq, hnodup, fun s hs => ?_, fun s hs => ?_⟩, hsum⟩
    · obtain ⟨⟨⟨⟨⟨hh, -⟩, -⟩, hm⟩, hv⟩, hshare⟩ := hall s hs
      exact ⟨hh, hm, hv, hshare⟩
    · obtain ⟨⟨⟨⟨⟨-, hw⟩, hb⟩, -⟩, -⟩, -⟩ := hall s hs
      exact ⟨hw, hb⟩
  · rintro ⟨⟨hq, hnodup, hcommitted, hagree⟩, hsum⟩
    refine ⟨⟨⟨hq, fun s hs => ?_⟩, hnodup⟩, hsum⟩
    obtain ⟨hh, hm, hv, hshare⟩ := hcommitted s hs
    obtain ⟨hw, hb⟩ := hagree s hs
    exact ⟨⟨⟨⟨⟨hh, hw⟩, hb⟩, hm⟩, hv⟩, hshare⟩

end Committee

/-! ## The highest prepared proof

The search keeps the best proof so far, so what it has found is described by a
property of the proofs seen, which one more proof preserves. -/

/-- What `best` is among the proofs seen: one that claims the highest view of all, or
nothing where no proof claims a view. -/
def IsHighest (proofs : List PreparedProof) : Option PreparedProof → Prop
  | none => ∀ p ∈ proofs, p.prePrepare = none
  | some best => best ∈ proofs ∧ ∃ m, best.prePrepare = some m ∧
      ∀ p ∈ proofs, ∀ m', p.prePrepare = some m' → m'.content.view ≤ m.content.view

/-- One step of the search. -/
def laterProof (best : Option PreparedProof) (proof : PreparedProof) : Option PreparedProof :=
  match best, proof.view with
  | best, none => best
  | none, some _ => some proof
  | some b, some view => if b.view.getD 0 ≤ view then some proof else some b

theorem highestPreparedProof_eq (votes : List Confirmation) :
    highestPreparedProof votes =
      (votes.filterMap (·.content.preparedProof)).foldl laterProof none := rfl

theorem IsHighest.laterProof {proofs : List PreparedProof} {best : Option PreparedProof}
    (h : IsHighest proofs best) (proof : PreparedProof) :
    IsHighest (proofs ++ [proof]) (laterProof best proof) := by
  rcases hp : proof.prePrepare with _ | m
  · -- a proof that claims nothing changes nothing
    have hview : proof.view = none := by rw [PreparedProof.view, hp]; rfl
    rcases best with _ | b
    · simp only [CommitteeConsensus.laterProof, hview]
      intro p hmem
      rcases List.mem_append.1 hmem with hmem | hmem
      · exact h p hmem
      · rw [List.mem_singleton.1 hmem, hp]
    · simp only [CommitteeConsensus.laterProof, hview]
      obtain ⟨hb, mb, hmb, hmax⟩ := h
      refine ⟨List.mem_append_left _ hb, mb, hmb, fun p hmem m' hm' => ?_⟩
      rcases List.mem_append.1 hmem with hmem | hmem
      · exact hmax p hmem m' hm'
      · rw [List.mem_singleton.1 hmem, hp] at hm'
        exact absurd hm' (by simp)
  · have hview : proof.view = some m.content.view := by rw [PreparedProof.view, hp]; rfl
    have hlast : proof ∈ proofs ++ [proof] := List.mem_append_right _ List.mem_cons_self
    rcases best with _ | b
    · simp only [CommitteeConsensus.laterProof, hview]
      refine ⟨hlast, m, hp, fun p hmem m' hm' => ?_⟩
      rcases List.mem_append.1 hmem with hmem | hmem
      · rw [h p hmem] at hm'
        exact absurd hm' (by simp)
      · rw [List.mem_singleton.1 hmem, hp] at hm'
        exact Nat.le_of_eq (congrArg (·.content.view) (Option.some.inj hm').symm)
    · obtain ⟨hb, mb, hmb, hmax⟩ := h
      have hbview : b.view = some mb.content.view := by rw [PreparedProof.view, hmb]; rfl
      simp only [CommitteeConsensus.laterProof, hview, hbview, Option.getD_some]
      by_cases hle : mb.content.view ≤ m.content.view
      · rw [if_pos hle]
        refine ⟨hlast, m, hp, fun p hmem m' hm' => ?_⟩
        rcases List.mem_append.1 hmem with hmem | hmem
        · exact Nat.le_trans (hmax p hmem m' hm') hle
        · rw [List.mem_singleton.1 hmem, hp] at hm'
          exact Nat.le_of_eq (congrArg (·.content.view) (Option.some.inj hm').symm)
      · rw [if_neg hle]
        refine ⟨List.mem_append_left _ hb, mb, hmb, fun p hmem m' hm' => ?_⟩
        rcases List.mem_append.1 hmem with hmem | hmem
        · exact hmax p hmem m' hm'
        · rw [List.mem_singleton.1 hmem, hp] at hm'
          rw [← Option.some.inj hm']
          exact Nat.le_of_lt (Nat.lt_of_not_le hle)

theorem isHighest_foldl (proofs : List PreparedProof) :
    IsHighest proofs (proofs.foldl laterProof none) := by
  induction proofs using List.reverseRecOn with
  | nil => exact fun p hp => absurd hp (by simp)
  | append_singleton proofs proof ih =>
    rw [List.foldl_append]
    exact ih.laterProof proof

/-- No vote claims a view where there is no highest proof. -/
theorem prePrepare_eq_none_of_highest {votes : List Confirmation}
    (h : highestPreparedProof votes = none) {vote : Confirmation} (hv : vote ∈ votes)
    {p : PreparedProof} (hp : vote.content.preparedProof = some p) : p.prePrepare = none := by
  have hh := isHighest_foldl (votes.filterMap (·.content.preparedProof))
  rw [← highestPreparedProof_eq, h] at hh
  exact hh p (List.mem_filterMap.2 ⟨vote, hv, hp⟩)

/-- The highest proof is a vote's, and no vote claims a higher view. -/
theorem exists_of_highestPreparedProof {votes : List Confirmation} {best : PreparedProof}
    (h : highestPreparedProof votes = some best) :
    (∃ vote ∈ votes, vote.content.preparedProof = some best) ∧
      ∃ m, best.prePrepare = some m ∧ ∀ vote ∈ votes, ∀ p m',
        vote.content.preparedProof = some p → p.prePrepare = some m' →
          m'.content.view ≤ m.content.view := by
  have hh := isHighest_foldl (votes.filterMap (·.content.preparedProof))
  rw [← highestPreparedProof_eq, h] at hh
  obtain ⟨hb, m, hm, hmax⟩ := hh
  refine ⟨List.mem_filterMap.1 hb, m, hm, fun vote hv p m' hp hm' => ?_⟩
  exact hmax p (List.mem_filterMap.2 ⟨vote, hv, hp⟩) m' hm'

/-! ## The block to propose again -/

/-- A request for a view brings along the block that its proof is about. -/
def ViewChange.Brings (fits : Block → BlockHash → Prop) (m : ViewChange) : Prop :=
  ∀ hash, m.signed.content.preparedProof.bind (·.blockHash) = some hash →
    ∃ block, m.block = some block ∧ fits block hash

theorem ViewChange.Brings.imp {fits fits' : Block → BlockHash → Prop} {m : ViewChange}
    (h : m.Brings fits) (imp : ∀ block hash, fits block hash → fits' block hash) :
    m.Brings fits' := fun hash hh => (h hash hh).imp fun _ => And.imp_right (imp _ _)

section Reproposal

variable {requests : List ViewChange}

/-- A block is proposed again because the highest proof is about it, and one of the
requests with a proof about it brought it along. -/
theorem reproposal_eq_some {block : Block} {hash : BlockHash}
    (h : Term.reproposal requests = some (block, hash)) :
    (highestPreparedProof (requests.map (·.signed))).bind (·.blockHash) = some hash ∧
      ∃ m ∈ requests, m.signed.content.preparedProof.bind (·.blockHash) = some hash ∧
        m.block = some block := by
  rw [Term.reproposal] at h
  obtain ⟨proof, hproof, h⟩ := Option.bind_eq_some_iff.1 h
  obtain ⟨hash', hhash, h⟩ := Option.bind_eq_some_iff.1 h
  obtain ⟨block', hblock, h⟩ := Option.bind_eq_some_iff.1 h
  obtain ⟨rfl, rfl⟩ := Prod.mk.inj (Option.some.inj h)
  obtain ⟨m, hm, hfound⟩ := List.exists_of_findSome?_eq_some hblock
  split at hfound
  · next hsame => exact ⟨by rw [hproof]; exact hhash, m, hm, hsame, hfound⟩
  · exact absurd hfound (by simp)

/-- The choice is open only if no request claims anything, as long as what is claimed is
brought along. -/
theorem highest_of_reproposal_eq_none {fits : Block → BlockHash → Prop}
    (h : Term.reproposal requests = none) (brings : ∀ m ∈ requests, m.Brings fits) :
    (highestPreparedProof (requests.map (·.signed))).bind (·.blockHash) = none := by
  rcases hproof : highestPreparedProof (requests.map (·.signed)) with _ | proof
  · rw [hproof]
    rfl
  · rcases hhash : proof.blockHash with _ | hash
    · rw [hproof]
      exact hhash
    · -- the request with the highest proof would bring the block
      obtain ⟨⟨vote, hvote, hclaims⟩, -⟩ := exists_of_highestPreparedProof hproof
      obtain ⟨m, hm, rfl⟩ := List.mem_map.1 hvote
      have hsame : m.signed.content.preparedProof.bind (·.blockHash) = some hash := by
        rw [hclaims]
        exact hhash
      obtain ⟨block, hblock, -⟩ := brings m hm hash hsame
      rw [Term.reproposal, hproof] at h
      simp only [Option.bind_eq_bind, Option.bind_some, hhash] at h
      rw [Option.bind_eq_none_iff] at h
      rcases hfound : requests.findSome? (fun vote =>
        if vote.signed.content.preparedProof.bind (·.blockHash) = some hash then vote.block
        else none) with _ | found
      · rw [List.findSome?_eq_none_iff] at hfound
        have hnone := hfound m hm
        rw [if_pos hsame, hblock] at hnone
        exact absurd hnone (by simp)
      · exact absurd (h found hfound) (by simp)

end Reproposal

/-! ## What a term admits

The three checks on incoming messages are the certificates again, together with what
concerns the block that comes along. -/

namespace Term

variable {t : Term}

/-- A block is one of the term's height, and the hash is its own. -/
def Fits (t : Term) (block : Block) (hash : BlockHash) : Prop :=
  block.height = t.height ∧ t.capabilities.matchesHash t.height block hash = true

theorem admitsProposal_iff {m : PrePrepare} {view : View} :
    t.admitsProposal m view = true ↔
      (m.view = view ∧ t.committee.Proposed (Verified t.keys) t.height m.signed) ∧
        t.Fits m.block m.blockHash := by
  simp only [admitsProposal, Bool.and_eq_true, beq_iff_eq]
  constructor
  · rintro ⟨⟨⟨⟨⟨hh, rfl⟩, hs⟩, hb⟩, hver⟩, hfit⟩
    exact ⟨⟨rfl, hh, hs, hver⟩, hb, hfit⟩
  · rintro ⟨⟨rfl, hh, hs, hver⟩, hb, hfit⟩
    exact ⟨⟨⟨⟨⟨hh, rfl⟩, hs⟩, hb⟩, hver⟩, hfit⟩

theorem admitsViewChange_iff {m : ViewChange} :
    t.admitsViewChange m = true ↔
      t.committee.Asked (Verified t.keys) t.height m.view m.signed ∧ m.Brings t.Fits := by
  rw [admitsViewChange, Bool.and_eq_true, Committee.acceptsVote_iff, ViewChange.Brings]
  refine and_congr_right fun _ => ?_
  rcases m.signed.content.preparedProof.bind (·.blockHash) with _ | hash
  · simp
  · rcases m.block with _ | block
    · simp
    · simp [Fits]

theorem admitsNewView_iff {m : NewView} :
    t.admitsNewView m = true ↔
      ((m.signed.content.height = t.height ∧
          m.signed.sender = t.committee.leader m.signed.content.view ∧
            Verified t.keys (m.signed.part .newView)) ∧
        t.admitsProposal m.prePrepare m.signed.content.view = true) ∧
      t.committee.Justified (Verified t.keys) t.height m.signed.content.view
        m.signed.content.confirmations ∧
      Obliges m.signed.content.confirmations m.prePrepare.blockHash := by
  have hsigned : m.signed.verifies t.keys = true ↔ Verified t.keys (m.signed.part .newView) :=
    Iff.rfl
  simp only [admitsNewView, Bool.and_eq_true, beq_iff_eq, Committee.acceptsConfirmations_iff,
    and_assoc, hsigned, Obliges]
  rcases (highestPreparedProof m.signed.content.confirmations).bind (·.blockHash) with _ | hash
  · simp
  · simp

end Term

end CommitteeConsensus
