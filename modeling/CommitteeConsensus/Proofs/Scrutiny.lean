import CommitteeConsensus.Proofs.Evidence

/-!
# Validators that read a certificate once

A validator may go through the entries of a certificate one by one, stop at the first that it
refuses, and remember whose entries it has seen, so that a second one of the same sender is
refused where it stands (`passes`).  It makes no difference to the answer at which point of its
checks it looks the sender up, since whatever fails ends the pass: a pass succeeds exactly if
every entry stands up to all checks and the senders are pairwise distinct (`passes_iff`).

The three validators are written here in this way, each with its checks in an order of its own.
They give the answers of `Committee.acceptsProof`, `Committee.acceptsConfirmations` and
`Committee.acceptsBlockProof`, which ask for distinct senders once and apart from the rest, and
so all of them accept exactly the certificates that are declared (`Committee.accepts_declared`).
-/

namespace CommitteeConsensus

/-! ## One pass -/

section Pass

variable {α : Type} {before after : Signed α → Bool} {seen : List MemberId} {l : List (Signed α)}

/-- Goes through signed contents until one is refused.  A content is refused by `before`, or
because its sender has been seen, or by `after`. -/
def passes (before after : Signed α → Bool) (seen : List MemberId) : List (Signed α) → Bool
  | [] => true
  | s :: rest =>
    if before s then
      if seen.contains s.sender then false
      else if after s then passes before after (s.sender :: seen) rest
      else false
    else false

/-- What the first content has to stand up to, and what is left to the others. -/
theorem passes_cons {s : Signed α} : passes before after seen (s :: l) = true ↔
    ((before s = true ∧ after s = true) ∧ s.sender ∉ seen) ∧
      passes before after (s.sender :: seen) l = true := by
  have hseen : seen.contains s.sender = true ↔ s.sender ∈ seen := List.contains_iff_mem
  rw [passes]
  split
  · next hbefore =>
    split
    · next hmem =>
      refine iff_of_false Bool.false_ne_true ?_
      rintro ⟨⟨-, hnew⟩, -⟩
      exact hnew (hseen.1 hmem)
    · next hnew =>
      split
      · next hafter =>
        exact (and_iff_right ⟨⟨hbefore, hafter⟩, fun hmem => hnew (hseen.2 hmem)⟩).symm
      · next hafter =>
        refine iff_of_false Bool.false_ne_true ?_
        rintro ⟨⟨⟨-, hpassed⟩, -⟩, -⟩
        exact hafter hpassed
  · next hbefore =>
    refine iff_of_false Bool.false_ne_true ?_
    rintro ⟨⟨⟨hpassed, -⟩, -⟩, -⟩
    exact hbefore hpassed

/-- **What a pass asks for**: every content stands up to both checks, and its sender is neither
one of those seen before nor that of another content. -/
theorem passes_iff : passes before after seen l = true ↔
    (∀ s ∈ l, before s = true ∧ after s = true) ∧ (l.map (·.sender)).Nodup ∧
      ∀ s ∈ l, s.sender ∉ seen := by
  induction l generalizing seen with
  | nil => simp [passes]
  | cons s rest ih =>
    rw [passes_cons, ih, List.map_cons, List.nodup_cons, List.forall_mem_cons,
      List.forall_mem_cons]
    constructor
    · rintro ⟨⟨hchecked, hnew⟩, hrest, hnodup, hunseen⟩
      refine ⟨⟨hchecked, hrest⟩, ⟨fun hmem => ?_, hnodup⟩, hnew, fun b hb hmem => ?_⟩
      · obtain ⟨b, hb, hsame⟩ := List.mem_map.1 hmem
        exact hunseen b hb (hsame ▸ List.mem_cons_self)
      · exact hunseen b hb (List.mem_cons_of_mem _ hmem)
    · rintro ⟨⟨hchecked, hrest⟩, ⟨hsole, hnodup⟩, hnew, hunseen⟩
      refine ⟨⟨hchecked, hnew⟩, hrest, hnodup, fun b hb hmem => ?_⟩
      rcases List.mem_cons.1 hmem with hsame | hmem
      · exact hsole (hsame ▸ List.mem_map_of_mem hb)
      · exact hunseen b hb hmem

/-- A pass is two questions, whatever the order of its checks. -/
theorem passes_eq : passes before after [] l =
    ((l.all fun s => before s && after s) && distinct (l.map (·.sender))) := by
  rw [Bool.eq_iff_iff, passes_iff, Bool.and_eq_true, List.all_eq_true, distinct,
    decide_eq_true_iff]
  simp only [Bool.and_eq_true, List.not_mem_nil, not_false_eq_true, implies_true, and_true]

end Pass

namespace Committee

variable (c : Committee) (keys : Keys)

/-! ## The validators, in one pass each -/

/-- Looks a prepared proof through.  The leader is out of the question before a vote is looked
up in the committee, and the signature comes last. -/
def scansProof (height : Height) (target : View) : Option PreparedProof → Bool
  | none => true
  | some ⟨none, []⟩ => true
  | some ⟨none, _ :: _⟩ => false
  | some ⟨some _, []⟩ => false
  | some ⟨some m, votes@(_ :: _)⟩ =>
    if m.content.height ≠ height ∨ target ≤ m.content.view then false
    else if votes.length < c.quorum - 1 then false
    else if m.sender ≠ c.leader m.content.view ∨ m.verifies keys = false then false
    else
      passes
        (fun s => s.content.height == m.content.height && s.content.view == m.content.view &&
          s.content.blockHash == m.content.blockHash && s.sender != c.leader m.content.view &&
            c.contains s.sender)
        (·.verifies keys) [] votes

/-- Looks a vote for a view through. -/
def scansVote (height : Height) (target : View) (vote : Confirmation) : Bool :=
  vote.content.height == height && vote.content.view == target && c.contains vote.sender &&
    vote.verifies keys && c.scansProof keys height target vote.content.preparedProof

/-- Looks the votes for a view through.  The sender is looked up before anything else. -/
def scansConfirmations (height : Height) (view : View) (votes : List Confirmation) : Bool :=
  if votes.length < c.quorum then false
  else passes (fun _ => true) (c.scansVote keys height view) [] votes

/-- Looks a block proof through.  Signature and share come last in each commit, and the sum of
the shares after all of them. -/
def scansBlockProof (proof : BlockProof) (seed : Seed) : Bool :=
  if proof.commits.length < c.quorum then false
  else if passes
      (fun s => s.content.height == proof.height && s.content.view == proof.view &&
        s.content.blockHash == proof.blockHash && c.contains s.sender)
      (fun s => s.verifies keys &&
        keys.verifySeed proof.height seed s.content.seedShare s.sender) [] proof.commits then
    keys.aggregate proof.height (seedShares proof.commits) == proof.seedSignature
  else false

variable {c keys} {height : Height} {target view : View}

/-! ## What they accept -/

/-- The leader of the view proposed, and the votes of all but one of a quorum are for it. -/
theorem certified_iff {m : Signed PrePrepareContent} {votes : List (Signed PrepareContent)} :
    c.Certified (Verified keys) height m votes ↔
      ((m.content.height = height ∧ c.quorum - 1 ≤ votes.length) ∧
        m.sender = c.leader m.content.view ∧ m.verifies keys = true) ∧
      passes
        (fun s => s.content.height == m.content.height && s.content.view == m.content.view &&
          s.content.blockHash == m.content.blockHash && s.sender != c.leader m.content.view &&
            c.contains s.sender)
        (·.verifies keys) [] votes = true := by
  simp only [passes_iff, Bool.and_eq_true, beq_iff_eq, bne_iff_ne, contains_eq_true]
  constructor
  · rintro ⟨⟨hheight, hleader, hsigned⟩, henough, hnodup, hvoted, hagree⟩
    refine ⟨⟨⟨hheight, henough⟩, hleader, hsigned⟩, fun s hs => ?_, hnodup, by simp⟩
    have hvote := hvoted s hs
    obtain ⟨hview, hhash⟩ := hagree s hs
    have hother := hvote.sender_ne
    rw [hview] at hother
    exact ⟨⟨⟨⟨⟨hvote.height_eq.trans hheight.symm, hview⟩, hhash⟩, hother⟩, hvote.mem⟩,
      hvote.signed⟩
  · rintro ⟨⟨⟨hheight, henough⟩, hleader, hsigned⟩, hvotes, hnodup, -⟩
    refine ⟨⟨hheight, hleader, hsigned⟩, henough, hnodup, fun s hs => ?_, fun s hs => ?_⟩
    · obtain ⟨⟨⟨⟨⟨hsame, hview⟩, -⟩, hother⟩, hmem⟩, hvote⟩ := hvotes s hs
      rw [← hview] at hother
      exact ⟨hsame.trans hheight, hmem, hother, hvote⟩
    · obtain ⟨⟨⟨⟨⟨-, hview⟩, hhash⟩, -⟩, -⟩, -⟩ := hvotes s hs
      exact ⟨hview, hhash⟩

theorem scansProof_iff {proof : Option PreparedProof} :
    c.scansProof keys height target proof = true ↔
      c.Proves (Verified keys) height target proof := by
  rcases proof with _ | ⟨_ | m, _ | ⟨first, rest⟩⟩
  · simp [scansProof, Proves]
  · simp [scansProof, Proves]
  · simp [scansProof, Proves]
  · simp [scansProof, Proves]
  · have hproves : c.Proves (Verified keys) height target (some ⟨some m, first :: rest⟩) ↔
        m.content.view < target ∧ c.Certified (Verified keys) height m (first :: rest) := by
      simp [Proves]
    rw [hproves, certified_iff, scansProof]
    simp only [Bool.if_false_left, Bool.and_eq_true, Bool.not_eq_true', decide_eq_false_iff_not,
      not_or, not_not, Nat.not_le, Nat.not_lt, Bool.not_eq_false]
    constructor
    · rintro ⟨⟨hheight, hbelow⟩, henough, hsigned, hvotes⟩
      exact ⟨hbelow, ⟨⟨hheight, henough⟩, hsigned⟩, hvotes⟩
    · rintro ⟨hbelow, ⟨⟨hheight, henough⟩, hsigned⟩, hvotes⟩
      exact ⟨⟨hheight, hbelow⟩, henough, hsigned, hvotes⟩

theorem scansProof_eq (proof : Option PreparedProof) :
    c.scansProof keys height target proof = c.acceptsProof keys height target proof := by
  rw [Bool.eq_iff_iff, scansProof_iff, acceptsProof_iff]

theorem scansVote_eq (vote : Confirmation) :
    c.scansVote keys height target vote = c.acceptsVote keys height target vote := by
  rw [scansVote, scansProof_eq, acceptsVote]

theorem scansConfirmations_eq (votes : List Confirmation) :
    c.scansConfirmations keys height view votes =
      c.acceptsConfirmations keys height view votes := by
  have hvote : c.scansVote keys height view = c.acceptsVote keys height view :=
    funext scansVote_eq
  rw [scansConfirmations, acceptsConfirmations, passes_eq, hvote, Bool.eq_iff_iff]
  simp only [Bool.if_false_left, Bool.and_eq_true, Bool.not_eq_true', decide_eq_false_iff_not,
    Nat.not_lt, decide_eq_true_iff, Bool.true_and]
  rw [and_assoc]
  exact and_congr_right fun _ => and_comm

theorem scansBlockProof_eq (proof : BlockProof) (seed : Seed) :
    c.scansBlockProof keys proof seed = c.acceptsBlockProof keys proof seed := by
  have hcommit : (proof.commits.all fun s =>
      (s.content.height == proof.height && s.content.view == proof.view &&
        s.content.blockHash == proof.blockHash && c.contains s.sender) &&
          (s.verifies keys && keys.verifySeed proof.height seed s.content.seedShare s.sender)) =
      proof.commits.all (c.acceptsCommit keys proof seed) := by
    refine congrArg (List.all proof.commits) (funext fun s => ?_)
    rw [acceptsCommit, Bool.and_assoc _ (s.verifies keys)]
  rw [scansBlockProof, acceptsBlockProof, passes_eq, hcommit, Bool.eq_iff_iff]
  simp only [Bool.if_false_left, Bool.if_false_right, Bool.and_eq_true, Bool.not_eq_true',
    decide_eq_false_iff_not, decide_eq_true_iff, Nat.not_lt, and_assoc]

/-- **The validators accept what is declared, and nothing else.**  A prepared proof holds if
nothing is claimed, or if it consists of the proposal of the leader of a lower view and of the
votes of enough other members for it (`Committee.Proves`); votes for a view are accepted if a
quorum of distinct members asked for it, each with a proof that holds (`Committee.Justified`);
and a block proof is accepted if a quorum of distinct members committed to its block, each with
a valid share of the seed, and the shares add up (`Committee.Final`).  One pass over the entries
that stops at the first bad one gives the same answers. -/
theorem accepts_declared (c : Committee) (keys : Keys) (height : Height) (view : View) :
    (∀ proof, (c.acceptsProof keys height view proof = true ↔
          c.Proves (Verified keys) height view proof) ∧
        preparedProofHolds keys c.members c.quorum height view proof =
          .ok (c.scansProof keys height view proof) ∧
        c.scansProof keys height view proof = c.acceptsProof keys height view proof) ∧
      (∀ votes, (c.acceptsConfirmations keys height view votes = true ↔
          c.Justified (Verified keys) height view votes) ∧
        c.scansConfirmations keys height view votes =
          c.acceptsConfirmations keys height view votes) ∧
      ∀ proof seed, (c.acceptsBlockProof keys proof seed = true ↔
          c.Final (Verified keys)
            (fun share member => keys.verifySeed proof.height seed share member = true)
            proof.height proof.view proof.blockHash proof.commits ∧
          keys.aggregate proof.height (seedShares proof.commits) = proof.seedSignature) ∧
        c.scansBlockProof keys proof seed = c.acceptsBlockProof keys proof seed := by
  refine ⟨fun proof => ⟨acceptsProof_iff keys, ?_, scansProof_eq proof⟩,
    fun votes => ⟨acceptsConfirmations_iff keys, scansConfirmations_eq votes⟩,
    fun proof seed => ⟨acceptsBlockProof_iff keys, scansBlockProof_eq proof seed⟩⟩
  rw [preparedProofHolds_members, scansProof_eq]

end Committee

end CommitteeConsensus
