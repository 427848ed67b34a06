import CommitteeConsensus.Proofs.Orderly

/-!
# What a member sends, the others find valid

A message is written by one piece of code and checked by another.  A request for a view
takes its proof from the log, by keys and thresholds of its own; the opening of a view
chooses its block by a search through the votes; and whoever receives the one or the
other checks it from scratch.  Here it is shown that the two sides agree in every run:
whatever was given to a term, what it sends passes every check of every other member
that has the same keys to verify with.

Nothing in it is about the protocol: the reading "verifies at the other member" can be
trusted, so what is sent is sound under it, and the checks ask for no more.
-/

namespace CommitteeConsensus

namespace Term

variable {t other : Term} {past : Past}

/-- What a term would vouch for itself, on what it verifies, it finds valid. -/
theorem Vouched.findsValid {m : Message} (h : t.Vouched t.reading m) : t.FindsValid m := by
  rcases m with m | s | s | m | m
  · obtain ⟨-, hproposed, hfits, -⟩ := h
    refine ⟨hproposed.height_eq, Committee.contains_eq_true.2 ?_,
      admitsProposal_iff.2 ⟨⟨rfl, hproposed⟩, hfits⟩⟩
    show m.signed.sender ∈ _
    rw [hproposed.sender_eq]
    exact Committee.leader_mem _ _
  · have hvoted : t.committee.Voted t.reading.good t.height s := h
    exact ⟨hvoted.height_eq, Committee.contains_eq_true.2 hvoted.mem, hvoted.sender_ne,
      hvoted.signed⟩
  · have hcommitted : t.committee.Committed t.reading.good t.reading.share t.height s := h
    exact ⟨hcommitted.height_eq, Committee.contains_eq_true.2 hcommitted.mem,
      hcommitted.signed, hcommitted.share⟩
  · obtain ⟨hasked, hbrings⟩ := h
    exact ⟨hasked.height_eq, Committee.contains_eq_true.2 hasked.mem,
      admitsViewChange_iff.2 ⟨hasked, hbrings⟩⟩
  · obtain ⟨hh, hs, hsigned, hview, hproposed, hfits, hjustified, hobliges⟩ := h
    refine ⟨hh, Committee.contains_eq_true.2 ?_, admitsNewView_iff.2 ⟨⟨⟨hh, hs, hsigned⟩,
      admitsProposal_iff.2 ⟨⟨hview, hproposed⟩, hfits⟩⟩, hjustified, hobliges⟩⟩
    show m.signed.sender ∈ _
    rw [hs]
    exact Committee.leader_mem _ _

/-- What is vouched for under the reading of a peer passes its checks. -/
theorem Peer.findsValid (peer : t.Peer other) {m : Message} (h : t.Vouched other.reading m) :
    other.FindsValid m :=
  (h.congr peer.height peer.committee).findsValid

/-- **What a member sends, every peer finds valid**, and so it does with the requests for
a view that the member has filed for itself.  Nothing is asked of the other members, nor
of the order in which the term was given what. -/
theorem Run.sent_findsValid (run : t.Run past) (honest : t.keys.Honest)
    (built : t.BuildsFitting past) (peer : t.Peer other) :
    (∀ m, past.Sent m → other.FindsValid m) ∧
      ∀ m ∈ past.progress.log.viewChanges, m.sender = t.me →
        other.FindsValid (.viewChange m) := by
  obtain ⟨hlog, hrequests⟩ := run.trace.sound (peer.trusts honest built)
  refine ⟨fun m ⟨recipients, hsent⟩ => peer.findsValid (hrequests.sent recipients m hsent),
    fun m hm _ => peer.findsValid (m := .viewChange m) (hlog.viewChanges m hm)⟩

/-- The leader of view `1` has sent the opening of the view, and what it sent the next member
finds valid. -/
theorem sent_findsValid_sample : (∃ m, (Assembly.samplePasts 1).Sent (.newView m)) ∧
    ∀ m, (Assembly.samplePasts 1).Sent m → (Assembly.sample.term 2).FindsValid m := by
  have hpresent : 1 ∈ Assembly.sample.present := by decide
  have hopening : Request.send [0, 2, 3] (.newView ((Assembly.sample.term 1).opening 1
      Assembly.sampleBlock.1 Assembly.sampleBlock.2
      (((Assembly.samplePasts 1).progress.log.viewChangesFor 1 1).map (·.signed)))) ∈
        (Assembly.samplePasts 1).requests := by
    decide +kernel
  have hpeer : (Assembly.sample.term 1).Peer (Assembly.sample.term 2) :=
    ⟨rfl, rfl, rfl, rfl, Assembly.plainKeys_transfers 1 2⟩
  obtain ⟨hsent, -⟩ := Run.sent_findsValid (Assembly.sample_orderly.served _ hpresent).run
    (Assembly.plainKeys_honest 1) (Assembly.sample_orderly.buildsFitting hpresent) hpeer
  exact ⟨⟨_, [0, 2, 3], hopening⟩, hsent⟩

end Term

end CommitteeConsensus
