import CommitteeConsensus.Proofs.Conduct
import CommitteeConsensus.Proofs.Soundness
import Mathlib.Logic.Function.Basic

/-!
# The participants of a height

The members of a committee, and any number of observers, each run a term of one height.
They take steps in any order.  Up to `f` members may be faulty: they are not modelled at
all, since whatever they could do is that someone receives some message.  A message may
be anything; only, what verifies as signed by a correct member was signed by it
(`Assembly.Reachable`).

So a correct participant can trust its evidence, in the reading in which a part is good if
it was signed (`Assembly.Reachable.trusts`), and what was signed was meant
(`Assembly.Reachable.meant`).
-/

namespace CommitteeConsensus

/-! ## The participants -/

/-- Who works on a height, and with what. -/
structure Assembly where
  height : Height
  seed : Seed
  committee : Committee
  capabilities : MemberId → Capabilities
  viewsAhead : MemberId → Nat
  /-- The members and observers that run a term, and nothing but the term. -/
  correct : MemberId → Bool
  own_keys : ∀ i, (capabilities i).keys.me = i
  distinct : committee.members.Nodup
  few_faulty : (committee.members.filter fun i => !correct i).length ≤ maxFaulty committee.size

namespace Assembly

/-- The term of one participant. -/
def term (a : Assembly) (i : MemberId) : Term :=
  ⟨a.height, a.seed, a.committee, a.capabilities i, a.viewsAhead i⟩

/-- If a part is by a correct member, that member did sign it. -/
def Attested (a : Assembly) (pasts : MemberId → Past) (part : Part) : Prop :=
  part.sender ∈ a.committee.members → a.correct part.sender = true →
    (pasts part.sender).Signs part.sender part.content

/-- The states that can be reached.  In each step one correct participant takes in
something, and what it takes in is not forged. -/
inductive Reachable (a : Assembly) : (MemberId → Past) → Prop where
  | fresh : Reachable a fun _ => .fresh
  | step {pasts : MemberId → Past} {i : MemberId} {stimulus : Stimulus} {s : Step}
    (reachable : Reachable a pasts) (correct : a.correct i = true)
    (permits : (a.term i).Permits (pasts i) stimulus)
    (authentic : ∀ m, stimulus = .message m → ∀ part ∈ m.parts,
      part.content.height = a.height → Verified (a.term i).keys part → a.Attested pasts part)
    (react : (a.term i).react (pasts i).progress stimulus = .ok s) :
    Reachable a (Function.update pasts i ((pasts i).after stimulus s))

variable {a : Assembly} {pasts : MemberId → Past}

@[simp] theorem me_term (i : MemberId) : (a.term i).me = i := a.own_keys i

/-! ## Facts that are never lost -/

theorem Reachable.run (h : a.Reachable pasts) : ∀ i, (a.term i).Run (pasts i) := by
  induction h with
  | fresh => exact fun _ => .fresh
  | @step pasts j stimulus s reachable correct permits authentic react ih =>
    exact (Function.forall_update_iff pasts fun i past => (a.term i).Run past).2
      ⟨.step (ih j) permits react, fun i _ => ih i⟩

/-- When one participant takes a step, nothing is lost anywhere. -/
theorem before_update {i : MemberId} {past : Past} (h : (pasts i).Before past) :
    ∀ j, (pasts j).Before (Function.update pasts i past j) :=
  (Function.forall_update_iff pasts fun j later => (pasts j).Before later).2
    ⟨h, fun _ _ => .refl _⟩

theorem Attested.mono {later : MemberId → Past} {part : Part} (h : a.Attested pasts part)
    (hb : ∀ i, (pasts i).Before (later i)) : a.Attested later part :=
  fun hmem hcorrect => (hb part.sender).signs (h hmem hcorrect)

/-- What verified of any message that was taken in is attested. -/
theorem Reachable.attested (h : a.Reachable pasts) {i : MemberId} {m : Message}
    (hm : .message m ∈ (pasts i).taken) {part : Part} (hpart : part ∈ m.parts)
    (hheight : part.content.height = a.height) (hverified : Verified (a.term i).keys part) :
    a.Attested pasts part := by
  induction h generalizing i with
  | fresh => exact absurd hm List.not_mem_nil
  | @step pasts j stimulus s reachable correct permits authentic react ih =>
    have hbefore := before_update ((reachable.run j).before permits react)
    by_cases hij : i = j
    · subst hij
      rw [Function.update_self] at hm
      rcases List.mem_append.1 hm with hm | hm
      · exact (ih hm hverified).mono hbefore
      · have hstimulus := (List.mem_singleton.1 hm).symm
        exact (authentic m hstimulus part hpart hheight hverified).mono hbefore
    · rw [Function.update_of_ne hij] at hm
      exact (ih hm hverified).mono hbefore

/-- Evidence is what is attested. -/
def reading (a : Assembly) (pasts : MemberId → Past) : Reading :=
  ⟨a.Attested pasts, fun _ _ => True, fun _ _ => True⟩

theorem Reachable.trusts (h : a.Reachable pasts) (i : MemberId) :
    (a.term i).Trusts (a.reading pasts) (pasts i) := by
  refine Term.trusts_signing (fun _ hm _ hpart hheight hverified => ?_) fun statement hs _ _ => ?_
  · exact h.attested hm hpart hheight hverified
  · show (pasts (a.term i).me).Signs (a.term i).me statement
    rwa [me_term] at hs ⊢

/-- What a correct member signed, it means. -/
theorem Reachable.meant (h : a.Reachable pasts) {i : MemberId} {statement : Statement}
    (hs : (pasts i).Signs i statement) : (a.term i).Meant (pasts i).progress statement :=
  (h.run i).trace.meant (by rwa [me_term])

end Assembly

end CommitteeConsensus
