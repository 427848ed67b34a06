import CommitteeConsensus.Proofs.Announcements
import CommitteeConsensus.Proofs.Assembly

/-!
# Orderly runs

A quorum of the members is up, and the others are silent.  In an orderly run each member
that is up is started first; then it is given what the others sent, in any order and some
of it more than once, its host answers what it is asked for, and timers run out when they
like, as long as they are those of views below `k` (`Assembly.Orderly`).  A state in which
nothing is left to do is `Assembly.Quiescent`.

Nobody but the members that are up signs anything in such a run.  So whatever is in the log
of one of them means what it says (`Assembly.Orderly.trusts`), and the run is one of those in
which nothing is forged (`Assembly.Orderly.reachable`).

Orderly runs can be computed: the members take turns until nothing is due to anyone
(`Assembly.turn`).  The last section does so for four members, of which the first leader is
silent.
-/

namespace CommitteeConsensus

deriving instance DecidableEq for Stimulus

namespace Assembly

variable {a : Assembly} {k : View} {pasts : MemberId → Past}

/-! ## The members that are up -/

/-- The members that are up. -/
def present (a : Assembly) : List MemberId := a.committee.members.filter a.correct

theorem mem_present {i : MemberId} :
    i ∈ a.present ↔ i ∈ a.committee.members ∧ a.correct i = true := List.mem_filter

theorem nodup_present : a.present.Nodup := a.distinct.filter _

/-- They are a quorum. -/
theorem quorum_le_present : a.committee.quorum ≤ a.present.length := by
  have hsplit := List.length_eq_length_filter_add (l := a.committee.members) a.correct
  have hfew := a.few_faulty
  rw [Committee.size] at hfew
  rw [present, Committee.quorum, quorumSize, Committee.size]
  omega

/-- A block of the height with its hash, as all members that are up check it. -/
def Fits (a : Assembly) (block : Block) (hash : BlockHash) : Prop :=
  block.height = a.height ∧
    ∀ i ∈ a.present, (a.capabilities i).matchesHash a.height block hash = true

/-- The members that are up can verify each other, and themselves. -/
structure Verifiable (a : Assembly) : Prop where
  sign : ∀ i ∈ a.present, ∀ j ∈ a.present, ∀ data,
    (a.capabilities i).keys.verify data ((a.capabilities j).keys.sign data) j = true
  signSeed : ∀ i ∈ a.present, ∀ j ∈ a.present,
    (a.capabilities i).keys.verifySeed a.height a.seed
      ((a.capabilities j).keys.signSeed a.height a.seed) j = true

/-! ## Orderly runs -/

/-- What may happen to a member: it is started first, it is given what was sent to it, the
timers of the views below `k` fire, and its host answers what it was asked for. -/
inductive Allows (a : Assembly) (k : View) (pasts : MemberId → Past) (i : MemberId) :
    Stimulus → Prop where
  | start (first : (pasts i).taken = []) : Allows a k pasts i .start
  | deliver {j : MemberId} {recipients : List MemberId} {m : Message}
    (started : (pasts i).taken ≠ []) (present : j ∈ a.present)
    (sent : .send recipients m ∈ (pasts j).requests) (addressed : i ∈ recipients) :
    Allows a k pasts i (.message m)
  | timeout {view : View} (started : (pasts i).taken ≠ []) (below : view < k) :
    Allows a k pasts i (.event (.electionTimeout view))
  | build {view : View} {block : Block} {hash : BlockHash} (started : (pasts i).taken ≠ [])
    (asked : .buildProposal view ∈ (pasts i).requests) (fits : a.Fits block hash) :
    Allows a k pasts i (.event (.proposalBuilt view (some (block, hash))))
  | validate {m : PrePrepare} (started : (pasts i).taken ≠ [])
    (asked : .validateProposal m ∈ (pasts i).requests) :
    Allows a k pasts i (.event (.validationFinished m true))

/-- The states that can be reached in this way. -/
inductive Orderly (a : Assembly) (k : View) : (MemberId → Past) → Prop where
  | fresh : Orderly a k fun _ => .fresh
  | step {pasts : MemberId → Past} {i : MemberId} {stimulus : Stimulus} {s : Step}
    (orderly : Orderly a k pasts) (present : i ∈ a.present) (allows : a.Allows k pasts i stimulus)
    (react : (a.term i).react (pasts i).progress stimulus = .ok s) :
    Orderly a k (Function.update pasts i ((pasts i).after stimulus s))

/-- Nothing is left to do: all members that are up were started and have reached view `k`,
all that was sent among them was delivered, and all requests to their hosts were answered. -/
structure Quiescent (a : Assembly) (k : View) (pasts : MemberId → Past) : Prop where
  started : ∀ i ∈ a.present, .start ∈ (pasts i).taken
  delivered : ∀ j ∈ a.present, ∀ recipients m, .send recipients m ∈ (pasts j).requests →
    ∀ i ∈ a.present, i ∈ recipients → .message m ∈ (pasts i).taken
  built : ∀ i ∈ a.present, ∀ view, .buildProposal view ∈ (pasts i).requests →
    ∃ block hash, .event (.proposalBuilt view (some (block, hash))) ∈ (pasts i).taken
  validated : ∀ i ∈ a.present, ∀ m, .validateProposal m ∈ (pasts i).requests →
    .event (.validationFinished m true) ∈ (pasts i).taken
  arrived : ∀ i ∈ a.present, k ≤ (pasts i).progress.view

/-! ## What is received -/

/-- A part is what its sender, who is up, has signed. -/
structure Genuine (a : Assembly) (pasts : MemberId → Past) (part : Part) : Prop where
  present : part.sender ∈ a.present
  signature : part.signature = (a.term part.sender).keys.sign part.content.bytes
  signs : (pasts part.sender).Signs part.sender part.content

/-- Evidence is what is genuine. -/
def genuine (a : Assembly) (pasts : MemberId → Past) : Reading where
  good := a.Genuine pasts
  share share i := i ∈ a.present ∧ share = (a.term i).keys.signSeed a.height a.seed
  fits := a.Fits

theorem genuine_mono {later : MemberId → Past} (hb : ∀ i, (pasts i).Before (later i)) :
    (a.genuine pasts).Implies (a.genuine later) where
  good part h := ⟨h.present, h.signature, (hb part.sender).signs h.signs⟩
  share _ _ h := h
  fits _ _ h := h

/-- What is genuine verifies. -/
theorem genuine_implies (verifiable : a.Verifiable) {i : MemberId} (hi : i ∈ a.present) :
    (a.genuine pasts).Implies (a.term i).reading where
  good part h := by
    show (a.term i).keys.verify part.content.bytes part.signature part.sender = true
    rw [h.signature]
    exact verifiable.sign i hi _ h.present _
  share share j h := by
    obtain ⟨hj, rfl⟩ := h
    exact verifiable.signSeed i hi j hj
  fits block hash h := ⟨h.1, h.2 i hi⟩

/-! ## Orderly runs keep all promises -/

theorem Allows.serves {i : MemberId} {stimulus : Stimulus} (h : a.Allows k pasts i stimulus)
    (served : (a.term i).Served (pasts i)) : Term.Serves (pasts i) stimulus := by
  cases h with
  | start first =>
    rw [served.eq_fresh first]
    rfl
  | deliver | timeout => trivial
  | build started asked => exact asked
  | validate => rfl

/-- A message that is delivered is another member's. -/
theorem Allows.permits {i : MemberId} {stimulus : Stimulus} (h : a.Allows k pasts i stimulus)
    (served : ∀ j ∈ a.present, (a.term j).Served (pasts j)) :
    (a.term i).Permits (pasts i) stimulus := by
  cases h with
  | start | timeout | build => trivial
  | @deliver j recipients m started present sent addressed =>
    have haddresses := (served j present).run.trace.addressed sent
    refine ⟨haddresses.height, fun heq => haddresses.not_mem ?_⟩
    rw [me_term] at heq ⊢
    rwa [← me_term (a := a) j, ← haddresses.sender, heq]
  | validate started asked => exact asked

namespace Orderly

theorem served (h : a.Orderly k pasts) : ∀ i ∈ a.present, (a.term i).Served (pasts i) := by
  induction h with
  | fresh => exact fun _ _ => .fresh
  | @step pasts j stimulus s orderly present allows react ih =>
    refine (Function.forall_update_iff pasts fun i past =>
      i ∈ a.present → (a.term i).Served past).2 ⟨fun _ => ?_, fun i _ => ih i⟩
    exact .step (ih j present) (allows.permits ih) (allows.serves (ih j present)) react

theorem trace (h : a.Orderly k pasts) {i : MemberId} (hi : i ∈ a.present) :
    (a.term i).Trace (pasts i) := (h.served i hi).run.trace

/-- A step loses nothing. -/
theorem before_step (h : a.Orderly k pasts) {i : MemberId} {stimulus : Stimulus} {s : Step}
    (hi : i ∈ a.present) (allows : a.Allows k pasts i stimulus)
    (react : (a.term i).react (pasts i).progress stimulus = .ok s) (j : MemberId) :
    (pasts j).Before (Function.update pasts i ((pasts i).after stimulus s) j) :=
  before_update ((h.served i hi).run.before (allows.permits h.served) react) j

/-- Whatever happened to a member was allowed when it did. -/
theorem allowed (h : a.Orderly k pasts) {i : MemberId} {stimulus : Stimulus}
    (hs : stimulus ∈ (pasts i).taken) :
    ∃ earlier, a.Orderly k earlier ∧ a.Allows k earlier i stimulus := by
  induction h generalizing i stimulus with
  | fresh => exact absurd hs List.not_mem_nil
  | @step pasts j stimulus' s orderly present allows react ih =>
    by_cases hij : i = j
    · subst hij
      rw [Function.update_self] at hs
      rcases List.mem_append.1 hs with hs | hs
      · exact ih hs
      · rw [List.mem_singleton.1 hs]
        exact ⟨pasts, orderly, allows⟩
    · rw [Function.update_of_ne hij] at hs
      exact ih hs

/-- Whoever vouches for what is taken in, the member can trust it. -/
theorem trusts_of (h : a.Orderly k pasts) {i : MemberId} (hi : i ∈ a.present)
    (hvouched : ∀ m, .message m ∈ (pasts i).taken →
      ∃ j, (a.term j).Vouched (a.genuine pasts) m) :
    (a.term i).Trusts (a.genuine pasts) (pasts i) where
  received m hm part hpart _ _ := by
    obtain ⟨j, hj⟩ := hvouched m hm
    exact hj.parts part hpart
  own statement hs := by
    rw [me_term] at hs
    refine ⟨?_, ?_, ?_⟩ <;> simp only [Keys.part]
    · rwa [show (a.term i).keys.me = i from me_term i]
    · rw [show (a.term i).keys.me = i from me_term i]
    · rwa [show (a.term i).keys.me = i from me_term i]
  shares s hs _ := by
    obtain ⟨j, hj⟩ := hvouched _ hs
    exact Committee.Committed.share hj
  ownShare := by
    rw [me_term]
    exact ⟨hi, rfl⟩
  admitted m hm block hash hcarries _ := by
    obtain ⟨j, hj⟩ := hvouched m hm
    exact hj.carries hcarries
  built view block hash hs := by
    obtain ⟨earlier, -, hallows⟩ := h.allowed hs
    cases hallows with
    | build started asked fits => exact fits

/-- A message that arrived is vouched for by the member that sent it. -/
theorem vouched (h : a.Orderly k pasts) {i : MemberId} {m : Message}
    (hm : .message m ∈ (pasts i).taken) :
    ∃ j, (a.term j).Vouched (a.genuine pasts) m := by
  induction h generalizing i m with
  | fresh => exact absurd hm List.not_mem_nil
  | @step pasts j stimulus s orderly present allows react ih =>
    have himplies := genuine_mono (a := a) (orderly.before_step present allows react)
    by_cases hij : i = j
    · subst hij
      rw [Function.update_self] at hm
      rcases List.mem_append.1 hm with hm | hm
      · obtain ⟨j, hj⟩ := ih hm
        exact ⟨j, hj.imp himplies⟩
      · obtain rfl := List.mem_singleton.1 hm
        cases allows with
        | @deliver j recipients _ started present sent =>
          obtain ⟨-, hrequests⟩ :=
            (orderly.trace present).sound (orderly.trusts_of present fun m hm => ih hm)
          exact ⟨j, (hrequests.sent recipients m sent).imp himplies⟩
    · rw [Function.update_of_ne hij] at hm
      obtain ⟨j, hj⟩ := ih hm
      exact ⟨j, hj.imp himplies⟩

/-- **Nothing is forged** among the members that are up. -/
theorem trusts (h : a.Orderly k pasts) {i : MemberId} (hi : i ∈ a.present) :
    (a.term i).Trusts (a.genuine pasts) (pasts i) := h.trusts_of hi fun _ hm => h.vouched hm

theorem soundLog (h : a.Orderly k pasts) {i : MemberId} (hi : i ∈ a.present) :
    (a.term i).SoundLog (a.genuine pasts) (pasts i).progress :=
  ((h.trace hi).sound (h.trusts hi)).1

theorem soundRequests (h : a.Orderly k pasts) {i : MemberId} (hi : i ∈ a.present) :
    (a.term i).SoundRequests (a.genuine pasts) (pasts i).requests :=
  ((h.trace hi).sound (h.trusts hi)).2

/-- What a member that is up signed, it means. -/
theorem meant (h : a.Orderly k pasts) {part : Part} (hpart : a.Genuine pasts part) :
    (a.term part.sender).Meant (pasts part.sender).progress part.content :=
  (h.trace hpart.present).meant (by rw [me_term]; exact hpart.signs)

/-- The host of a member that is up builds fitting blocks. -/
theorem buildsFitting (h : a.Orderly k pasts) {i : MemberId} (hi : i ∈ a.present) :
    (a.term i).BuildsFitting (pasts i) := by
  intro view block hash hs
  obtain ⟨earlier, -, hallows⟩ := h.allowed hs
  cases hallows with
  | build started asked fits => exact ⟨fits.1, fits.2 i hi⟩

/-- Whatever happened to a member, it was started before. -/
theorem started (h : a.Orderly k pasts) {i : MemberId} (htaken : (pasts i).taken ≠ []) :
    .start ∈ (pasts i).taken := by
  induction h with
  | fresh => exact absurd rfl htaken
  | @step pasts j stimulus s orderly present allows react ih =>
    by_cases hij : i = j
    · subst hij
      rw [Function.update_self]
      cases allows with
      | start => exact List.mem_append_right _ List.mem_cons_self
      | deliver started | timeout started | build started | validate started =>
        exact List.mem_append_left _ (ih started)
    · rw [Function.update_of_ne hij] at htaken ⊢
      exact ih htaken

/-- Orderly runs are runs in which nothing is forged. -/
theorem reachable (h : a.Orderly k pasts) : a.Reachable pasts := by
  induction h with
  | fresh => exact .fresh
  | @step pasts i stimulus s orderly present allows react ih =>
    refine .step ih (mem_present.1 present).2 (allows.permits orderly.served) ?_
      react
    rintro m rfl part hpart - -
    cases allows with
    | @deliver j recipients _ started present sent =>
      have hvouched := (orderly.soundRequests present).sent recipients m sent
      exact fun _ _ => (hvouched.parts part hpart).signs

end Orderly

/-! ## Taking turns

An orderly run can be computed.  The members take turns, and whoever has its turn takes in
the first thing that is due to it.  Once nothing is due to anyone, and no one is in a view
below `k`, nothing is left to do. -/

/-- The pasts of `0`, `1` and so on, as they are listed.  Nothing has happened to the others. -/
def listed (l : List Past) (i : MemberId) : Past := l.getD i .fresh

theorem listed_replicate (n : Nat) : listed (List.replicate n .fresh) = fun _ => .fresh := by
  funext i
  rw [listed, List.getD_eq_getElem?_getD, List.getElem?_replicate]
  split <;> rfl

theorem listed_set (l : List Past) (i : MemberId) (past : Past) :
    listed (l.set i past) = listed l ∨
      listed (l.set i past) = Function.update (listed l) i past := by
  rcases Nat.lt_or_ge i l.length with hlt | hge
  · refine Or.inr (funext fun j => ?_)
    by_cases hij : j = i
    · subst hij
      rw [Function.update_self, listed, List.getD_eq_getElem?_getD, List.getElem?_set_self hlt,
        Option.getD_some]
    · rw [Function.update_of_ne hij, listed, listed, List.getD_eq_getElem?_getD,
        List.getElem?_set_ne (Ne.symm hij), List.getD_eq_getElem?_getD]
  · exact Or.inl (by rw [List.set_eq_of_length_le hge])

/-- What a request of some member comes to at member `i`: a message that `i` is sent. -/
def forward? (i : MemberId) : Request → Option Stimulus
  | .send recipients m => if i ∈ recipients then some (.message m) else none
  | _ => none

/-- How the host of a member answers a request.  It proposes what it has built, finds every
proposal valid, and lets the timers of the views below `k` run out. -/
def answer? (k : View) (build : View → Block × BlockHash) : Request → Option Stimulus
  | .scheduleElection view => if view < k then some (.event (.electionTimeout view)) else none
  | .buildProposal view => some (.event (.proposalBuilt view (some (build view))))
  | .validateProposal m => some (.event (.validationFinished m true))
  | _ => none

/-- What may come to a member that was started, some of which it may have taken in. -/
def offered (a : Assembly) (k : View) (build : View → Block × BlockHash)
    (pasts : MemberId → Past) (i : MemberId) : List Stimulus :=
  (a.present.flatMap fun j => (pasts j).requests.filterMap (forward? i)) ++
    (pasts i).requests.filterMap (answer? k build)

/-- What is due to a member. -/
def due (a : Assembly) (k : View) (build : View → Block × BlockHash)
    (pasts : MemberId → Past) (i : MemberId) : List Stimulus :=
  match (pasts i).taken with
  | [] => [.start]
  | taken => (a.offered k build pasts i).filter fun stimulus => decide (stimulus ∉ taken)

/-- The pasts after a member had its turn. -/
def turn (a : Assembly) (k : View) (build : View → Block × BlockHash) (l : List Past)
    (i : MemberId) : List Past :=
  match a.due k build (listed l) i with
  | [] => l
  | stimulus :: _ =>
    match (a.term i).react (listed l i).progress stimulus with
    | .ok s => l.set i ((listed l i).after stimulus s)
    | .error _ => l

section Turns

variable {build : View → Block × BlockHash} {i : MemberId} {stimulus : Stimulus}

theorem allows_of_offered (fits : ∀ view, a.Fits (build view).1 (build view).2)
    (started : (pasts i).taken ≠ []) (h : stimulus ∈ a.offered k build pasts i) :
    a.Allows k pasts i stimulus := by
  rcases List.mem_append.1 h with h | h
  · obtain ⟨j, hj, h⟩ := List.mem_flatMap.1 h
    obtain ⟨r, hr, hforward⟩ := List.mem_filterMap.1 h
    rcases r with ⟨recipients, m⟩ | _ | _ | _ | _ | _ <;>
      simp only [forward?, reduceCtorEq] at hforward
    split at hforward
    · next hi =>
      obtain rfl := Option.some.inj hforward
      exact .deliver started hj hr hi
    · exact absurd hforward (by simp)
  · obtain ⟨r, hr, hanswer⟩ := List.mem_filterMap.1 h
    rcases r with _ | view | _ | view | m | _ <;> simp only [answer?, reduceCtorEq] at hanswer
    · split at hanswer
      · next hbelow =>
        obtain rfl := Option.some.inj hanswer
        exact .timeout started hbelow
      · exact absurd hanswer (by simp)
    · obtain rfl := Option.some.inj hanswer
      exact .build started hr (fits view)
    · obtain rfl := Option.some.inj hanswer
      exact .validate started hr

/-- What is due may happen. -/
theorem allows_of_due (fits : ∀ view, a.Fits (build view).1 (build view).2)
    (h : stimulus ∈ a.due k build pasts i) : a.Allows k pasts i stimulus := by
  rw [due] at h
  split at h
  · next htaken =>
    obtain rfl := List.mem_singleton.1 h
    exact .start htaken
  · next hstarted =>
    exact allows_of_offered fits hstarted (List.mem_of_mem_filter h)

/-- **Taking turns is orderly.** -/
theorem orderly_turns (fits : ∀ view, a.Fits (build view).1 (build view).2) {l : List Past}
    (h : a.Orderly k (listed l)) {order : List MemberId} (horder : ∀ i ∈ order, i ∈ a.present) :
    a.Orderly k (listed (order.foldl (a.turn k build) l)) := by
  induction order generalizing l with
  | nil => exact h
  | cons i order ih =>
    refine ih ?_ fun j hj => horder j (List.mem_cons_of_mem _ hj)
    rw [turn]
    split
    · exact h
    · next stimulus _ hdue =>
      split
      · next s hreact =>
        rcases listed_set l i ((listed l i).after stimulus s) with hset | hset <;> rw [hset]
        · exact h
        · refine .step h (horder i List.mem_cons_self) (allows_of_due fits ?_) hreact
          rw [hdue]
          exact List.mem_cons_self
      · exact h

/-- What is offered was taken in, where nothing is due. -/
theorem mem_taken_of_offered (hdue : a.due k build pasts i = [])
    (h : stimulus ∈ a.offered k build pasts i) : stimulus ∈ (pasts i).taken := by
  rw [due] at hdue
  split at hdue
  · exact absurd hdue (by simp)
  · by_contra hnot
    have hmem : stimulus ∈
        (a.offered k build pasts i).filter fun s => decide (s ∉ (pasts i).taken) :=
      List.mem_filter.2 ⟨h, decide_eq_true hnot⟩
    rw [hdue] at hmem
    exact absurd hmem List.not_mem_nil

/-- **Where nothing is due, nothing is left to do.** -/
theorem Orderly.quiescent_of_due (h : a.Orderly k pasts)
    (hdue : ∀ i ∈ a.present, a.due k build pasts i = [])
    (arrived : ∀ i ∈ a.present, k ≤ (pasts i).progress.view) : a.Quiescent k pasts where
  started i hi := by
    refine h.started fun htaken => ?_
    have hnone := hdue i hi
    rw [due, htaken] at hnone
    exact absurd hnone (by simp)
  delivered j hj recipients m hsent i hi hmem := by
    refine mem_taken_of_offered (hdue i hi) (List.mem_append_left _ (List.mem_flatMap.2 ⟨j, hj,
      List.mem_filterMap.2 ⟨_, hsent, ?_⟩⟩))
    rw [forward?, if_pos hmem]
  built i hi view hasked :=
    ⟨(build view).1, (build view).2, mem_taken_of_offered (hdue i hi)
      (List.mem_append_right _ (List.mem_filterMap.2 ⟨_, hasked, rfl⟩))⟩
  validated i hi m hasked :=
    mem_taken_of_offered (hdue i hi)
      (List.mem_append_right _ (List.mem_filterMap.2 ⟨_, hasked, rfl⟩))
  arrived := arrived

end Turns

/-! ### A view change

Four members, of which the leader of the first view is silent.  The other three let their
timers run out, ask the next leader for view `1`, and decide there. -/

/-- Keys that sign bytes by putting the member before them. -/
def plainKeys (me : MemberId) : Keys where
  me := me
  sign data := UInt8.ofNat me :: data
  verify data signature member := signature == UInt8.ofNat member :: data
  signSeed height seed := [UInt8.ofNat me, UInt8.ofNat height, UInt8.ofNat seed]
  verifySeed height seed share member :=
    share == [UInt8.ofNat member, UInt8.ofNat height, UInt8.ofNat seed]
  aggregate _ shares := shares.flatMap (·.2)

theorem plainKeys_honest (me : MemberId) : (plainKeys me).Honest :=
  ⟨fun _ => beq_self_eq_true _, fun _ _ => beq_self_eq_true _⟩

/-- All members verify alike. -/
theorem plainKeys_transfers (me other : MemberId) : (plainKeys me).Transfers (plainKeys other) :=
  ⟨fun _ _ _ h => h, fun _ _ _ _ h => h⟩

/-- The body of a block, cut or filled up to the length of a hash. -/
def plainHash (block : Block) : BlockHash :=
  ⟨(block.body ++ List.replicate 32 0).take 32, by simp⟩

/-- Whether a block is of a height and has a hash. -/
def plainMatches (height : Height) (block : Block) (hash : BlockHash) : Bool :=
  block.height == height && hash == plainHash block

/-- The first of four members is silent. -/
def sample : Assembly where
  height := 1
  seed := 0
  committee := ⟨[0, 1, 2, 3], by decide⟩
  capabilities i := ⟨plainKeys i, plainMatches⟩
  viewsAhead _ := 1
  correct i := i != 0
  own_keys _ := rfl
  distinct := by decide
  few_faulty := by decide

/-- The block that is proposed, with its hash. -/
def sampleBlock : Block × BlockHash := (⟨1, [7]⟩, plainHash ⟨1, [7]⟩)

/-- The pasts of the members after each had ten turns. -/
def samplePasts : MemberId → Past :=
  listed ((List.replicate 10 [1, 2, 3]).flatten.foldl (sample.turn 1 fun _ => sampleBlock)
    (List.replicate 4 .fresh))

theorem sample_verifiable : sample.Verifiable :=
  ⟨fun _ _ _ _ _ => beq_self_eq_true _, fun _ _ _ _ => beq_self_eq_true _⟩

theorem sample_fits : sample.Fits sampleBlock.1 sampleBlock.2 :=
  ⟨rfl, fun _ _ => show plainMatches 1 sampleBlock.1 sampleBlock.2 = true by decide⟩

theorem sample_orderly : sample.Orderly 1 samplePasts := by
  refine orderly_turns (fun _ => sample_fits) ?_ (by decide)
  rw [listed_replicate]
  exact .fresh

/-- Nothing is due to anyone, and everyone has decided in view `1`. -/
theorem sample_done : ∀ i ∈ sample.present,
    sample.due 1 (fun _ => sampleBlock) samplePasts i = [] ∧
      (samplePasts i).progress.phase = .committed ∧ (samplePasts i).progress.view = 1 := by
  decide +kernel

theorem sample_quiescent : sample.Quiescent 1 samplePasts :=
  sample_orderly.quiescent_of_due (fun i hi => (sample_done i hi).1)
    fun i hi => Nat.le_of_eq (sample_done i hi).2.2.symm

theorem sample_decides {i : MemberId} (hi : i ∈ sample.present) :
    ∃ d, .decide d ∈ (samplePasts i).requests :=
  (sample_orderly.trace hi).exists_decision (sample_done i hi).2.1

end Assembly

end CommitteeConsensus
