import CommitteeConsensus.Proofs.CodecLaws
import CommitteeConsensus.Proofs.Evidence

/-!
# The binary form says what it is a form of

Members of a committee run on different machines, and what they exchange are bytes.  Two
things are asked of the form of a message.

* **Nothing is lost and nothing is added** (`Codec.canonical_binary_form`).  Whoever reads
  the form of a message, of a block or of a block proof gets that value back, whatever
  comes after it; and if anything can be read at all, then the input begins with the form
  of what was read.  So no value has two forms.
* **A signature is for one statement** (`Statement.bytes_eq_bytes_iff`).  A signature of
  some bytes is a signature of everything that has these bytes as its form, so no two
  statements may share theirs: neither two of one kind that differ in some signature deep
  inside of a proof, nor two of different kinds that have the same fields.

Both come from the laws of codecs, since every structure here is put together from words,
digests, options and lists.  A message is the one choice between alternatives.  Its reader
looks at the number of the kind first, which is also what keeps the kinds of signed
contents apart.

What has a place in the format is said for each type by a lemma named `fits`: all numbers
are below `2 ^ 64`, and so are the lengths of all lists.
-/

namespace CommitteeConsensus

namespace Codec

variable {α : Type}

theorem exact_word64 : word64.Exact := exact_word 8

theorem exact_word32 : word32.Exact := exact_word 4

/-! ## Structures -/

theorem exact_block : block.Exact :=
  (exact_word64.pair exact_bytes).map (fun _ => rfl) fun _ => rfl

theorem Exact.signed {content : Codec α} (exact : content.Exact) : (signed content).Exact :=
  (exact.pair (exact_word64.pair exact_bytes)).map (fun _ => rfl) fun _ => rfl

theorem exact_ballot : ballot.Exact := exact_word64.pair (exact_word64.pair exact_digest)

theorem exact_prePrepareContent : prePrepareContent.Exact :=
  exact_ballot.map (fun _ => rfl) fun _ => rfl

theorem exact_prepareContent : prepareContent.Exact :=
  exact_ballot.map (fun _ => rfl) fun _ => rfl

theorem exact_commitContent : commitContent.Exact :=
  (exact_ballot.pair exact_bytes).map (fun _ => rfl) fun _ => rfl

theorem exact_preparedProof : preparedProof.Exact :=
  (exact_prePrepareContent.signed.option.pair exact_prepareContent.signed.list).map
    (fun _ => rfl) fun _ => rfl

theorem exact_viewChangeContent : viewChangeContent.Exact :=
  (exact_word64.pair (exact_word64.pair exact_preparedProof.option)).map
    (fun _ => rfl) fun _ => rfl

theorem exact_newViewContent : newViewContent.Exact :=
  (exact_word64.pair (exact_word64.pair exact_viewChangeContent.signed.list)).map
    (fun _ => rfl) fun _ => rfl

theorem exact_prePrepare : prePrepare.Exact :=
  (exact_prePrepareContent.signed.pair exact_block).map (fun _ => rfl) fun _ => rfl

theorem exact_viewChange : viewChange.Exact :=
  (exact_viewChangeContent.signed.pair exact_block.option).map (fun _ => rfl) fun _ => rfl

theorem exact_newView : newView.Exact :=
  (exact_newViewContent.signed.pair exact_prePrepare).map (fun _ => rfl) fun _ => rfl

theorem exact_blockProof : blockProof.Exact :=
  (exact_ballot.pair (exact_commitContent.signed.list.pair exact_bytes)).map
    (fun _ => rfl) fun _ => rfl

/-! ## What has a place in the format -/

@[simp] theorem fits_block {b : Block} :
    block.Fits b ↔ b.height < 2 ^ 64 ∧ b.body.length < 2 ^ 64 :=
  and_congr fits_word64 fits_bytes

@[simp] theorem fits_signed {content : Codec α} {s : Signed α} : (signed content).Fits s ↔
    content.Fits s.content ∧ s.sender < 2 ^ 64 ∧ s.signature.length < 2 ^ 64 :=
  and_congr_right fun _ => and_congr fits_word64 fits_bytes

theorem fits_ballot {height : Height} {view : View} {hash : BlockHash} :
    ballot.Fits (height, view, hash) ↔ height < 2 ^ 64 ∧ view < 2 ^ 64 :=
  and_congr fits_word64 ((and_iff_left trivial).trans fits_word64)

@[simp] theorem fits_prePrepareContent {c : PrePrepareContent} :
    prePrepareContent.Fits c ↔ c.height < 2 ^ 64 ∧ c.view < 2 ^ 64 := fits_ballot

@[simp] theorem fits_prepareContent {c : PrepareContent} :
    prepareContent.Fits c ↔ c.height < 2 ^ 64 ∧ c.view < 2 ^ 64 := fits_ballot

@[simp] theorem fits_commitContent {c : CommitContent} : commitContent.Fits c ↔
    (c.height < 2 ^ 64 ∧ c.view < 2 ^ 64) ∧ c.seedShare.length < 2 ^ 64 :=
  and_congr fits_ballot fits_bytes

@[simp] theorem fits_preparedProof {p : PreparedProof} : preparedProof.Fits p ↔
    (∀ s, p.prePrepare = some s → (signed prePrepareContent).Fits s) ∧
      p.prepares.length < 2 ^ 64 ∧ ∀ s ∈ p.prepares, (signed prepareContent).Fits s :=
  and_congr_right fun _ => and_congr_left fun _ => fits_word64

@[simp] theorem fits_viewChangeContent {c : ViewChangeContent} : viewChangeContent.Fits c ↔
    c.height < 2 ^ 64 ∧ c.view < 2 ^ 64 ∧
      ∀ p, c.preparedProof = some p → preparedProof.Fits p :=
  and_congr fits_word64 (and_congr_left fun _ => fits_word64)

@[simp] theorem fits_newViewContent {c : NewViewContent} : newViewContent.Fits c ↔
    c.height < 2 ^ 64 ∧ c.view < 2 ^ 64 ∧ c.confirmations.length < 2 ^ 64 ∧
      ∀ s ∈ c.confirmations, (signed viewChangeContent).Fits s :=
  and_congr fits_word64 (and_congr fits_word64 (and_congr_left fun _ => fits_word64))

@[simp] theorem fits_prePrepare {m : PrePrepare} : prePrepare.Fits m ↔
    (signed prePrepareContent).Fits m.signed ∧ block.Fits m.block := Iff.rfl

@[simp] theorem fits_viewChange {m : ViewChange} : viewChange.Fits m ↔
    (signed viewChangeContent).Fits m.signed ∧ ∀ b, m.block = some b → block.Fits b := Iff.rfl

@[simp] theorem fits_newView {m : NewView} : newView.Fits m ↔
    (signed newViewContent).Fits m.signed ∧ prePrepare.Fits m.prePrepare := Iff.rfl

@[simp] theorem fits_blockProof {p : BlockProof} : blockProof.Fits p ↔
    (p.height < 2 ^ 64 ∧ p.view < 2 ^ 64) ∧
      (p.commits.length < 2 ^ 64 ∧ ∀ s ∈ p.commits, (signed commitContent).Fits s) ∧
        p.seedSignature.length < 2 ^ 64 :=
  and_congr fits_ballot (and_congr (and_congr_left fun _ => fits_word64) fits_bytes)

/-! ## Messages -/

/-- What is read under the number of a kind was written under that number. -/
theorem Exact.of_tagged {codec : Codec α} (exact : codec.Exact) {pack : α → Message}
    {input tail rest : Bytes} {tag : Nat} {m : Message}
    (htag : word32.read input = some (tag, tail))
    (hread : codec.readAs pack tail = some (m, rest)) :
    ∃ a, pack a = m ∧ codec.Fits a ∧
      (word32.write tag ++ codec.write a) ++ rest = input := by
  obtain ⟨-, rfl⟩ := (exact_word32 input tag tail).1 htag
  obtain ⟨a, hpack, hfits, rfl⟩ := exact.readAs_eq_some.1 hread
  exact ⟨a, hpack, hfits, List.append_assoc _ _ _⟩

theorem fits_tag (kind : MessageKind) : word32.Fits kind.tag :=
  fits_word.2 (by cases kind <;> decide)

theorem exact_message : message.Exact := by
  intro input m rest
  constructor
  · intro hread
    rw [message] at hread
    dsimp only at hread
    split at hread
    · exact absurd hread (by simp)
    · next tail htag =>
      obtain ⟨a, rfl, hfits, hform⟩ := exact_prePrepare.of_tagged htag hread
      exact ⟨hfits, hform⟩
    · next tail htag =>
      obtain ⟨a, rfl, hfits, hform⟩ := exact_prepareContent.signed.of_tagged htag hread
      exact ⟨hfits, hform⟩
    · next tail htag =>
      obtain ⟨a, rfl, hfits, hform⟩ := exact_commitContent.signed.of_tagged htag hread
      exact ⟨hfits, hform⟩
    · next tail htag =>
      obtain ⟨a, rfl, hfits, hform⟩ := exact_viewChange.of_tagged htag hread
      exact ⟨hfits, hform⟩
    · next tail htag =>
      obtain ⟨a, rfl, hfits, hform⟩ := exact_newView.of_tagged htag hread
      exact ⟨hfits, hform⟩
    · exact absurd hread (by simp)
  · rintro ⟨hfits, rfl⟩
    have htag : ∀ form, word32.read ((word32.write m.kind.tag ++ form) ++ rest) =
        some (m.kind.tag, form ++ rest) := fun form => by
      rw [List.append_assoc]
      exact exact_word32.read_write (fits_tag m.kind) _
    rw [message]
    dsimp only
    rw [htag]
    cases m with
    | prePrepare a => exact exact_prePrepare.readAs_eq_some.2 ⟨a, rfl, hfits, rfl⟩
    | prepare a => exact exact_prepareContent.signed.readAs_eq_some.2 ⟨a, rfl, hfits, rfl⟩
    | commit a => exact exact_commitContent.signed.readAs_eq_some.2 ⟨a, rfl, hfits, rfl⟩
    | viewChange a => exact exact_viewChange.readAs_eq_some.2 ⟨a, rfl, hfits, rfl⟩
    | newView a => exact exact_newView.readAs_eq_some.2 ⟨a, rfl, hfits, rfl⟩

/-! ## Decoding -/

/-- Every value that fits has one form.  It is decoded from that form, whatever follows,
and from nothing that does not begin with it. -/
structure Canonical (codec : Codec α) : Prop where
  /-- What was encoded is decoded. -/
  decode?_write : ∀ a, codec.Fits a → ∀ trailing, codec.decode? (codec.write a ++ trailing) = some a
  /-- What is decoded was encoded. -/
  write_of_decode? : ∀ input a, codec.decode? input = some a →
    codec.Fits a ∧ codec.write a <+: input
  /-- No value has two forms. -/
  unique : ∀ form form' a, codec.read form = some (a, []) → codec.read form' = some (a, []) →
    form = form'

theorem Exact.canonical {codec : Codec α} (exact : codec.Exact) : codec.Canonical where
  decode?_write a hfits trailing := exact.decode?_eq_some.2 ⟨hfits, trailing, rfl⟩
  write_of_decode? _ _ := exact.decode?_eq_some.1
  unique form form' a hread hread' := by
    obtain ⟨-, rfl⟩ := (exact form a []).1 hread
    exact ((exact form' a []).1 hread').2

/-- A view is opened on a request that proves, by one vote, that a block was prepared.  The
vote bears the signature given. -/
def openingOn (signature : Signature) : NewViewContent where
  height := 1
  view := 2
  confirmations := [
    { content :=
        { height := 1, view := 2
          preparedProof := some
            { prePrepare := some ⟨⟨1, 0, .zero⟩, 0, []⟩
              prepares := [⟨⟨1, 0, .zero⟩, 1, signature⟩] } }
      sender := 1
      signature := [] }]

/-- **Decoding undoes encoding, and nothing else is decoded**, for messages of every kind,
for blocks and for block proofs. -/
theorem canonical_binary_form : message.Canonical ∧ block.Canonical ∧ blockProof.Canonical :=
  ⟨exact_message.canonical, exact_block.canonical, exact_blockProof.canonical⟩

/-- The opening of a view, with all that is nested in it, is decoded from its form, also if
more bytes follow. -/
theorem canonical_binary_form_sample :
    let opening : Message :=
      .newView ⟨⟨openingOn [7], 2, [1, 2]⟩, ⟨⟨⟨1, 2, .zero⟩, 2, [3]⟩, ⟨1, [9]⟩⟩⟩
    message.Fits opening ∧ message.decode? (message.write opening ++ [0, 255]) = some opening := by
  intro opening
  have hfits : message.Fits opening := by
    show newView.Fits _
    simp [openingOn]
  exact ⟨hfits, canonical_binary_form.1.decode?_write opening hfits _⟩

end Codec

/-! ## Signed bytes -/

namespace Statement

/-- The kind of message that carries a content. -/
def kind : Statement → MessageKind
  | .prePrepare _ => .prePrepare
  | .prepare _ => .prepare
  | .commit _ => .commit
  | .viewChange _ => .viewChange
  | .newView _ => .newView

/-- A content has a place in the binary format. -/
def Fits : Statement → Prop
  | .prePrepare c => Codec.prePrepareContent.Fits c
  | .prepare c => Codec.prepareContent.Fits c
  | .commit c => Codec.commitContent.Fits c
  | .viewChange c => Codec.viewChangeContent.Fits c
  | .newView c => Codec.newViewContent.Fits c

/-- The number of the kind is what is signed first. -/
theorem exists_form (s : Statement) :
    ∃ form, s.bytes = Codec.word32.write s.kind.tag ++ form := by
  cases s <;> exact ⟨_, rfl⟩

theorem kind_eq_of_bytes {a b : Statement} (same : a.bytes = b.bytes) : a.kind = b.kind := by
  obtain ⟨form, ha⟩ := a.exists_form
  obtain ⟨form', hb⟩ := b.exists_form
  rw [ha, hb] at same
  obtain ⟨htag, -⟩ := Codec.exact_word32.write_append_inj (Codec.fits_tag a.kind)
    (Codec.fits_tag b.kind) same
  exact MessageKind.tag_injective htag

/-- Within one kind, the content is what is signed after the number. -/
theorem content_eq_of_signingBytes {α : Type} [Signable α]
    (exact : (Signable.codec (α := α)).Exact) {a b : α} (ha : Signable.codec.Fits a)
    (hb : Signable.codec.Fits b) (same : signingBytes a = signingBytes b) : a = b := by
  have hform := List.append_cancel_left same
  rw [← List.append_nil (Signable.codec.write a), ← List.append_nil (Signable.codec.write b)]
    at hform
  exact (exact.write_append_inj ha hb hform).1

/-- **A signature is for one statement.**  Two contents of any kinds whose numbers and
lengths fit the format are signed by the same bytes only if they are of the same kind and
are the same content. -/
theorem bytes_eq_bytes_iff {a b : Statement} (ha : a.Fits) (hb : b.Fits) :
    a.bytes = b.bytes ↔ a.kind = b.kind ∧ a = b := by
  refine ⟨fun same => ?_, fun h => congrArg bytes h.2⟩
  have hkind := kind_eq_of_bytes same
  refine ⟨hkind, ?_⟩
  cases a with
  | prePrepare c =>
    cases b with
    | prePrepare d =>
      exact congrArg _ (content_eq_of_signingBytes Codec.exact_prePrepareContent ha hb same)
    | _ => exact absurd hkind (by simp [kind])
  | prepare c =>
    cases b with
    | prepare d =>
      exact congrArg _ (content_eq_of_signingBytes Codec.exact_prepareContent ha hb same)
    | _ => exact absurd hkind (by simp [kind])
  | commit c =>
    cases b with
    | commit d =>
      exact congrArg _ (content_eq_of_signingBytes Codec.exact_commitContent ha hb same)
    | _ => exact absurd hkind (by simp [kind])
  | viewChange c =>
    cases b with
    | viewChange d =>
      exact congrArg _ (content_eq_of_signingBytes Codec.exact_viewChangeContent ha hb same)
    | _ => exact absurd hkind (by simp [kind])
  | newView c =>
    cases b with
    | newView d =>
      exact congrArg _ (content_eq_of_signingBytes Codec.exact_newViewContent ha hb same)
    | _ => exact absurd hkind (by simp [kind])

/-- Two openings that differ in the signature of a vote inside of a proof inside of a request
are signed by different bytes, and so are a proposal and a vote with the same fields. -/
theorem bytes_eq_bytes_iff_sample :
    (newView (Codec.openingOn [7])).bytes ≠ (newView (Codec.openingOn [7, 7])).bytes ∧
      (prePrepare ⟨1, 0, .zero⟩).bytes ≠ (prepare ⟨1, 0, .zero⟩).bytes := by
  have hfits : ∀ signature : Signature, signature.length < 2 ^ 64 →
      (newView (Codec.openingOn signature)).Fits := by
    simp [Fits, Codec.openingOn]
  refine ⟨fun same => ?_, fun same => ?_⟩
  · obtain ⟨-, heq⟩ :=
      (bytes_eq_bytes_iff (hfits [7] (by decide)) (hfits [7, 7] (by decide))).1 same
    simp [Codec.openingOn] at heq
  · obtain ⟨hkind, -⟩ := (bytes_eq_bytes_iff (a := prePrepare ⟨1, 0, .zero⟩)
      (b := prepare ⟨1, 0, .zero⟩) (by simp [Fits]) (by simp [Fits])).1 same
    exact absurd hkind (by decide)

end Statement

end CommitteeConsensus
