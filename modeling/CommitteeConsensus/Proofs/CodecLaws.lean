import CommitteeConsensus.Codec
import Mathlib.Algebra.Group.Nat.Defs

/-!
# Laws of codecs

A reader that finds again whatever was written may do more than that: it may also read
what nobody writes, and then a value has two forms.  A reader of which only this second
thing is excluded may refuse everything.  `Codec.Exact` excludes both at once: a reader
hands out a value and a rest exactly if the value has a place in the format, and the input
is what is written for it, followed by the rest.

An equivalence of this form composes.  What stands on its right-hand side for a pair is
what stands there for the parts, one after the other, and so it is for options and lists.
There is one law for every way to make a codec out of others, and a structure of a
hundred fields needs no induction of its own.
-/

namespace CommitteeConsensus

namespace Codec

variable {α β : Type}

/-- What is read is what is written, and nothing else: a value and a rest come out of an
input exactly if the value fits and the input is its form followed by the rest. -/
def Exact (codec : Codec α) : Prop :=
  ∀ input a rest, codec.read input = some (a, rest) ↔
    codec.Fits a ∧ codec.write a ++ rest = input

namespace Exact

variable {codec : Codec α}

/-- What was written is read back, whatever follows it. -/
theorem read_write (exact : codec.Exact) {a : α} (fits : codec.Fits a) (rest : Bytes) :
    codec.read (codec.write a ++ rest) = some (a, rest) :=
  (exact _ a rest).2 ⟨fits, rfl⟩

/-- The value at the front of an input is the one whose form the input begins with. -/
theorem decode?_eq_some (exact : codec.Exact) {input : Bytes} {a : α} :
    codec.decode? input = some a ↔ codec.Fits a ∧ codec.write a <+: input := by
  rw [decode?, Option.map_eq_some_iff]
  constructor
  · rintro ⟨⟨b, rest⟩, hread, rfl⟩
    obtain ⟨hfits, hform⟩ := (exact input b rest).1 hread
    exact ⟨hfits, rest, hform⟩
  · rintro ⟨hfits, rest, hform⟩
    exact ⟨(a, rest), (exact input a rest).2 ⟨hfits, hform⟩, rfl⟩

/-- Two values that are written alike, whatever follows them, are one, and so is what
follows. -/
theorem write_append_inj (exact : codec.Exact) {a b : α} (ha : codec.Fits a)
    (hb : codec.Fits b) {rest rest' : Bytes}
    (same : codec.write a ++ rest = codec.write b ++ rest') : a = b ∧ rest = rest' := by
  have hread := exact.read_write ha rest
  rw [same, exact.read_write hb rest', Option.some.injEq, Prod.mk.injEq] at hread
  exact ⟨hread.1.symm, hread.2.symm⟩

end Exact

/-! ## Words -/

theorem fits_word {width n : Nat} : (word width).Fits n ↔ n < 2 ^ (8 * width) := by
  rw [← Nat.one_shiftLeft]
  exact Iff.rfl

/-- Numbers of eight bytes are those of sixty-four bits. -/
@[simp] theorem fits_word64 {n : Nat} : word64.Fits n ↔ n < 2 ^ 64 := fits_word

/-- A number is its low byte and what is left of it without that byte. -/
theorem toNat_ofNat_add_div (n : Nat) : (UInt8.ofNat n).toNat + 256 * (n / 256) = n := by
  rw [UInt8.toNat_ofNat']
  exact Nat.mod_add_div n 256

theorem ofNat_toNat_add_mul (b : UInt8) (high : Nat) :
    UInt8.ofNat (b.toNat + 256 * high) = b := by
  have hlt := b.toNat_lt
  refine UInt8.toNat_inj.1 ?_
  rw [UInt8.toNat_ofNat']
  omega

theorem exact_word (width : Nat) : (word width).Exact := by
  intro input n rest
  rw [fits_word]
  show readWord width input = some (n, rest) ↔ _ ∧ writeWord width n ++ rest = input
  induction width generalizing input n with
  | zero =>
    rw [readWord, writeWord, Option.some.injEq, Prod.mk.injEq, List.nil_append, Nat.mul_zero,
      Nat.pow_zero, Nat.lt_one_iff]
    exact and_congr eq_comm eq_comm
  | succ width ih =>
    have hsize : 2 ^ (8 * (width + 1)) = 256 * 2 ^ (8 * width) := by
      rw [Nat.mul_succ, Nat.pow_add, Nat.mul_comm]
    rw [hsize, writeWord]
    rcases input with _ | ⟨b, tail⟩
    · exact iff_of_false (by simp [readWord]) (by simp)
    · rw [readWord, List.cons_append, List.cons.injEq]
      constructor
      · intro hread
        split at hread
        · next high rest' hhigh =>
          obtain ⟨rfl, rfl⟩ := Prod.mk.inj (Option.some.inj hread)
          obtain ⟨hlt, htail⟩ := (ih tail high).1 hhigh
          have hb := b.toNat_lt
          have hdiv : (b.toNat + 256 * high) / 256 = high := by omega
          rw [hdiv, ofNat_toNat_add_mul]
          exact ⟨by omega, rfl, htail⟩
        · exact absurd hread (by simp)
      · rintro ⟨hlt, rfl, htail⟩
        have hhigh := (ih tail (n / 256)).2 ⟨Nat.div_lt_of_lt_mul hlt, htail⟩
        simp only [hhigh, toNat_ofNat_add_div]

/-! ## Bytes and digests -/

theorem exact_byte : byte.Exact := by
  rintro (_ | ⟨b, tail⟩) a rest
  · exact iff_of_false (by simp [byte]) (by simp [byte])
  · show some (b, tail) = some (a, rest) ↔ True ∧ a :: rest = b :: tail
    rw [true_and, Option.some.injEq, Prod.mk.injEq, List.cons.injEq]
    exact and_congr eq_comm eq_comm

theorem ofBytes?_eq_some {bytes : Bytes} {d : Digest} :
    Digest.ofBytes? bytes = some d ↔ d.bytes = bytes := by
  constructor
  · intro h
    rw [Digest.ofBytes?] at h
    split at h
    · rw [← Option.some.inj h]
    · exact absurd h (by simp)
  · rintro rfl
    exact d.ofBytes?_bytes

theorem exact_digest : digest.Exact := by
  intro input d rest
  show _ ↔ True ∧ d.bytes ++ rest = input
  rw [true_and, digest]
  constructor
  · intro hread
    dsimp only at hread
    split at hread
    · exact absurd hread (by simp)
    · next d' hd =>
      obtain ⟨rfl, rfl⟩ := Prod.mk.inj (Option.some.inj hread)
      rw [ofBytes?_eq_some.1 hd, List.take_append_drop]
  · rintro rfl
    dsimp only
    rw [← d.length_bytes, List.take_left, List.drop_left, d.ofBytes?_bytes]

/-! ## Structure -/

theorem Exact.pair {first : Codec α} {second : Codec β} (hfirst : first.Exact)
    (hsecond : second.Exact) : (pair first second).Exact := by
  rintro input ⟨a, b⟩ rest
  show _ ↔ (first.Fits a ∧ second.Fits b) ∧ (first.write a ++ second.write b) ++ rest = input
  rw [List.append_assoc, Codec.pair]
  constructor
  · intro hread
    dsimp only at hread
    split at hread
    · exact absurd hread (by simp)
    · next a' middle ha =>
      split at hread
      · exact absurd hread (by simp)
      · next b' rest' hb =>
        obtain ⟨hab, rfl⟩ := Prod.mk.inj (Option.some.inj hread)
        obtain ⟨rfl, rfl⟩ := Prod.mk.inj hab
        obtain ⟨hafits, haform⟩ := (hfirst input a' middle).1 ha
        obtain ⟨hbfits, hbform⟩ := (hsecond middle b' rest').1 hb
        rw [hbform]
        exact ⟨⟨hafits, hbfits⟩, haform⟩
  · rintro ⟨⟨hafits, hbfits⟩, rfl⟩
    simp only [hfirst.read_write hafits, hsecond.read_write hbfits]

/-- Packing changes the value that is read, and nothing else. -/
theorem Exact.readAs_eq_some {codec : Codec α} (exact : codec.Exact) {pack : α → β}
    {input rest : Bytes} {b : β} : codec.readAs pack input = some (b, rest) ↔
      ∃ a, pack a = b ∧ codec.Fits a ∧ codec.write a ++ rest = input := by
  rw [readAs]
  constructor
  · intro hread
    split at hread
    · exact absurd hread (by simp)
    · next a rest' ha =>
      obtain ⟨rfl, rfl⟩ := Prod.mk.inj (Option.some.inj hread)
      exact ⟨a, rfl, (exact input a rest').1 ha⟩
  · rintro ⟨a, rfl, hfits, rfl⟩
    simp only [exact.read_write hfits]

/-- Another type with the same contents. -/
theorem Exact.map {codec : Codec α} (exact : codec.Exact) {pack : α → β} {unpack : β → α}
    (pack_unpack : ∀ b, pack (unpack b) = b) (unpack_pack : ∀ a, unpack (pack a) = a) :
    (codec.map pack unpack).Exact := by
  intro input b rest
  show codec.readAs pack input = some (b, rest) ↔
    codec.Fits (unpack b) ∧ codec.write (unpack b) ++ rest = input
  rw [exact.readAs_eq_some]
  constructor
  · rintro ⟨a, rfl, ha⟩
    rwa [unpack_pack]
  · intro hb
    exact ⟨unpack b, pack_unpack b, hb⟩

theorem Exact.option {codec : Codec α} (exact : codec.Exact) : (option codec).Exact := by
  rintro (_ | ⟨b, tail⟩) o rest
  · refine iff_of_false (by simp [Codec.option]) ?_
    cases o <;> simp [Codec.option]
  · show (if b = 0 then some (none, tail) else if b = 1 then _ else none) = some (o, rest) ↔ _
    constructor
    · intro hread
      split at hread
      · next hzero =>
        obtain ⟨rfl, rfl⟩ := Prod.mk.inj (Option.some.inj hread)
        rw [hzero]
        exact ⟨fun a ha => absurd ha (by simp), rfl⟩
      · split at hread
        · next hone =>
          split at hread
          · exact absurd hread (by simp)
          · next a rest' ha =>
            obtain ⟨rfl, rfl⟩ := Prod.mk.inj (Option.some.inj hread)
            obtain ⟨hfits, rfl⟩ := (exact tail a rest').1 ha
            rw [hone]
            exact ⟨fun a' ha' => Option.some.inj ha' ▸ hfits, rfl⟩
        · exact absurd hread (by simp)
    · rintro ⟨hfits, hform⟩
      cases o with
      | none =>
        obtain ⟨rfl, rfl⟩ := List.cons.inj hform
        exact if_pos rfl
      | some a =>
        obtain ⟨rfl, htail⟩ := List.cons.inj hform
        have hread := (exact tail a rest).2 ⟨hfits a rfl, htail⟩
        rw [if_neg (by decide), if_pos rfl, hread]

/-- Values are read one after the other. -/
theorem Exact.readMany_eq_some {codec : Codec α} (exact : codec.Exact) {count : Nat}
    {input rest : Bytes} {as : List α} : codec.readMany count input = some (as, rest) ↔
      as.length = count ∧ (∀ a ∈ as, codec.Fits a) ∧ as.flatMap codec.write ++ rest = input := by
  induction count generalizing input as with
  | zero =>
    rw [readMany, Option.some.injEq, Prod.mk.injEq]
    constructor
    · rintro ⟨rfl, rfl⟩
      exact ⟨rfl, fun a ha => absurd ha List.not_mem_nil, rfl⟩
    · rintro ⟨hlength, -, rfl⟩
      rw [List.eq_nil_of_length_eq_zero hlength]
      exact ⟨rfl, rfl⟩
  | succ count ih =>
    rw [readMany]
    constructor
    · intro hread
      split at hread
      · exact absurd hread (by simp)
      · next a middle ha =>
        split at hread
        · exact absurd hread (by simp)
        · next as' rest' has =>
          obtain ⟨rfl, rfl⟩ := Prod.mk.inj (Option.some.inj hread)
          obtain ⟨hafits, rfl⟩ := (exact input a middle).1 ha
          obtain ⟨rfl, hfits, rfl⟩ := ih.1 has
          refine ⟨rfl, List.forall_mem_cons.2 ⟨hafits, hfits⟩, ?_⟩
          rw [List.flatMap_cons, List.append_assoc]
    · rintro ⟨hlength, hfits, rfl⟩
      rcases as with _ | ⟨a, as⟩
      · exact absurd hlength (by simp)
      · obtain ⟨hafits, hfits⟩ := List.forall_mem_cons.1 hfits
        have has := ih.2 ⟨Nat.succ.inj hlength, hfits, rfl⟩
        rw [List.flatMap_cons, List.append_assoc]
        simp only [exact.read_write hafits, has]

theorem Exact.list {codec : Codec α} (exact : codec.Exact) : (list codec).Exact := by
  intro input as rest
  show _ ↔ (word64.Fits as.length ∧ ∀ a ∈ as, codec.Fits a) ∧
    (word64.write as.length ++ as.flatMap codec.write) ++ rest = input
  rw [List.append_assoc, Codec.list]
  have hword : word64.Exact := exact_word 8
  constructor
  · intro hread
    dsimp only at hread
    split at hread
    · exact absurd hread (by simp)
    · next count middle hcount =>
      obtain ⟨rfl, hfits, hform⟩ := exact.readMany_eq_some.1 hread
      obtain ⟨hlt, rfl⟩ := (hword input as.length middle).1 hcount
      rw [hform]
      exact ⟨⟨hlt, hfits⟩, rfl⟩
  · rintro ⟨⟨hlt, hfits⟩, rfl⟩
    simp only [hword.read_write hlt]
    exact exact.readMany_eq_some.2 ⟨rfl, hfits, rfl⟩

theorem exact_bytes : bytes.Exact := exact_byte.list

/-- A byte string fits if its length does. -/
@[simp] theorem fits_bytes {data : Bytes} : bytes.Fits data ↔ data.length < 2 ^ 64 := by
  show word64.Fits data.length ∧ (∀ b ∈ data, True) ↔ _
  rw [fits_word64]
  exact and_iff_left fun _ _ => trivial

end Codec

end CommitteeConsensus
