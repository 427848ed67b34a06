import CommitteeConsensus.Text
import CommitteeConsensus.Term.Basic

/-!
# A host of digests

A host for trying consensus out.  Nothing about it is secret: a signature is a
digest of the signer's id and what is signed, so every member can verify every
signature, and anyone can forge one.  What it gives is that everything is
determined: the same run produces the same bytes.

Shares of a seed are digests as well.  They add up in one of two ways.  Under
`SeedRule.anyQuorum` the sum depends on the height alone, as with a threshold
signature, where every quorum of shares gives the same result; under
`SeedRule.theseShares` it depends on each share and on their order, which shows
whether anything relies on the difference.
-/

namespace CommitteeConsensus.Simulation

/-- Eight bytes, low byte first. -/
def wordBytes (n : Nat) : Bytes := Codec.word64.write n

/-- How seed shares add up. -/
inductive SeedRule where
  | anyQuorum
  | theseShares
  deriving DecidableEq

/-- The signature of a member under some bytes. -/
def signatureOf (member : MemberId) (data : Bytes) : Signature :=
  (Sha256.hashAll [utf8 "signature", wordBytes member, data]).bytes

/-- The share of a member in the seed of a height. -/
def seedShareOf (member : MemberId) (height : Height) (seed : Seed) : Signature :=
  (Sha256.hashAll [utf8 "random_seed_share", wordBytes member, wordBytes height,
    wordBytes seed]).bytes

/-- What shares in the seed of a height add up to. -/
def SeedRule.aggregate : SeedRule → Height → List (MemberId × Signature) → Signature
  | .anyQuorum, height, _ => (Sha256.hashAll [utf8 "random_seed", wordBytes height]).bytes
  | .theseShares, height, shares =>
    (Sha256.hashAll ([utf8 "strict", wordBytes height] ++
      shares.flatMap fun share => [wordBytes share.1, share.2])).bytes

/-- The keys of a member. -/
def digestKeys (rule : SeedRule) (me : MemberId) : Keys where
  me := me
  sign := signatureOf me
  verify data signature member := signature == signatureOf member data
  signSeed := seedShareOf me
  verifySeed height seed share member := share == seedShareOf member height seed
  aggregate := rule.aggregate

/-- The hash of a block is the digest of its binary form. -/
def blockHash (block : Block) : BlockHash := Sha256.hash (Codec.block.write block)

/-- Whether a hash is the hash of a block, and the block is of this height. -/
def matchesHash (height : Height) (block : Block) (hash : BlockHash) : Bool :=
  block.height == height && blockHash block == hash

/-- What a member can do on its own. -/
def capabilities (rule : SeedRule) (me : MemberId) : Capabilities :=
  ⟨digestKeys rule me, matchesHash⟩

/-- The block that a member proposes at a height. -/
def sampleBlock (height : Height) (proposer : MemberId) : Block :=
  ⟨height, utf8 ("block " ++ Text.height height ++ " proposed by " ++ Text.member proposer)⟩

/-- The members 0 to `n - 1`. -/
def firstMembers (n : Nat) : List MemberId := List.range n

end CommitteeConsensus.Simulation
