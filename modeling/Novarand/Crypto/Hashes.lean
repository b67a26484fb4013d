import Mathlib

/-!
# Hash inputs

Everything that is hashed goes through `HashRep`: the bytes of a domain separation prefix, then the
data. No prefix is a prefix of another, so two objects with one representation have the same prefix
and the same data.
-/

namespace Novarand.Crypto

abbrev Bytes := List UInt8

inductive HashID
  | appIndex
  | arcReserved
  | auctionBid
  | auctionDeposit
  | auctionOutcomes
  | auctionParams
  | auctionSettlement
  | compactCertCoin
  | compactCertPart
  | compactCertSig
  | agreementSelector
  | blockHeader
  | balanceRecord
  | credential
  | genesis
  | keysInMSS
  | merkleArrayNode
  | merkleVectorCommitmentBottomLeaf
  | message
  | netPrioResponse
  | oneTimeSigKey1
  | oneTimeSigKey2
  | paysetFlat
  | payload
  | program
  | programData
  | proposerSeed
  | participationKeys
  | seed
  | specialAddr
  | signedTxnInBlock
  | testHashable
  | txGroup
  | txnMerkleLeaf
  | transaction
  | vote
  deriving DecidableEq

namespace HashID

def chars : HashID → List Char
  | appIndex => ['a', 'p', 'p', 'I', 'D']
  | arcReserved => ['a', 'r', 'c']
  | auctionBid => ['a', 'B']
  | auctionDeposit => ['a', 'D']
  | auctionOutcomes => ['a', 'O']
  | auctionParams => ['a', 'P']
  | auctionSettlement => ['a', 'S']
  | compactCertCoin => ['c', 'c', 'c']
  | compactCertPart => ['c', 'c', 'p']
  | compactCertSig => ['c', 'c', 's']
  | agreementSelector => ['A', 'S']
  | blockHeader => ['B', 'H']
  | balanceRecord => ['B', 'R']
  | credential => ['C', 'R']
  | genesis => ['G', 'E']
  | keysInMSS => ['K', 'P']
  | merkleArrayNode => ['M', 'A']
  | merkleVectorCommitmentBottomLeaf => ['M', 'B']
  | message => ['M', 'X']
  | netPrioResponse => ['N', 'P', 'R']
  | oneTimeSigKey1 => ['O', 'T', '1']
  | oneTimeSigKey2 => ['O', 'T', '2']
  | paysetFlat => ['P', 'F']
  | payload => ['P', 'L']
  | program => ['P', 'r', 'o', 'g', 'r', 'a', 'm']
  | programData => ['P', 'r', 'o', 'g', 'D', 'a', 't', 'a']
  | proposerSeed => ['P', 'S']
  | participationKeys => ['P', 'K']
  | seed => ['S', 'D']
  | specialAddr => ['S', 'p', 'e', 'c', 'i', 'a', 'l', 'A', 'd', 'd', 'r']
  | signedTxnInBlock => ['S', 'T', 'I', 'B']
  | testHashable => ['T', 'E']
  | txGroup => ['T', 'G']
  | txnMerkleLeaf => ['T', 'L']
  | transaction => ['T', 'X']
  | vote => ['V', 'O']

/-- The prefix; its characters are ASCII. -/
def bytes (id : HashID) : Bytes := id.chars.map fun c => UInt8.ofNat c.toNat

def all : List HashID :=
  [appIndex, arcReserved, auctionBid, auctionDeposit, auctionOutcomes, auctionParams,
    auctionSettlement, compactCertCoin, compactCertPart, compactCertSig, agreementSelector,
    blockHeader, balanceRecord, credential, genesis, keysInMSS, merkleArrayNode,
    merkleVectorCommitmentBottomLeaf, message, netPrioResponse, oneTimeSigKey1, oneTimeSigKey2,
    paysetFlat, payload, program, programData, proposerSeed, participationKeys, seed, specialAddr,
    signedTxnInBlock, testHashable, txGroup, txnMerkleLeaf, transaction, vote]

theorem mem_all (id : HashID) : id ∈ all := by
  cases id <;> decide

theorem prefix_free (a b : HashID) (h : a.bytes <+: b.bytes) : a = b := by
  have ha : ∀ a ∈ all, ∀ b ∈ all, a.bytes <+: b.bytes → a = b := by decide +kernel
  exact ha a (mem_all a) b (mem_all b) h

end HashID

/-- What `ToBeHashed` returns. -/
structure Hashable where
  id : HashID
  data : Bytes := []
  deriving DecidableEq

def Hashable.hashRep (h : Hashable) : Bytes := h.id.bytes ++ h.data

theorem Hashable.hashRep_inj {a b : Hashable} (h : a.hashRep = b.hashRep) : a = b := by
  have hi : a.id = b.id := by
    rcases List.prefix_or_prefix_of_prefix (List.prefix_append a.id.bytes a.data)
        (h ▸ List.prefix_append b.id.bytes b.data : b.id.bytes <+: a.hashRep) with hp | hp
    · exact HashID.prefix_free _ _ hp
    · exact (HashID.prefix_free _ _ hp).symm
  obtain ⟨ida, _⟩ := a
  obtain ⟨idb, _⟩ := b
  obtain rfl : ida = idb := hi
  exact congrArg (mk ida) (List.append_cancel_left h)

inductive HashType
  | sha512_256
  | sumhash
  deriving DecidableEq

def HashType.size : HashType → ℕ
  | sha512_256 => 32
  | sumhash => 64

/-- `MaxHashDigestSize`, the bound of the codec on the length of a digest. -/
def maxHashDigestSize : ℕ := HashType.sumhash.size

/-- A digest that may be missing, as an element of a slice of `GenericDigest`. -/
abbrev GenericDigest := Option Bytes

/-- The hash functions that a `HashFactory` can make. -/
structure Hashing where
  sum : HashType → Bytes → Bytes
  length_sum : ∀ t x, (sum t x).length = t.size

namespace Hashing

variable (H : Hashing) (t : HashType)

def genericHashObj (h : Hashable) : Bytes := H.sum t h.hashRep

@[simp] theorem length_genericHashObj (h : Hashable) : (H.genericHashObj t h).length = t.size :=
  H.length_sum t _

end Hashing

end Novarand.Crypto
