import Novarand.Lib.Codec

/-!
# The encoding of transactions

`MarshalMsg` and `UnmarshalMsg` of `Transaction` and of the structures it holds: the tables of their
members, in the order of the declarations, with the keys, the names in error paths and the bounds of
slices. `AddressPrintTxnFields` has a codec of its own, but that of `Transaction` leaves its field out.
A hash factory that is read is checked (`Validate`), wherever it stands in a certificate.

A nil slice and an empty one are not told apart, and neither are a nil map and an empty one.
-/

namespace Novarand.Ledger.TxnCodec

open Function Msgp.Codec

open Msgp (Member Record member)

/-! ## Certificates -/

def maxHashType : ℕ := 2
def maxHashDigestSize : ℕ := 64
def maxNumLeavesOnEncodedTree : ℕ := 2 ^ 16
def maxReveals : ℕ := 1024
def falconMaxSignatureSize : ℕ := 1538
def falconPublicKeySize : ℕ := 1793

def genericDigest : Msgp.Codec Octets := boundedBytes maxHashDigestSize

/-- `HashFactory`, which is validated after it was read. -/
def hashFactory :=
  checked (struct [member "t" "HashType" (uint 16)] (by decide +kernel))
    (fun z => (z (0 : Fin 1) : BitVec 16).toNat < maxHashType) Nat.two_pos

/-- `Proof` and `SingleLeafProof`. -/
def proof := struct [
  member "pth" "Path" (slice (some (maxNumLeavesOnEncodedTree / 2)) genericDigest),
  member "hsh" "HashFactory" hashFactory,
  member "td" "TreeDepth" (uint 8)] (by decide +kernel)

def falconVerifier := struct [
  member "k" "PublicKey" (exactBytes falconPublicKeySize)] (by decide +kernel)

def compactOneTimeSignature := struct [
  member "sig" "Signature" (boundedBytes falconMaxSignatureSize),
  member "idx" "MerkleArrayIndex" uint64,
  member "prf" "Proof" proof,
  member "vkey" "VerifyingKey" falconVerifier] (by decide +kernel)

def sigslotCommit := struct [
  member "s" "Sig" compactOneTimeSignature,
  member "l" "L" uint64] (by decide +kernel)

def participant := struct [
  member "p" "PK" (exactBytes maxHashDigestSize),
  member "w" "Weight" uint64] (by decide +kernel)

def reveal := struct [
  member "s" "SigSlot" sigslotCommit,
  member "p" "Part" participant] (by decide +kernel)

def cert := struct [
  member "c" "SigCommit" genericDigest,
  member "w" "SignedWeight" uint64,
  member "S" "SigProofs" proof,
  member "P" "PartProofs" proof,
  member "r" "Reveals" (map (some maxReveals) reveal)] (by decide +kernel)

/-! ## Transactions -/

def address := exactBytes 32

def assetParams := struct [
  member "t" "Total" uint64,
  member "dc" "Decimals" (uint 32),
  member "df" "DefaultFrozen" bool,
  member "un" "UnitName" string,
  member "an" "AssetName" string,
  member "au" "URL" string,
  member "am" "MetadataHash" (exactBytes 32),
  member "m" "Manager" address,
  member "r" "Reserve" address,
  member "f" "Freeze" address,
  member "c" "Clawback" address] (by decide +kernel)

def stateSchema := struct [
  member "nui" "NumUint" uint64,
  member "nbs" "NumByteSlice" uint64] (by decide +kernel)

def maxTxnNoteBytes : ℕ := 1024
def maxAvailableAppProgramLen : ℕ := 8192
/-- The bound of the four lists of an application call. -/
def encodedMax : ℕ := 32

/-- The 45 fields that the codec of `Transaction` knows. -/
def members : List Member := [
  member "type" "Type" string,
  member "snd" "Sender" address,
  member "fee" "Fee" uint64,
  member "fv" "FirstValid" uint64,
  member "lv" "LastValid" uint64,
  { member "note" "Note" (boundedBytes maxTxnNoteBytes) with inPlace := true },
  member "gen" "GenesisID" string,
  member "gh" "GenesisHash" (exactBytes 32),
  member "grp" "Group" (exactBytes 32),
  member "lx" "Lease" (exactBytes 32),
  member "rekey" "RekeyTo" address,
  member "votekey" "VotePK" (exactBytes 32),
  member "selkey" "SelectionPK" (exactBytes 32),
  member "sprfkey" "StateProofPK" (exactBytes maxHashDigestSize),
  member "votefst" "VoteFirst" uint64,
  member "votelst" "VoteLast" uint64,
  member "votekd" "VoteKeyDilution" uint64,
  member "nonpart" "Nonparticipation" bool,
  member "rcv" "Receiver" address,
  member "amt" "Amount" uint64,
  member "close" "CloseRemainderTo" address,
  member "caid" "ConfigAsset" uint64,
  member "apar" "AssetParams" assetParams,
  member "xaid" "XferAsset" uint64,
  member "aamt" "AssetAmount" uint64,
  member "asnd" "AssetSender" address,
  member "arcv" "AssetReceiver" address,
  member "aclose" "AssetCloseTo" address,
  member "fadd" "FreezeAccount" address,
  member "faid" "FreezeAsset" uint64,
  member "afrz" "AssetFrozen" bool,
  member "apid" "ApplicationID" uint64,
  member "apan" "OnCompletion" uint64,
  member "apaa" "ApplicationArgs" (slice (some encodedMax) bytes),
  member "apat" "Accounts" (slice (some encodedMax) address),
  member "apfa" "ForeignApps" (slice (some encodedMax) uint64),
  member "apas" "ForeignAssets" (slice (some encodedMax) uint64),
  member "apls" "LocalStateSchema" stateSchema,
  member "apgs" "GlobalStateSchema" stateSchema,
  { member "apap" "ApprovalProgram" (boundedBytes maxAvailableAppProgramLen) with inPlace := true },
  { member "apsu" "ClearStateProgram" (boundedBytes maxAvailableAppProgramLen) with inPlace := true },
  member "apep" "ExtraProgramPages" (uint 32),
  member "certrnd" "CertRound" uint64,
  member "certtype" "CertType" uint64,
  member "cert" "Cert" cert]

/-- What the methods of `Transaction` write and read. -/
def coded : Msgp.Codec (Record members) :=
  structWith Msgp.appendMapHeader members (by decide +kernel) fun m n rest _ => m.mapHeader n rest

/-- A transaction: the fields above, and the one of `AddressPrintTxnFields`. -/
structure Transaction where
  fields : Record members
  receiver2 : { b : Octets // b.length = 32 }

variable (m : Msgp)

def marshalMsg (t : Transaction) : Octets := coded.append m t.fields

/-- `Transaction.ID`, of the bytes that are signed. -/
def id {D : Type} (hash : Octets → D) (t : Transaction) : D := hash (ascii "TX" ++ marshalMsg m t)

variable {m} {t t' : Transaction}

/-- Only the hash type of the signature proofs is set. -/
def hashed (hashType : BitVec 16) : Transaction where
  fields := update coded.zero (44 : Fin 45) (update cert.zero (2 : Fin 5)
    (update proof.zero (1 : Fin 3) (update hashFactory.zero (0 : Fin 1) hashType)))
  receiver2 := address.zero

end Novarand.Ledger.TxnCodec
