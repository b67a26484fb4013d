import Novarand.Crypto.BigFloat
import Novarand.Crypto.MerkleArray

/-!
# Compact certificates

A builder collects the signatures of participants and commits to them in a Merkle tree; coins that
are hashed from the commitments choose the slots to reveal. The verifier checks the revealed
signatures, their places in both trees, and that every coin has its slot.

The Falcon signatures and the codec of a coin choice are parameters (`Primitives`).
-/

namespace Novarand.CompactCert

open Crypto MerkleArray

structure CoinChoice where
  j : ℕ
  signedWeight : ℕ
  provenWeight : ℕ
  sigcom : Bytes
  partcom : Bytes
  msgHash : Bytes

/-- What the package takes from elsewhere. -/
structure Primitives where
  hashing : Hashing
  /-- `ConvertToCT` of a compressed Falcon signature. -/
  convertToCT : Bytes → Option Bytes
  /-- Falcon's verification of a key, data and a compressed signature. -/
  falconVerify : Bytes → Bytes → Bytes → Bool
  encodeCoin : CoinChoice → Bytes

inductive CertError
  | signedWeightTooLow
  | convertToCT
  | merkle (e : MerkleError)
  | falcon
  | reveals (e : RevealsError)
  | noReveal (j coin : ℕ)
  | alreadyAdded (pos : ℕ)
  | posPastParticipants (pos : ℕ)
  | zeroWeight (pos : ℕ)
  | notEnoughWeight
  | needValidL
  | coinIndex (lo hi : ℕ)
  | indexOutOfRange
  | divisionByZero
  | noEnd
  deriving DecidableEq

/-- What crashes the program or keeps it from returning. -/
def CertError.Fatal : CertError → Prop
  | indexOutOfRange | divisionByZero | noEnd => True
  | merkle e => e.Fatal
  | _ => False

/-- The computation ends with a result or an error value. -/
def Returns {α : Type} (x : Except CertError α) : Prop := ∀ e, x = .error e → ¬e.Fatal

/-- The `n` bytes that `PutUint16` and `PutUint64` of the little-endian order write. -/
def littleEndian (n x : ℕ) : Bytes := (List.range n).map fun i => UInt8.ofNat (x / 256 ^ i)

/-- The number that `SetBytes` reads. -/
def bigEndian (bytes : Bytes) : ℕ := bytes.foldl (fun n b => n * 256 + b.toNat) 0

variable (P : Primitives)

/-! ### Signatures of the participants -/

/-- A `merklesignature.Signature`. -/
structure Signature where
  signature : Option Bytes := none
  merkleArrayIndex : ℕ := 0
  proof : Proof := { hashFactory := .sha512_256, treeDepth := 0 }
  verifyingKey : Bytes := []

def cryptoPrimitivesID : ℕ := 0

/-- `GetFixedLengthHashableRepresentation` of a single leaf's proof: the path is indexed up to the
depth that the proof claims. -/
def proofRepresentation (proof : Proof) : Except CertError Bytes := do
  let zeroDigest := List.replicate proof.hashFactory.size (0 : UInt8)
  let padding := List.replicate (UInt8.ofNat maxEncodedTreeDepth - proof.treeDepth).toNat zeroDigest
  let digests ← (List.range proof.treeDepth.toNat).mapM fun i => do
    let digest ← orThrow .indexOutOfRange proof.path[i]?
    return digest.getD zeroDigest
  return proof.treeDepth :: (padding.flatten ++ digests.flatten)

/-- `GetFixedLengthHashableRepresentation` of a signature. -/
def Signature.representation (s : Signature) : Except CertError Bytes := do
  let sigBytes ← orThrow .convertToCT (P.convertToCT (s.signature.getD []))
  let proofBytes ← proofRepresentation s.proof
  return littleEndian 2 cryptoPrimitivesID ++ sigBytes ++ s.verifyingKey ++
    littleEndian 8 s.merkleArrayIndex ++ proofBytes

/-- `CommittablePublicKey.ToBeHashed`. -/
def committablePublicKey (verifyingKey : Bytes) (round : ℕ) : Hashable :=
  { id := .keysInMSS
    data := littleEndian 2 cryptoPrimitivesID ++ littleEndian 8 round ++ verifyingKey }

/-- `Verify` of a participant's key. -/
def verifySignature (pk : Bytes) (round : ℕ) (msg : Hashable) (sig : Signature) :
    Except CertError Unit := do
  let ephkey := committablePublicKey sig.verifyingKey round
  (verifyVectorCommitment P.hashing pk
    ((∅ : Dict ℕ Hashable).upsert sig.merkleArrayIndex ephkey) sig.proof).mapError .merkle
  failIf (¬P.falconVerify sig.verifyingKey (P.hashing.genericHashObj .sha512_256 msg)
    (sig.signature.getD [])) .falcon

structure SigslotCommit where
  sig : Signature := {}
  l : ℕ := 0

def buildCommittableSignature (sigCommit : SigslotCommit) : Except CertError Hashable :=
  if sigCommit.sig.signature = none then .ok { id := .compactCertSig }
  else do
    let sigBytes ← sigCommit.sig.representation P
    return { id := .compactCertSig, data := littleEndian 8 sigCommit.l ++ sigBytes }

structure Participant where
  pk : Bytes
  weight : ℕ

def Participant.toBeHashed (p : Participant) : Hashable :=
  { id := .compactCertPart, data := littleEndian 8 p.weight ++ p.pk }

/-! ### The verifier -/

structure Params where
  msg : Hashable
  provenWeight : ℕ
  sigRound : ℕ
  secKQ : ℕ

structure Reveal where
  sigSlot : SigslotCommit
  part : Participant

structure Cert where
  sigCommit : Bytes
  signedWeight : ℕ
  sigProofs : Proof
  partProofs : Proof
  reveals : Dict ℕ Reveal

/-- `HashType` of the package. -/
def hashType : HashType := .sumhash

def hashCoin (choice : CoinChoice) : Except CertError ℕ := do
  failIf (choice.signedWeight = 0) .divisionByZero
  return bigEndian (P.hashing.genericHashObj .sha512_256
    { id := .compactCertCoin, data := P.encodeCoin choice }) % choice.signedWeight

def Params.numReveals (p : Params) (signedWeight : ℕ) : Except CertError ℕ :=
  (CompactCert.numReveals signedWeight p.provenWeight p.secKQ maxReveals).mapError .reveals

/-- The choice of coin `j`. -/
def Params.coinChoice (p : Params) (signedWeight : ℕ) (sigcom partcom msgHash : Bytes) (j : ℕ) :
    CoinChoice :=
  { j, signedWeight, provenWeight := p.provenWeight, sigcom, partcom, msgHash }

/-- The slot's interval of weights holds the coin. -/
def Reveal.Holds (r : Reveal) (coin : ℕ) : Prop :=
  r.sigSlot.l ≤ coin ∧ coin < (r.sigSlot.l + r.part.weight) % 2 ^ 64

instance (r : Reveal) (coin : ℕ) : Decidable (r.Holds coin) :=
  inferInstanceAs (Decidable (_ ∧ _))

/-- The first loop of `Verify`, over the reveals in the order of the map's iteration. -/
def checkReveals (params : Params) (reveals : List (Σ _ : ℕ, Reveal)) :
    Except CertError (Dict ℕ Hashable × Dict ℕ Hashable) :=
  reveals.foldlM (fun maps r => do
    let sig ← buildCommittableSignature P r.2.sigSlot
    verifySignature P r.2.part.pk params.sigRound params.msg r.2.sigSlot.sig
    return (maps.1.upsert r.1 sig, maps.2.upsert r.1 r.2.part.toBeHashed)) (∅, ∅)

/-- `Verifier.Verify`. -/
def verifyCert (params : Params) (partcom : Bytes) (c : Cert) : Except CertError Unit := do
  failIf (c.signedWeight ≤ params.provenWeight) .signedWeightTooLow
  let (sigs, parts) ← checkReveals P params c.reveals.entries
  (verifyVectorCommitment P.hashing c.sigCommit sigs c.sigProofs).mapError .merkle
  (verifyVectorCommitment P.hashing partcom parts c.partProofs).mapError .merkle
  let nr ← params.numReveals c.signedWeight
  let msgHash := P.hashing.genericHashObj c.partProofs.hashFactory params.msg
  (List.range nr).forM fun j => do
    let coin ← hashCoin P (params.coinChoice c.signedWeight c.sigCommit partcom msgHash j)
    failIf (¬∃ r ∈ c.reveals.entries, r.2.Holds coin) (.noReveal j coin)

/-! ### The builder -/

structure Sigslot where
  weight : ℕ := 0
  commit : SigslotCommit := {}

/-- The builder; its cached certificate is never set. -/
structure Builder where
  params : Params
  sigs : List Sigslot
  sigsHasValidL : Bool := false
  signedWeight : ℕ := 0
  participants : List Participant
  parttree : Tree

def mkBuilder (params : Params) (part : List Participant) (parttree : Tree) : Builder :=
  { params, sigs := List.replicate part.length {}, participants := part, parttree }

namespace Builder

variable (b : Builder)

def add (pos : ℕ) (sig : Signature) (verifySig : Bool) : Except CertError Builder := do
  let slot ← orThrow .indexOutOfRange b.sigs[pos]?
  failIf (slot.weight ≠ 0) (.alreadyAdded pos)
  let p ← orThrow (.posPastParticipants pos) b.participants[pos]?
  failIf (p.weight = 0) (.zeroWeight pos)
  if verifySig then verifySignature P p.pk b.params.sigRound b.params.msg sig
  return { b with
    sigs := b.sigs.set pos { weight := p.weight, commit := { slot.commit with sig } }
    signedWeight := (b.signedWeight + p.weight) % 2 ^ 64
    sigsHasValidL := false }

/-- The loop of `coinIndex`. -/
def coinIndexLoop (coinWeight : ℕ) : ℕ → ℕ → ℕ → Except CertError ℕ
  | fuel, lo, hi =>
    if hi ≤ lo then .error (.coinIndex lo hi)
    else match fuel with
      | 0 => .error .noEnd
      | fuel + 1 => do
        let mid := (lo + hi) / 2
        let slot ← orThrow .indexOutOfRange b.sigs[mid]?
        if coinWeight < slot.commit.l then coinIndexLoop coinWeight fuel lo mid
        else if coinWeight < (slot.commit.l + slot.weight) % 2 ^ 64 then return mid
        else coinIndexLoop coinWeight fuel (mid + 1) hi

def coinIndex (coinWeight : ℕ) : Except CertError ℕ := do
  failIf (b.sigsHasValidL = false) .needValidL
  b.coinIndexLoop coinWeight b.sigs.length 0 b.sigs.length

/-- The slots after a first one that ends at weight `l`. -/
def fillL : ℕ → List Sigslot → List Sigslot
  | _, [] => []
  | l, slot :: slots =>
    { slot with commit := { slot.commit with l } } :: fillL ((l + slot.weight) % 2 ^ 64) slots

/-- The builder with the `L` values that `Build` fills in. -/
def prepared : Builder :=
  { b with
    sigs := match b.sigs with
      | [] => []
      | slot :: slots => slot :: fillL ((slot.commit.l + slot.weight) % 2 ^ 64) slots
    sigsHasValidL := true }

/-- `committableSignatureSlotArray`. -/
def sigsArray : HashableArray where
  length := b.sigs.length
  marshal pos :=
    match b.sigs[pos]? with
    | none => .error .marshal
    | some slot =>
      match buildCommittableSignature P slot.commit with
      | .ok h => .ok h
      | .error .indexOutOfRange => .error .indexOutOfRange
      | .error _ => .error .marshal

/-- One turn of the loop of `Build`: the slot of coin `j` is revealed. -/
def reveal (sigcom : Bytes) (j : ℕ) (acc : Dict ℕ Reveal × List ℕ) :
    Except CertError (Dict ℕ Reveal × List ℕ) := do
  let msgHash := P.hashing.genericHashObj hashType b.params.msg
  let coin ← hashCoin P (b.params.coinChoice b.signedWeight sigcom b.parttree.root msgHash j)
  let pos ← b.coinIndex coin
  let part ← orThrow (.posPastParticipants pos) b.participants[pos]?
  if (acc.1.lookup pos).isSome then return acc
  else do
    let slot ← orThrow .indexOutOfRange b.sigs[pos]?
    return (acc.1.upsert pos { sigSlot := slot.commit, part }, acc.2 ++ [pos])

/-- The certificate from the tree over the signatures. -/
def certFrom (sigtree : Tree) : Except CertError Cert := do
  let nr ← b.params.numReveals b.signedWeight
  let (reveals, proofPositions) ← (List.range nr).foldlM
    (fun acc j => b.reveal P sigtree.root j acc) (∅, [])
  let sigProofs ← (sigtree.prove P.hashing proofPositions).mapError .merkle
  let partProofs ← (b.parttree.prove P.hashing proofPositions).mapError .merkle
  return { sigCommit := sigtree.root, signedWeight := b.signedWeight, sigProofs, partProofs, reveals }

/-- The outcomes of `Builder.Build`, which hashes the signatures with a pool of workers. -/
inductive Build : Except CertError Cert → Prop
  | lowWeight (h : b.signedWeight ≤ b.params.provenWeight) : Build (.error .notEnoughWeight)
  | tree {out} (h : b.params.provenWeight < b.signedWeight)
      (hbuild : BuildVectorCommitmentTree P.hashing hashType (b.prepared.sigsArray P) out) :
    Build (do
      let sigtree ← out.mapError .merkle
      b.prepared.certFrom P sigtree)

end Builder

end Novarand.CompactCert
