import Novarand.Ledger.Rewards
import Novarand.Ledger.Applications

/-!
# Blocks

Block headers with the checks a header must pass after the previous one, and the payset: how signed
transactions are encoded into a block and decoded from it in groups.

Everything that is computed by code outside the repository or that only the content of a file tells is
a field of `Environment`: the consensus parameters of every version, the hashes, encoded lengths, the
verification of signatures, and the virtual machine.
-/

namespace Novarand.Ledger

structure UpgradeVote where
  upgradePropose : ConsensusVersion := 0
  upgradeDelay : Round := 0
  upgradeApprove : Bool := false
  deriving DecidableEq

/-- The version 0 is the empty text. -/
structure UpgradeState where
  currentProtocol : ConsensusVersion := 0
  nextProtocol : ConsensusVersion := 0
  nextProtocolApprovals : ℕ := 0
  nextProtocolVoteBefore : Round := 0
  nextProtocolSwitchOn : Round := 0
  deriving DecidableEq

structure CompactCertState where
  voters : Digest := 0
  votersTotal : MicroNovas := 0
  nextRound : Round := 0
  deriving DecidableEq

structure BlockHeader extends RewardsState, UpgradeState, UpgradeVote where
  round : Round := 0
  branch : Digest := 0
  seed : Digest := 0
  txnRoot : Digest := 0
  timeStamp : ℤ := 0
  genesisID : Bytes := []
  genesisHash : Digest := 0
  txnCounter : ℕ := 0
  /-- The states by type; `CompactCertBasic` is 0. -/
  compactCert : Dict ℕ CompactCertState := ∅
  expiredParticipationAccounts : List Address := []
  deriving DecidableEq

structure Block extends BlockHeader where
  payset : List SignedTxnInBlock := []
  deriving DecidableEq

def Block.withSeed (blk : Block) (seed : Digest) : Block := { blk with seed }

/-- `CompactCert[protocol.CompactCertBasic]`. -/
def BlockHeader.basicCompactCert (hdr : BlockHeader) : CompactCertState := hdr.compactCert.getD 0 {}

structure Environment (P : Type) where
  /-- `config.Consensus`. -/
  consensus : ConsensusVersion → Option ConsensusParams
  /-- The length of the text of a version. -/
  versionLength : ConsensusVersion → ℕ
  /-- `Transaction.ID`, the hash of the encoded transaction. -/
  txid : Transaction → Txid
  /-- `crypto.HashObj` of a `TxGroup`. -/
  groupHash : List Digest → Digest
  /-- `BlockHeader.Hash`. -/
  headerHash : BlockHeader → Digest
  /-- `PaysetCommit` under the given parameters. -/
  paysetCommit : ConsensusParams → List SignedTxnInBlock → Except EvalError Digest
  encodedLength : SignedTxnInBlock → ℕ
  /-- `validateCompactCert`: the headers of the certificate and its voters, the next expected round
  and the round of the transaction. -/
  validateCompactCert : BlockHeader → Cert → BlockHeader → Round → Round → Except EvalError Unit
  /-- `PaysetGroups` on the groups of a block with this header. -/
  verifyGroups : BlockHeader → List (List SignedTxn) → Except EvalError Unit
  compactCertSender : Address
  testnetGenesisHash : Digest
  testnetBank : Address
  avm : Avm P

variable {P : Type} (env : Environment P)

/-! ## Headers -/

namespace UpgradeState

/-- The proposal of an upgrade in `applyUpgradeVote`. -/
def propose (params : ConsensusParams) (r : Round) (vote : UpgradeVote) (s : UpgradeState) :
    Except EvalError UpgradeState :=
  if vote.upgradePropose ≠ 0 then do
    failIf (s.nextProtocol ≠ 0) .upgradeVote
    failIf (params.maxVersionStringLen < env.versionLength vote.upgradePropose) .upgradeVote
    failIf (params.maxUpgradeWaitRounds < vote.upgradeDelay ∨
      vote.upgradeDelay < params.minUpgradeWaitRounds) .upgradeVote
    let upgradeDelay :=
      if vote.upgradeDelay = 0 then params.defaultUpgradeWaitRounds else vote.upgradeDelay
    return { s with
      nextProtocol := vote.upgradePropose
      nextProtocolApprovals := 0
      nextProtocolVoteBefore := r + params.upgradeVoteRounds
      nextProtocolSwitchOn := r + params.upgradeVoteRounds + upgradeDelay }
  else do
    failIf (vote.upgradeDelay ≠ 0) .upgradeVote
    return s

/-- The approval of a proposal in `applyUpgradeVote`. -/
def approve (r : Round) (vote : UpgradeVote) (s : UpgradeState) : Except EvalError UpgradeState :=
  if vote.upgradeApprove then do
    failIf (s.nextProtocol = 0) .upgradeVote
    failIf (s.nextProtocolVoteBefore ≤ r) .upgradeVote
    return { s with nextProtocolApprovals := s.nextProtocolApprovals + 1 }
  else return s

/-- Clear out a failed proposal. -/
def clearFailed (params : ConsensusParams) (r : Round) (s : UpgradeState) : UpgradeState :=
  if r = s.nextProtocolVoteBefore ∧ s.nextProtocolApprovals < params.upgradeThreshold then
    { currentProtocol := s.currentProtocol }
  else s

/-- Switch over to an approved protocol. -/
def switchOver (r : Round) (s : UpgradeState) : UpgradeState :=
  if r = s.nextProtocolSwitchOn then { currentProtocol := s.nextProtocol } else s

def applyUpgradeVote (r : Round) (vote : UpgradeVote) (s : UpgradeState) :
    Except EvalError UpgradeState := do
  let params ← orThrow .unknownProtocol (env.consensus s.currentProtocol)
  let s ← s.propose env params r vote
  let s ← s.approve r vote
  return (s.clearFailed params r).switchOver r

end UpgradeState

/-- `PreCheck`: the header may follow the header `prev`. -/
def BlockHeader.preCheck (bh prev : BlockHeader) : Except EvalError Unit := do
  let params ← orThrow .unknownProtocol (env.consensus bh.currentProtocol)
  let round := prev.round + 1
  failIf (round ≠ bh.round) .preCheck
  failIf (bh.branch ≠ env.headerHash prev) .preCheck
  let nextUpgradeState ← prev.toUpgradeState.applyUpgradeVote env round bh.toUpgradeVote
  failIf (nextUpgradeState ≠ bh.toUpgradeState) .preCheck
  failIf (0 < prev.timeStamp ∧ (bh.timeStamp < prev.timeStamp ∨
    prev.timeStamp + params.maxTimestampIncrement < bh.timeStamp)) .preCheck
  failIf (bh.genesisID = []) .preCheck
  failIf (prev.genesisID ≠ [] ∧ prev.genesisID ≠ bh.genesisID) .preCheck
  if params.supportGenesisHash then
    failIf (bh.genesisHash = 0) .preCheck
    failIf (prev.genesisHash ≠ 0 ∧ prev.genesisHash ≠ bh.genesisHash) .preCheck
  else
    failIf (bh.genesisHash ≠ 0) .preCheck

/-! ## The payset -/

namespace BlockHeader

variable (bh : BlockHeader)

/-- The restored transaction of a `SignedTxnInBlock`. -/
def restoreGenesis (proto : ConsensusParams) (stb : SignedTxnInBlock) : SignedTxn :=
  let txn := stb.signedTxn.txn
  { stb.signedTxn with
    txn := { txn with
      genesisID := if stb.hasGenesisID then bh.genesisID else txn.genesisID
      genesisHash :=
        if proto.requireGenesisHash ∨ stb.hasGenesisHash then bh.genesisHash else txn.genesisHash } }

def decodeSignedTxn (stb : SignedTxnInBlock) : Except EvalError SignedTxnWithAD := do
  let proto ← orThrow .unknownProtocol (env.consensus bh.currentProtocol)
  if !proto.supportSignedTxnInBlock then
    return { signedTxn := stb.signedTxn }
  else
    failIf (stb.signedTxn.txn.genesisID ≠ []) .genesisFieldNotEmpty
    failIf (stb.signedTxn.txn.genesisHash ≠ 0) .genesisFieldNotEmpty
    failIf (proto.requireGenesisHash ∧ stb.hasGenesisHash) .hasGenesisHashSet
    return { signedTxn := bh.restoreGenesis proto stb, applyData := stb.applyData }

def encodeSignedTxn (st : SignedTxn) (ad : ApplyData) : Except EvalError SignedTxnInBlock := do
  let proto ← orThrow .unknownProtocol (env.consensus bh.currentProtocol)
  if !proto.supportSignedTxnInBlock then
    return { signedTxn := st }
  else
    failIf (st.txn.genesisID ≠ [] ∧ st.txn.genesisID ≠ bh.genesisID) .genesisIDMismatch
    failIf (st.txn.genesisHash ≠ 0 ∧ st.txn.genesisHash ≠ bh.genesisHash) .genesisHashMismatch
    failIf (st.txn.genesisHash = 0 ∧ proto.requireGenesisHash) .genesisHashMissing
    return {
      signedTxn := { st with txn := { st.txn with genesisID := [], genesisHash := 0 } }
      applyData := ad
      hasGenesisID := st.txn.genesisID ≠ []
      hasGenesisHash := st.txn.genesisHash ≠ 0 ∧ !proto.requireGenesisHash }

end BlockHeader

end Novarand.Ledger
