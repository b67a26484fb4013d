import Novarand.Agreement.Types

/-!
# Accounts — amounts, rewards, assets and applications

The records of `data/basics`: what the ledger stores for one address, with the arithmetic it is
computed by. Amounts are natural numbers; the `uint64` operations that report an overflow are
partial, and the two places where the source lets a value wrap (`rewardedMicroNovas`, a count below
zero) wrap here too. Keys and digests are numbers, with 0 for the all-zero value.
-/

namespace Novarand.Ledger

export Agreement (Round Address Digest ConsensusVersion)

abbrev Bytes := List UInt8
abbrev MicroNovas := ℕ
abbrev AssetIndex := ℕ
abbrev AppIndex := ℕ
abbrev CreatableIndex := ℕ

/-! ## 64-bit arithmetic -/

/-- `OAdd`: `none` on overflow. -/
def oAdd (a b : ℕ) : Option ℕ := if a + b < 2 ^ 64 then some (a + b) else none

/-- `OSub`: `none` on underflow. -/
def oSub (a b : ℕ) : Option ℕ := if b ≤ a then some (a - b) else none

/-- `OMul`: `none` on overflow. -/
def oMul (a b : ℕ) : Option ℕ := if a * b < 2 ^ 64 then some (a * b) else none

def addSaturate (a b : ℕ) : ℕ := min (a + b) (2 ^ 64 - 1)
def subSaturate (a b : ℕ) : ℕ := a - b
def mulSaturate (a b : ℕ) : ℕ := min (a * b) (2 ^ 64 - 1)
def addSaturate32 (a b : ℕ) : ℕ := min (a + b) (2 ^ 32 - 1)

theorem oAdd_eq_some {a b c : ℕ} : oAdd a b = some c ↔ a + b < 2 ^ 64 ∧ a + b = c := by
  unfold oAdd
  split <;> simp_all

theorem oSub_eq_some {a b c : ℕ} : oSub a b = some c ↔ b ≤ a ∧ a - b = c := by
  unfold oSub
  split <;> simp_all

theorem oMul_eq_some {a b c : ℕ} : oMul a b = some c ↔ a * b < 2 ^ 64 ∧ a * b = c := by
  unfold oMul
  split <;> simp_all

/-! ## Consensus parameters -/

inductive PaysetCommitType
  | unsupported
  | flat
  | merkle
  deriving DecidableEq, Repr

/-- The fields of `config.ConsensusParams` the ledger reads; the defaults are those of version 31. -/
structure ConsensusParams where
  minBalance : ℕ := 100000
  minTxnFee : ℕ := 1000
  rewardUnit : ℕ := 1000000
  rewardsRateRefreshInterval : ℕ := 500000
  pendingResidueRewards : Bool := true
  initialRewardsRateCalculation : Bool := true
  rewardsCalculationFix : Bool := true
  maxTxGroupSize : ℕ := 16
  maxTxnBytesPerBlock : ℕ := 1000000
  maxTxnLife : ℕ := 1000
  supportTransactionLeases : Bool := true
  fixTransactionLeases : Bool := true
  supportGenesisHash : Bool := true
  requireGenesisHash : Bool := true
  supportSignedTxnInBlock : Bool := true
  applyData : Bool := true
  rewardsInApplyData : Bool := true
  txnCounter : Bool := true
  maxAssetsPerAccount : ℕ := 1000
  enableAssetCloseAmount : Bool := true
  supportBecomeNonParticipatingTransactions : Bool := true
  enableKeyregCoherencyCheck : Bool := true
  enableStateProofKeyregCheck : Bool := true
  maxAppsCreated : ℕ := 10
  maxAppsOptedIn : ℕ := 50
  enableExtraPagesOnAppUpdate : Bool := true
  maxAppProgramLen : ℕ := 2048
  maxAppTotalProgramLen : ℕ := 2048
  maxAppKeyLen : ℕ := 64
  maxAppBytesValueLen : ℕ := 128
  maxAppSumKeyValueLens : ℕ := 128
  appFlatParamsMinBalance : ℕ := 100000
  appFlatOptInMinBalance : ℕ := 100000
  schemaMinBalancePerEntry : ℕ := 25000
  schemaUintMinBalance : ℕ := 3500
  schemaBytesMinBalance : ℕ := 25000
  maximumMinimumBalance : ℕ := 100100000
  maxInnerTransactions : ℕ := 16
  enableInnerTransactionPooling : Bool := true
  maxAppProgramCost : ℕ := 700
  enableAppCostPooling : Bool := true
  isolateClearState : Bool := true
  logicSigVersion : ℕ := 6
  noEmptyLocalDeltas : Bool := true
  compactCertRounds : ℕ := 0
  compactCertVotersLookback : ℕ := 0
  compactCertWeightThreshold : ℕ := 0
  maxProposedExpiredOnlineAccounts : ℕ := 32
  maxTimestampIncrement : ℤ := 25
  upgradeVoteRounds : ℕ := 10000
  upgradeThreshold : ℕ := 9000
  defaultUpgradeWaitRounds : ℕ := 140000
  minUpgradeWaitRounds : ℕ := 10000
  maxUpgradeWaitRounds : ℕ := 150000
  maxVersionStringLen : ℕ := 128
  paysetCommit : PaysetCommitType := .merkle

/-! ## Key/value storage of applications -/

/-- A `TealValue` that is present; its type is the constructor. -/
inductive TealValue
  | bytes (b : Bytes)
  | uint (n : ℕ)
  deriving DecidableEq, Repr

abbrev TealKeyValue := Dict Bytes TealValue

structure StateSchema where
  numUint : ℕ := 0
  numByteSlice : ℕ := 0
  deriving DecidableEq, Repr

namespace StateSchema

def addSchema (sm osm : StateSchema) : StateSchema where
  numUint := addSaturate sm.numUint osm.numUint
  numByteSlice := addSaturate sm.numByteSlice osm.numByteSlice

def subSchema (sm osm : StateSchema) : StateSchema where
  numUint := subSaturate sm.numUint osm.numUint
  numByteSlice := subSaturate sm.numByteSlice osm.numByteSlice

def numEntries (sm : StateSchema) : ℕ := addSaturate sm.numUint sm.numByteSlice

def minBalance (proto : ConsensusParams) (sm : StateSchema) : MicroNovas :=
  addSaturate
    (addSaturate (mulSaturate proto.schemaMinBalancePerEntry sm.numEntries)
      (mulSaturate proto.schemaUintMinBalance sm.numUint))
    (mulSaturate proto.schemaBytesMinBalance sm.numByteSlice)

end StateSchema

/-! ## Account records -/

inductive Status
  | offline
  | online
  | notParticipating
  deriving DecidableEq, Repr

structure AssetHolding where
  amount : ℕ := 0
  frozen : Bool := false
  deriving DecidableEq

structure AssetParams where
  total : ℕ := 0
  decimals : ℕ := 0
  defaultFrozen : Bool := false
  unitName : Bytes := []
  assetName : Bytes := []
  url : Bytes := []
  metadataHash : Digest := 0
  manager : Address := 0
  reserve : Address := 0
  freeze : Address := 0
  clawback : Address := 0
  deriving DecidableEq

structure AppLocalState where
  schema : StateSchema := {}
  keyValue : TealKeyValue := ∅
  deriving DecidableEq

structure AppParams where
  approvalProgram : Bytes := []
  clearStateProgram : Bytes := []
  globalState : TealKeyValue := ∅
  localStateSchema : StateSchema := {}
  globalStateSchema : StateSchema := {}
  extraProgramPages : ℕ := 0
  deriving DecidableEq

/-- What the ledger stores for one address. -/
structure AccountData where
  status : Status := .offline
  microNovas : MicroNovas := 0
  rewardsBase : ℕ := 0
  rewardedMicroNovas : MicroNovas := 0
  voteID : Digest := 0
  selectionID : Digest := 0
  stateProofID : Digest := 0
  voteFirstValid : Round := 0
  voteLastValid : Round := 0
  voteKeyDilution : ℕ := 0
  assetParams : Dict AssetIndex AssetParams := ∅
  assets : Dict AssetIndex AssetHolding := ∅
  authAddr : Address := 0
  appLocalStates : Dict AppIndex AppLocalState := ∅
  appParams : Dict AppIndex AppParams := ∅
  totalAppSchema : StateSchema := {}
  totalExtraAppPages : ℕ := 0
  deriving DecidableEq

def rewardUnits (proto : ConsensusParams) (a : MicroNovas) : ℕ := a / proto.rewardUnit

namespace AccountData

variable (proto : ConsensusParams)

/-- `WithUpdatedRewards`: the account with the rewards up to `rewardsLevel` added to its balance;
`none` where the source panics because the balance overflows. -/
def withUpdatedRewards (rewardsLevel : ℕ) (u : AccountData) : Option AccountData :=
  if u.status = .notParticipating then some u
  else do
    let rewardsDelta ← oSub rewardsLevel u.rewardsBase
    let rewards ← oMul (rewardUnits proto u.microNovas) rewardsDelta
    let microNovas ← oAdd u.microNovas rewards
    return { u with
      microNovas := microNovas
      rewardsBase := rewardsLevel
      -- the total over the lifetime of the account may roll over
      rewardedMicroNovas := (u.rewardedMicroNovas + rewards) % 2 ^ 64 }

/-- `Money`: the balance with the pending rewards. -/
def money (rewardsLevel : ℕ) (u : AccountData) : Option MicroNovas :=
  (u.withUpdatedRewards proto rewardsLevel).map (·.microNovas)

variable (u : AccountData)

def minBalance : MicroNovas :=
  let min := proto.minBalance
  let min := addSaturate min (mulSaturate proto.minBalance u.assets.keys.length)
  let min := addSaturate min (mulSaturate proto.appFlatParamsMinBalance u.appParams.keys.length)
  let min := addSaturate min (mulSaturate proto.appFlatOptInMinBalance u.appLocalStates.keys.length)
  let min := addSaturate min (u.totalAppSchema.minBalance proto)
  addSaturate min (mulSaturate proto.appFlatParamsMinBalance u.totalExtraAppPages)

def clearOnlineState : AccountData :=
  { u with
    status := .offline
    voteFirstValid := 0
    voteLastValid := 0
    voteKeyDilution := 0
    voteID := 0
    selectionID := 0
    stateProofID := 0 }

def isZero : Bool := decide (u = {})

end AccountData

/-! ## Creatables -/

inductive CreatableType
  | asset
  | app
  deriving DecidableEq, Repr

structure ModifiedCreatable where
  ctype : CreatableType
  created : Bool
  creator : Address
  deriving DecidableEq

/-- Key/value storage: that of an application (`global`), or that of an account in it. -/
@[ext]
structure StoragePtr where
  addr : Address
  aidx : AppIndex
  global : Bool
  deriving DecidableEq, Repr

/-! ## Errors -/

abbrev Txid := Digest

/-- What ends a program. -/
inductive AvmFault
  | zeroAppID
  | budgetExceeded (cost : ℕ)
  | invalidIndex (i : ℕ)
  | notMutable (addr : Address)
  | tooManyLogs
  | logsTooLarge (size : ℕ)
  | beginWithoutSubmit
  | clearStateInner
  | nextWithoutBegin
  | fieldWithoutBegin
  | submitWithoutBegin
  | tooManyInners (n : ℕ) (left : ℤ)
  | feeTooSmall (paid needed : MicroNovas)
  | unauthorized (aidx : AppIndex) (authorizer : Address)
  | innerAppVersion (version : ℕ)
  /-- Any other error of an instruction. -/
  | other (pc : ℕ)
  | outOfFuel
  deriving DecidableEq

/-- The errors of the evaluator, one constructor for each message. The last group are the panics of
the source. -/
inductive EvalError
  -- the cow state
  | noStorage (s : StoragePtr)
  | alreadyStorage (s : StoragePtr)
  | appNotInAccount (aidx : AppIndex) (creator : Address)
  | keyTooLong (length max : ℕ)
  | valueTooLong (key : Bytes) (length : ℕ)
  | keyValueTooLong (key : Bytes) (sum : ℕ)
  | uintCountExceedsSchema (count max : ℕ)
  | bytesCountExceedsSchema (count max : ℕ)
  | transactionInLedger (txid : Txid)
  | leaseInLedger (txid : Txid)
  | overspend (addr : Address) (amt : MicroNovas)
  | balanceOverflow (addr : Address) (amt : MicroNovas)
  | rewardsTrackingOverflow (addr : Address)
  | totalsOverflowed (round : Round)
  | sumOfMoneyChanged (prev now : MicroNovas)
  -- the transaction types
  | stillNotZero (balance : MicroNovas)
  | outstandingAssets (n : ℕ)
  | outstandingCreatedAssets (n : ℕ)
  | outstandingOptIns (n : ℕ)
  | outstandingCreatedApps (n : ℕ)
  | keyregFeeSink (addr : Address)
  | keyregNonParticipating (addr : Address)
  | nonParticipationNotSupported
  | goingOnlineExpiredKey
  | goingOnlineFirstVotingInFuture
  | assetDoesNotExist (aidx : AssetIndex)
  | assetNotInAccount (aidx : AssetIndex) (creator : Address)
  | assetAlreadyExists (aidx : AssetIndex)
  | tooManyAssets (n max : ℕ)
  | notManager (sender manager : Address)
  | creatorHoldsOnly (amount total : ℕ)
  | assetMissing (aidx : AssetIndex) (addr : Address)
  | assetFrozen (aidx : AssetIndex) (addr : Address)
  | assetFrozenInRecipient
  | assetUnderflow (amount held : ℕ)
  | assetOverflow (amount held : ℕ)
  | clawbackNotAllowed (sender clawback : Address)
  | closeByClawback
  | closeInAllocatingAccount
  | assetNotPresent (aidx : AssetIndex) (addr : Address)
  | notZeroAfterClosing (aidx : AssetIndex) (amount : ℕ)
  | freezeNotAllowed (sender freeze : Address)
  | holdingNotFound
  | maxAppsCreated (addr : Address) (max : ℕ)
  | approvalProgramTooLong (max : ℕ)
  | clearStateProgramTooLong (max : ℕ)
  | programsTooLong (length max : ℕ)
  | alreadyOptedIn (addr : Address) (aidx : AppIndex)
  | maxAppsOptedIn (addr : Address) (max : ℕ)
  | notOptedIn (addr : Address) (aidx : AppIndex)
  | onlyClearing
  | programVersions
  | programCheck
  | cannotClear (addr : Address) (aidx : AppIndex)
  | rejectedByApprovalProgram
  | invalidApplicationAction
  | logicEval
  | clearStateBudget
  | avm (fault : AvmFault)
  | storageDeltaForOtherApp (found aidx : AppIndex)
  | moreThanOneGlobalDelta (aidx : AppIndex)
  | invalidAccountReference (addr : Address)
  | unknownTransactionType
  | txInAvm
  | applDepthExceeded
  | selfCall
  | reEnter (aidx : AppIndex)
  | appDoesNotExist (aidx : AppIndex)
  | holdingMissing (addr : Address) (aidx : AssetIndex)
  | certTypeNotSupported (certType : ℕ)
  | compactCertInvalid
  -- groups and blocks
  | groupTooLarge (size max : ℕ)
  | inconsistentGroup
  | zeroGroup (index size : ℕ)
  | incompleteGroup
  | noSpace
  | txnDead (round firstValid lastValid : Round)
  | genesisIDMismatch
  | genesisHashMismatch
  | genesisHashMissing
  | wrongAuthorizer (expected actual : Address)
  | applyDataMismatch (txid : Txid)
  | applyDataNotSupported (txid : Txid)
  | belowMinBalance (addr : Address) (balance min : MicroNovas)
  | tooMuchSpace (addr : Address) (min max : MicroNovas)
  | roundZero
  | noEntry (round : Round)
  | unknownProtocol
  | upgradeVote
  | preCheck
  | nonSequential (evaluator latest : Round)
  | badRewardsState
  | wrongGenesisHash
  | rewardsLevelDecreased (round : Round)
  | rewardUnitOverflow (round : Round)
  | rewardsOverspent (round : Round)
  | tooManyExpired (n max : ℕ)
  | duplicateExpired (addr : Address)
  | expiredNotOnline (addr : Address)
  | expiredNotPast (addr : Address)
  | wrongTxnRoot
  | wrongTxnCount
  | wrongCompactCertVoters
  | wrongCompactCertNextRound
  | generateIsFalsePanic
  | alreadyGenerated
  | genesisFieldNotEmpty
  | hasGenesisHashSet
  | verificationFailed
  -- panics
  | rewardsOverflowPanic
  | totalsOverflowPanic
  | divideByZeroPanic
  | deallocPanic
  | storageDeltaPanic
  deriving DecidableEq

end Novarand.Ledger
