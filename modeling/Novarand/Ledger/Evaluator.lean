import Novarand.Ledger.Blocks
import Novarand.Ledger.Totals

/-!
# The block evaluator

`BlockEvaluator` of `ledger/internal`: started on the header of a block, it applies transaction groups
one after the other, each in a child state that is committed if the whole group is accepted, and ends
the block. A generating evaluator fills in the header; a validating one checks it. `Eval` evaluates a
given block, `GenerateBlock` returns the block that was built.
-/

namespace Novarand.Ledger

open Apply

/-! ## The ledger below the block -/

/-- `LedgerForEvaluator`: the state after the latest block, and the headers. -/
structure LedgerForEvaluator where
  accounts : Dict Address AccountData := ∅
  creators : Dict CreatableIndex (CreatableType × Address) := ∅
  checkDup : Round → Round → Txid → Txlease → Except EvalError Unit := fun _ _ _ _ => .ok ()
  blockHdr : Round → Except EvalError BlockHeader
  latestTotals : Round × AccountTotals
  genesisHash : Digest := 0
  /-- The root and the weight of the voters of a round, where they are tracked. -/
  compactCertVoters : Round → Except EvalError (Option (Digest × MicroNovas)) := fun _ => .ok none

/-- The base of the state of the block after `prevHeader`. -/
def LedgerForEvaluator.base (l : LedgerForEvaluator) (prevHeader : BlockHeader) : RoundCowBase where
  txnCount := prevHeader.txnCounter
  accounts := l.accounts
  creators := l.creators
  checkDup := l.checkDup

/-! ## State deltas -/

structure StateDelta where
  accts : Dict Address AccountData
  hdr : BlockHeader
  txids : Dict Txid Round
  txleases : Dict Txlease Round
  creatables : Dict CreatableIndex ModifiedCreatable
  modifiedAssetHoldings : Dict (Address × AssetIndex) Bool
  modifiedAppLocalStates : Dict (Address × AppIndex) Bool
  compactCertNext : Round
  prevTimestamp : ℤ
  totals : AccountTotals

/-- The values of a storage with the changes of a delta. -/
def StorageDelta.applyTo (store : StorageDelta) (kv : TealKeyValue) : TealKeyValue :=
  -- storage that was allocated in the block starts empty once a key is written
  let kv := if store.action = .alloc ∧ store.kvCow.keys ≠ [] then ∅ else kv
  store.kvCow.entries.foldl (fun kv e =>
    match e.2.new with
    | none => kv.erase e.1
    | some v => Dict.upsert kv e.1 v) kv

/-- `applyStorageDelta`: the account with the storage as the delta left it. -/
def applyStorageDelta (data : AccountData) (s : StoragePtr) (store : StorageDelta) :
    Except EvalError AccountData :=
  match s.global, store.action with
  | true, .dealloc => pure { data with appParams := data.appParams.erase s.aidx }
  | true, _ => do
    let params ← orThrow .storageDeltaPanic (data.appParams.lookup s.aidx)
    let params := { params with globalState := store.applyTo params.globalState }
    return { data with appParams := data.appParams.upsert s.aidx params }
  | false, .dealloc => pure { data with appLocalStates := data.appLocalStates.erase s.aidx }
  | false, _ => do
    let states ← orThrow .storageDeltaPanic (data.appLocalStates.lookup s.aidx)
    let states := { states with keyValue := store.applyTo states.keyValue }
    return { data with appLocalStates := data.appLocalStates.upsert s.aidx states }

namespace Cow

/-- The loop of `deltas` over the storage deltas, on a layer over `p` with the accounts `accts`. -/
def storedAccounts (p : Cow) : List (Σ _ : StoragePtr, StorageDelta) → Dict Address AccountData →
    Except EvalError (Dict Address AccountData)
  | [], accts => pure accts
  | ⟨s, store⟩ :: rest, accts => do
    let delta := accts.getD s.addr (p.lookup s.addr)
    let delta ← applyStorageDelta delta s store
    storedAccounts p rest (accts.upsert s.addr delta)

/-- The accounts of `deltas`, with the storage deltas taken in the order `order`. -/
def deltaAccounts (order : List (Σ _ : StoragePtr, StorageDelta)) :
    Cow → Except EvalError (Dict Address AccountData)
  | .base _ => pure ∅
  | .layer p l => storedAccounts p order l.accts

/-- The modifications of the top layer. -/
def top : Cow → Layer
  | .base _ => {}
  | .layer _ l => l

end Cow

/-! ## The evaluator -/

structure BlockEvaluator where
  state : Cow
  /-- `mods.CompactCertNext` of the state, 0 when it is not set. -/
  certNext : Round := 0
  /-- `compactCertNext` of the state below. -/
  baseCertNext : Round := 0
  validate : Bool
  generate : Bool
  prevHeader : BlockHeader
  ctx : BlockContext
  block : Block
  blockTxBytes : ℕ := 0
  /-- The header the state was made with. -/
  stateHdr : BlockHeader
  prevTotals : AccountTotals
  totals : AccountTotals := {}
  blockGenerated : Bool := false
  l : LedgerForEvaluator
  maxTxnBytesPerBlock : ℕ
  rewardAddresses : List Address := []

namespace BlockEvaluator

variable {P : Type} (env : Environment P)

/-! ### Transactions -/

section Transactions

variable (ev : BlockEvaluator)

def compactCertNext (certNext : Round) : Round :=
  if certNext ≠ 0 then certNext else ev.baseCertNext

/-- `compactCert`: the round of the next certificate after the one of the transaction. -/
def compactCert (tx : Transaction) (certNext : Round) : Except EvalError Round := do
  failIf (tx.certType ≠ 0) (.certTypeNotSupported tx.certType)
  let nextCertRnd := ev.compactCertNext certNext
  let certHdr ← ev.l.blockHdr tx.certRound
  let proto := (env.consensus certHdr.currentProtocol).getD {}
  let votersRnd := tx.certRound - proto.compactCertRounds
  if ev.validate then
    let votersHdr ← ev.l.blockHdr votersRnd
    env.validateCompactCert certHdr tx.cert votersHdr nextCertRnd tx.firstValid
    return tx.certRound + proto.compactCertRounds
  else
    return tx.certRound + proto.compactCertRounds

/-- The loop that pays `reward` to every address. -/
def payRewards (x : BlockContext) (sender : Address) (reward : MicroNovas) :
    List Address → ApplyData → Cow → Except EvalError (ApplyData × Cow)
  | [], ad, c => pure (ad, c)
  | rewardAdd :: rest, ad, c => do
    let (senderRewards, receiverRewards, c) ←
      c.move x sender rewardAdd reward ad.senderRewards ad.receiverRewards
    payRewards x sender reward rest { ad with senderRewards, receiverRewards } c

/-- The fee of an outer transaction: split over the reward addresses, or to the fee sink when there
are none. -/
def payFee (tx : Transaction) (c : Cow) : Except EvalError (ApplyData × Cow) :=
  let certVoters := ev.rewardAddresses.length
  if certVoters ≠ 0 then payRewards ev.ctx tx.sender (tx.fee / certVoters) ev.rewardAddresses {} c
  else do
    let (senderRewards, _, c) ← c.move ev.ctx tx.sender ev.ctx.feeSink tx.fee 0 0
    return ({ senderRewards }, c)

/-- The switch over the transaction types. Compact certificates count only in validated or generated
blocks. -/
def applyType (gi : ℕ) (tx : Transaction) (ctr : ℕ) (ad : ApplyData) (ep : P) (certNext : Round)
    (c : Cow) : Except EvalError (ApplyData × P × Round × Cow) :=
  match tx.type with
  | .payment => do
    let (ad, c) ← payment ev.ctx tx ad c
    return (ad, ep, certNext, c)
  | .keyRegistration => do return (ad, ep, certNext, ← keyreg ev.ctx tx c)
  | .assetConfig => do
    let (ad, c) ← assetConfig ev.ctx tx ad ctr c
    return (ad, ep, certNext, c)
  | .assetTransfer => do
    let (ad, c) ← assetTransfer ev.ctx tx ad c
    return (ad, ep, certNext, c)
  | .assetFreeze => do return (ad, ep, certNext, ← assetFreeze tx c)
  | .applicationCall =>
    match outerCall env.avm ev.ctx gi tx ad ep ctr c with
    | (ep, .ok (ad, c)) => pure (ad, ep, certNext, c)
    | (_, .error e) => throw e
  | .addressPrint => pure (ad, ep, certNext, addressPrint c)
  | .compactCert =>
    if ev.validate || ev.generate then do return (ad, ep, ← ev.compactCert env tx certNext, c)
    else pure (ad, ep, certNext, c)
  | .unknown _ _ => throw .unknownTransactionType

/-- The apply data as the protocol stores it. -/
def storedAD (proto : ConsensusParams) (ad : ApplyData) : ApplyData :=
  let ad := if proto.rewardsInApplyData then ad
    else { ad with senderRewards := 0, receiverRewards := 0, closeRewards := 0 }
  if proto.maxInnerTransactions = 0 then { ad with applicationID := 0, configAsset := 0 } else ad

def applyTransaction (gi : ℕ) (tx : Transaction) (ctr : ℕ) (ep : P) (certNext : Round) (c : Cow) :
    Except EvalError (ApplyData × P × Round × Cow) := do
  let (ad, c) ← ev.payFee tx c
  let (ad, ep, certNext, c) ← ev.applyType env gi tx ctr ad ep certNext (rekey tx c)
  return (storedAD ev.ctx.proto ad, env.avm.recordAD ep gi ad, certNext, c)

/-- `checkMinBalance` for one account. -/
def checkAccount (c : Cow) (addr : Address) : Except EvalError Unit :=
  let data := c.lookup addr
  if addr = ev.block.feeSink ∨ addr = ev.block.rewardsPool ∨ addr = env.compactCertSender ∨
      data.isZero then pure ()
  else do
    let dataNew ← orThrow .rewardsOverflowPanic
      (data.withUpdatedRewards ev.ctx.proto ev.ctx.rewardsLevel)
    let effectiveMinBalance := dataNew.minBalance ev.ctx.proto
    failIf (dataNew.microNovas < effectiveMinBalance)
      (.belowMinBalance addr dataNew.microNovas effectiveMinBalance)
    failIf (ev.ctx.proto.maximumMinimumBalance ≠ 0 ∧
      ev.ctx.proto.maximumMinimumBalance < effectiveMinBalance)
      (.tooMuchSpace addr effectiveMinBalance ev.ctx.proto.maximumMinimumBalance)

def checkMinBalance (c : Cow) : Except EvalError Unit :=
  c.modifiedAccounts.forM (ev.checkAccount env c)

/-- The checks of `transaction` before a transaction is applied. -/
def checkTransaction (txn : SignedTxn) (txid : Txid) (c : Cow) : Except EvalError Unit := do
  let tx := txn.txn
  -- the block's own protocol, not the evaluator's
  tx.toHeader.alive ((env.consensus ev.block.currentProtocol).getD {}) ev.block.round
    ev.block.genesisID ev.block.genesisHash
  c.checkDup ev.ctx tx.firstValid tx.lastValid txid { sender := tx.sender, lease := tx.lease }
  let acctdata := c.lookup tx.sender
  let correctAuthorizer := if acctdata.authAddr = 0 then tx.sender else acctdata.authAddr
  failIf (txn.authorizer ≠ correctAuthorizer) (.wrongAuthorizer correctAuthorizer txn.authorizer)

/-- The check of the apply data in a block that is validated. -/
def checkApplyData (txid : Txid) (ad applyData : ApplyData) : Except EvalError Unit :=
  if ev.ctx.proto.applyData then failIf (ad ≠ applyData) (.applyDataMismatch txid)
  else failIf (ad ≠ {}) (.applyDataNotSupported txid)

/-- Run a check only if it applies. -/
def checkWhen (b : Bool) (check : Except EvalError Unit) : Except EvalError Unit :=
  if b then check else pure ()

def transaction (gi : ℕ) (txn : SignedTxn) (ad : ApplyData) (ep : P) (certNext : Round) (c : Cow) :
    Except EvalError (SignedTxnInBlock × P × Round × Cow) := do
  let txid := env.txid txn.txn
  checkWhen ev.validate (ev.checkTransaction env txn txid c)
  let (applyData, ep, certNext, c) ← ev.applyTransaction env gi txn.txn c.txnCounter ep certNext c
  checkWhen (ev.validate && !ev.generate) (ev.checkApplyData txid ad applyData)
  let txib ← ev.block.toBlockHeader.encodeSignedTxn env txn applyData
  checkWhen (ev.validate || ev.generate) (ev.checkMinBalance env c)
  return (txib, ep, certNext,
    c.addTx txid txn.txn.lastValid { sender := txn.txn.sender, lease := txn.txn.lease })

/-! ### Groups -/

/-- What the transactions of a group leave for the next ones. -/
structure GroupState (P : Type) where
  cow : Cow
  certNext : Round
  ep : P
  txibs : List SignedTxnInBlock := []
  groupTxBytes : ℕ := 0
  txGroupHashes : List Digest := []

/-- The checks after a transaction of a group of `size`, whose first one has the group value `group`:
the hashes of the group so far. -/
def checkGroup (gi size : ℕ) (group : Digest) (tx : Transaction) (txGroupHashes : List Digest) :
    Except EvalError (List Digest) := do
  failIf (tx.group ≠ group) .inconsistentGroup
  if tx.group ≠ 0 then return txGroupHashes ++ [env.txid { tx with group := 0 }]
  else
    failIf (1 < size) (.zeroGroup gi size)
    return txGroupHashes

def groupLoop (size : ℕ) (group : Digest) : ℕ → List SignedTxnWithAD → GroupState P →
    Except EvalError (GroupState P)
  | _, [], g => pure g
  | gi, txad :: rest, g => do
    let (txib, ep, certNext, cow) ←
      ev.transaction env gi txad.signedTxn txad.applyData g.ep g.certNext g.cow
    let groupTxBytes := if ev.validate then g.groupTxBytes + env.encodedLength txib else g.groupTxBytes
    checkWhen ev.validate (failIf (ev.maxTxnBytesPerBlock < ev.blockTxBytes + groupTxBytes) .noSpace)
    let txGroupHashes ← checkGroup env gi size group txad.signedTxn.txn g.txGroupHashes
    groupLoop size group (gi + 1) rest
      { cow, certNext, ep, txibs := g.txibs ++ [txib], groupTxBytes, txGroupHashes }

/-- `transactionGroup`: the evaluator with the group in its block. -/
def transactionGroup (txgroup : List SignedTxnWithAD) : Except EvalError BlockEvaluator :=
  match txgroup with
  | [] => pure ev
  | first :: others => do
    let group := first.signedTxn.txn.group
    let size := (first :: others).length
    failIf (ev.ctx.proto.maxTxGroupSize < size) (.groupTooLarge size ev.ctx.proto.maxTxGroupSize)
    let ep := env.avm.newEvalParams ((first :: others).map (·.signedTxn)) ev.ctx.proto
      { feeSink := ev.ctx.feeSink, rewardsPool := ev.ctx.rewardsPool }
    let g ← ev.groupLoop env size group 0 (first :: others)
      { cow := ev.state.child, certNext := ev.certNext, ep }
    failIf (g.txGroupHashes ≠ [] ∧ group ≠ env.groupHash g.txGroupHashes) .incompleteGroup
    let state ← g.cow.commitToParent
    return { ev with
      block := { ev.block with payset := ev.block.payset ++ g.txibs }
      blockTxBytes := ev.blockTxBytes + g.groupTxBytes
      state
      certNext := g.certNext }

end Transactions

/-! ### The end of a block -/

section EndOfBlock

variable (ev : BlockEvaluator)

def paysetCommit : Except EvalError Digest := do
  let params ← orThrow .unknownProtocol (env.consensus ev.block.currentProtocol)
  env.paysetCommit params ev.block.payset

/-- The value `TxnCounter` has after the block. -/
def txnCounter : ℕ := if ev.ctx.proto.txnCounter then ev.state.txnCounter else 0

def compactCertVotersAndTotal : Except EvalError (Digest × MicroNovas) :=
  let proto := ev.ctx.proto
  if proto.compactCertRounds = 0 then pure (0, 0)
  else if ev.block.round % proto.compactCertRounds ≠ 0 then pure (0, 0)
  else do
    let voters ← ev.l.compactCertVoters (ev.block.round - proto.compactCertVotersLookback)
    return voters.getD (0, 0)

/-- The account is online with keys that are no longer valid. -/
def isExpired (addr : Address) : Bool :=
  (ev.state.lookup addr).status = .online && (ev.state.lookup addr).voteLastValid < ev.block.round

/-- `generateExpiredOnlineAccountsList`. -/
def generateExpired : List Address :=
  ev.state.modifiedAccounts.foldl (fun expired addr =>
    if expired.length < ev.ctx.proto.maxProposedExpiredOnlineAccounts ∧ ev.isExpired addr then
      expired ++ [addr]
    else expired) ev.block.expiredParticipationAccounts

/-- The header fields a generating evaluator fills in. -/
def generateHeader : Except EvalError BlockEvaluator :=
  if ev.generate then do
    let txnRoot ← ev.paysetCommit env
    let (voters, votersTotal) ← ev.compactCertVotersAndTotal
    let compactCert := if 0 < ev.ctx.proto.compactCertRounds then
        Dict.upsert ∅ 0 { voters, votersTotal, nextRound := ev.compactCertNext ev.certNext }
      else ev.block.compactCert
    return { ev with block := { ev.block with
      txnRoot
      txnCounter := ev.txnCounter
      expiredParticipationAccounts := ev.generateExpired
      compactCert } }
  else pure ev

/-- The loop of `validateExpiredOnlineAccounts`, after the addresses `seen`. -/
def checkExpired : List Address → List Address → Except EvalError Unit
  | [], _ => pure ()
  | addr :: rest, seen => do
    failIf (addr ∈ seen) (.duplicateExpired addr)
    failIf ((ev.state.lookup addr).status ≠ .online) (.expiredNotOnline addr)
    failIf (ev.block.round ≤ (ev.state.lookup addr).voteLastValid) (.expiredNotPast addr)
    checkExpired rest (addr :: seen)

def checkExpiredLength : Except EvalError Unit :=
  failIf (ev.ctx.proto.maxProposedExpiredOnlineAccounts <
      ev.block.expiredParticipationAccounts.length)
    (.tooManyExpired ev.block.expiredParticipationAccounts.length
      ev.ctx.proto.maxProposedExpiredOnlineAccounts)

/-- `validateExpiredOnlineAccounts`. -/
def validateExpired : Except EvalError Unit :=
  if ev.validate then do
    ev.checkExpiredLength
    ev.checkExpired ev.block.expiredParticipationAccounts []
  else pure ()

/-- The state after the accounts were taken offline. -/
def resetAccounts (addrs : List Address) (c : Cow) : Cow :=
  addrs.foldl (fun c addr => c.put addr (c.lookup addr).clearOnlineState) c

/-- `resetExpiredOnlineAccountsParticipationKeys`. -/
def resetExpired : Except EvalError BlockEvaluator := do
  ev.checkExpiredLength
  return { ev with state := resetAccounts ev.block.expiredParticipationAccounts ev.state }

/-- The checks of the header after the transactions. -/
def checkCommitments : Except EvalError Unit := do
  let txnRoot ← ev.paysetCommit env
  failIf (txnRoot ≠ ev.block.txnRoot) .wrongTxnRoot
  failIf (ev.block.txnCounter ≠ ev.txnCounter) .wrongTxnCount
  let (voters, votersTotal) ← ev.compactCertVotersAndTotal
  failIf (ev.block.basicCompactCert.voters ≠ voters) .wrongCompactCertVoters
  failIf (ev.block.basicCompactCert.votersTotal ≠ votersTotal) .wrongCompactCertVoters
  failIf (ev.block.basicCompactCert.nextRound ≠ ev.compactCertNext ev.certNext)
    .wrongCompactCertNextRound
  failIf (∃ ccType ∈ ev.block.compactCert.keys, ccType ≠ 0) .wrongCompactCertVoters

def endOfBlock : Except EvalError BlockEvaluator := do
  let ev ← ev.generateHeader env
  ev.validateExpired
  let ev ← ev.resetExpired
  checkWhen ev.validate (ev.checkCommitments env)
  let totals ← ev.state.calculateTotals ev.ctx ev.prevTotals
  return { ev with totals }

def deltas : Except EvalError StateDelta := do
  let top := ev.state.top
  let accts ← ev.state.deltaAccounts top.sdeltas.entries
  return {
    accts
    hdr := ev.stateHdr
    txids := top.txids
    txleases := top.txleases
    creatables := top.creatables
    modifiedAssetHoldings := top.modifiedAssetHoldings
    modifiedAppLocalStates := top.modifiedAppLocalStates
    compactCertNext := ev.certNext
    prevTimestamp := ev.ctx.prevTimestamp
    totals := ev.totals }

end EndOfBlock

/-! ### The start of a block -/

/-- The least multiple of `n` from `r` on. -/
def roundUpToMultipleOf (r n : ℕ) : ℕ := (r + n - 1) / n * n

/-- The round of the next compact certificate before the block. -/
def firstCertNext (proto : ConsensusParams) (prevHeader : BlockHeader) (round : Round) : Round :=
  let next := prevHeader.basicCompactCert.nextRound
  if next = 0 ∧ proto.compactCertRounds ≠ 0 then
    roundUpToMultipleOf (round + proto.compactCertVotersLookback) proto.compactCertRounds +
      proto.compactCertRounds
  else next

/-- `workaroundOverspentRewards`: the bank of the testnet fills up the pool in two rounds. -/
def workaroundOverspentRewards (x : BlockContext) (genesisHash : Digest) (pool : Address)
    (poolOld : AccountData) (c : Cow) : Except EvalError (AccountData × Cow) :=
  if (x.round = 1499995 ∨ x.round = 2926564) ∧ genesisHash = env.testnetGenesisHash then do
    let (_, _, c) ← c.move x env.testnetBank pool 20000000000 0 0
    let poolOld ← c.getWithRewards x pool
    return (poolOld, c)
  else pure (poolOld, c)

/-- The withdrawal of the rewards of the block from the pool. -/
def withdraw (x : BlockContext) (genesisHash : Digest) (prevHeader : BlockHeader) (units : ℕ)
    (c : Cow) : Except EvalError Cow := do
  failIf (x.rewardsLevel < prevHeader.rewardsLevel) (.rewardsLevelDecreased x.round)
  let pool := prevHeader.rewardsPool
  let poolOld ← c.getWithRewards x pool
  let (poolOld, c) ← workaroundOverspentRewards env x genesisHash pool poolOld c
  let poolNew ← withdrawRewards x.proto x.round prevHeader.rewardsLevel x.rewardsLevel units poolOld
  return c.put pool poolNew

/-- The header of the block: a generating evaluator sets the genesis hash and the rewards state. -/
def startHeader (generate : Bool) (proto : ConsensusParams) (genesisHash : Digest)
    (nextRewards : Except EvalError RewardsState) (hdr : BlockHeader) :
    Except EvalError BlockHeader :=
  if generate then do
    let nextRewards ← nextRewards
    return { hdr with
      genesisHash := if proto.supportGenesisHash then genesisHash else hdr.genesisHash
      toRewardsState := nextRewards }
  else pure hdr

/-- The checks of a header that is validated. -/
def checkHeader (proto : ConsensusParams) (prevHeader : BlockHeader) (genesisHash : Digest)
    (nextRewards : Except EvalError RewardsState) (hdr : BlockHeader) : Except EvalError Unit := do
  hdr.preCheck env prevHeader
  let expectedRewardsState ← nextRewards
  failIf (hdr.toRewardsState ≠ expectedRewardsState) .badRewardsState
  failIf (proto.supportGenesisHash ∧ hdr.genesisHash ≠ genesisHash) .wrongGenesisHash

/-- The limit on the bytes of a block: the given one, if it is positive and below the protocol's. -/
def blockBytes (proto : ConsensusParams) (maxTxnBytesPerBlock : ℤ) : ℕ :=
  if maxTxnBytesPerBlock ≤ 0 ∨ (proto.maxTxnBytesPerBlock : ℤ) < maxTxnBytesPerBlock then
    proto.maxTxnBytesPerBlock
  else maxTxnBytesPerBlock.toNat

variable (l : LedgerForEvaluator)

def startEvaluator (hdr : BlockHeader) (validate generate : Bool)
    (maxTxnBytesPerBlock : ℤ) : Except EvalError BlockEvaluator := do
  let proto ← orThrow .unknownProtocol (env.consensus hdr.currentProtocol)
  failIf (hdr.round = 0) .roundZero
  let prevHeader ← l.blockHdr (hdr.round - 1)
  let prevProto ← orThrow .unknownProtocol (env.consensus prevHeader.currentProtocol)
  let (latestRound, prevTotals) := l.latestTotals
  failIf (latestRound ≠ prevHeader.round) (.nonSequential hdr.round latestRound)
  let incentivePoolData ← orThrow .rewardsOverflowPanic
    ((l.accounts.getD prevHeader.rewardsPool {}).withUpdatedRewards prevProto prevHeader.rewardsLevel)
  let units ← orThrow .totalsOverflowPanic prevTotals.totalRewardUnits
  let nextRewards := prevHeader.toRewardsState.nextRewardsState proto hdr.round
    incentivePoolData.microNovas units
  let blockHdr ← startHeader generate proto l.genesisHash nextRewards hdr
  checkWhen validate (checkHeader env proto prevHeader l.genesisHash nextRewards blockHdr)
  let ctx : BlockContext := {
    proto
    round := blockHdr.round
    rewardsLevel := blockHdr.rewardsLevel
    prevTimestamp := prevHeader.timeStamp
    feeSink := hdr.feeSink
    rewardsPool := hdr.rewardsPool }
  let base := l.base prevHeader
  let state ← withdraw env ctx l.genesisHash prevHeader units (.layer (.base base) {})
  return {
    state
    baseCertNext := firstCertNext proto prevHeader hdr.round
    validate
    generate
    prevHeader
    ctx
    block := { toBlockHeader := blockHdr }
    stateHdr := blockHdr
    prevTotals
    l
    maxTxnBytesPerBlock := blockBytes proto maxTxnBytesPerBlock }

/-- The groups of a block, one after the other. -/
def evalGroups : List (List SignedTxnWithAD) → BlockEvaluator → Except EvalError BlockEvaluator
  | [], ev => pure ev
  | group :: rest, ev => do evalGroups rest (← ev.transactionGroup env group)

/-- The evaluator after the groups were offered to it in turn: a group that it rejects is dropped. -/
def offerGroups : List (List SignedTxnWithAD) → BlockEvaluator → BlockEvaluator
  | [], ev => ev
  | group :: rest, ev =>
    match ev.transactionGroup env group with
    | .ok ev' => offerGroups rest ev'
    | .error _ => offerGroups rest ev

end BlockEvaluator

/-! ## A small ledger

Blocks of this ledger are evaluated where a statement is tried on a concrete run. -/

namespace Sample

/-- Programs are told apart by their text: `[1]` writes a global value, `[2]` creates an asset, and
every other program just passes. -/
def avm : Avm Unit where
  newEvalParams _ _ _ := ()
  recordAD _ _ _ := ()
  recordInner _ _ _ := ()
  setAD _ _ _ := ()
  checkContractVersions _ _ _ := pure ()
  checkContract _ _ := pure ()
  evalContract program _ _ _ _ :=
    if program = [1] then .write (.setGlobal [0] (.uint 7)) (fun _ => ()) (.ret (.ok true) ())
    else if program = [2] then
      .submit [{ type := .assetConfig, sender := 1, assetParams := { total := 5 } }] ()
        (fun _ _ => ()) fun _ => .ret (.ok true) ()
    else .ret (.ok true) ()
  checked program gi aidx callers ep x c := by
    split_ifs
    · exact fun _ _ => trivial
    · exact ⟨by simp [checkReentrancy, pure, Except.pure], fun _ _ _ => trivial⟩
    · trivial
  evalDelta _ _ := []
  encodeDelta _ _ _ _ := []

/-- Transactions are told apart by their notes. -/
def env : Environment Unit where
  consensus v := if v = 31 then some {} else none
  versionLength _ := 1
  txid tx := tx.note.foldl (fun n b => 256 * n + b.toNat + 1) 0
  groupHash _ := 9
  headerHash _ := 0
  paysetCommit _ payset := pure payset.length
  encodedLength _ := 100
  validateCompactCert _ _ _ _ _ := pure ()
  verifyGroups _ _ := pure ()
  compactCertSender := 99
  testnetGenesisHash := 77
  testnetBank := 98
  avm := avm

def prevHeader : BlockHeader where
  round := 1
  currentProtocol := 31
  feeSink := 3
  rewardsPool := 2
  rewardsRate := 30
  rewardsRecalculationRound := 100
  genesisID := [1]
  genesisHash := 5
  txnCounter := 10

/-- The sender 1, the rewards pool, the fee sink, and the account 4. -/
def ledger : LedgerForEvaluator where
  accounts := (((Dict.upsert ∅ 1 { microNovas := 9000000 }).upsert 2
    { status := .notParticipating, microNovas := 5000000 }).upsert 3
    { microNovas := 1000000 }).upsert 4 { microNovas := 1000000 }
  blockHdr r := if r = 1 then .ok prevHeader else .error (.noEntry r)
  latestTotals := (1, {
    offline := { money := 11000000, rewardUnits := 11 }
    notParticipating := { money := 5000000, rewardUnits := 5 } })
  genesisHash := 5

/-- The header of a block to be generated. -/
def header : BlockHeader where
  round := 2
  currentProtocol := 31
  feeSink := 3
  rewardsPool := 2
  genesisID := [1]
  genesisHash := 5

/-- A transaction of the sender 1. -/
def signed (note : UInt8) (tx : Transaction) : SignedTxnWithAD where
  signedTxn := { txn := { tx with
    sender := 1
    fee := 1000
    firstValid := 1
    lastValid := 100
    genesisHash := 5
    note := [note] } }

open BlockEvaluator

/-- The evaluator at the start and at the end of a block with the given groups. -/
def block (rewardAddresses : List Address) (groups : List (List SignedTxnWithAD))
    (l : LedgerForEvaluator := ledger) : Except EvalError (BlockEvaluator × BlockEvaluator) := do
  let ev₀ ← startEvaluator env l header true true 0
  let ev ← (offerGroups env groups { ev₀ with rewardAddresses }).endOfBlock env
  return (ev₀, ev)

theorem block_ok {rewardAddresses : List Address} {groups : List (List SignedTxnWithAD)}
    {l : LedgerForEvaluator} {ev₀ ev : BlockEvaluator}
    (h : block rewardAddresses groups l = .ok (ev₀, ev)) :
    startEvaluator env l header true true 0 = .ok ev₀ ∧
      (offerGroups env groups { ev₀ with rewardAddresses }).endOfBlock env = .ok ev := by
  simp only [block, bind_ok, pure_pair] at h
  obtain ⟨_, hs, _, he, rfl, rfl⟩ := h
  exact ⟨hs, he⟩

end Sample

end Novarand.Ledger
