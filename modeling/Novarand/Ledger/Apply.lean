import Novarand.Ledger.Transactions

/-!
# Applying transactions: payments, keys and assets

The functions of `ledger/apply` for every transaction type but the application call, with `Move`, by
which all amounts change hands. Each takes the state and returns the changed one, or its error.
-/

namespace Novarand.Ledger

namespace Cow

variable (x : BlockContext)

/-- `Get` with pending rewards. -/
def getWithRewards (addr : Address) (c : Cow) : Except EvalError AccountData :=
  orThrow .rewardsOverflowPanic ((c.lookup addr).withUpdatedRewards x.proto x.rewardsLevel)

/-- The rewards an account claimed so far and those it claims now. -/
def trackRewards (addr : Address) (rewards : MicroNovas) (old new : AccountData) :
    Except EvalError MicroNovas :=
  orThrow (.rewardsTrackingOverflow addr) do oAdd rewards (← oSub new.microNovas old.microNovas)

/-- `Move`: amounts are taken and given on top of the claimed rewards, which are added to the two
counters. A counter that the source does not pass is 0 here. -/
def move (src dst : Address) (amt srcRewards dstRewards : MicroNovas) (c : Cow) :
    Except EvalError (MicroNovas × MicroNovas × Cow) := do
  let srcBal := c.lookup src
  let srcBalNew ← c.getWithRewards x src
  let srcRewards ← trackRewards src srcRewards srcBal srcBalNew
  let left ← orThrow (.overspend src amt) (oSub srcBalNew.microNovas amt)
  let c := c.put src { srcBalNew with microNovas := left }
  let dstBal := c.lookup dst
  let dstBalNew ← c.getWithRewards x dst
  let dstRewards ← trackRewards dst dstRewards dstBal dstBalNew
  let sum ← orThrow (.balanceOverflow dst amt) (oAdd dstBalNew.microNovas amt)
  return (srcRewards, dstRewards, c.put dst { dstBalNew with microNovas := sum })

end Cow

namespace Apply

variable (x : BlockContext)

variable (tx : Transaction)

/-- `Rekey`: rekeying to the sender itself clears the authorizer. -/
def rekey (c : Cow) : Cow :=
  if tx.rekeyTo = 0 then c
  else c.put tx.sender { c.lookup tx.sender with
    authAddr := if tx.rekeyTo = tx.sender then 0 else tx.rekeyTo }

/-! ## Payments -/

variable (ad : ApplyData)

/-- The first part of `Payment`. -/
def pay (c : Cow) : Except EvalError (ApplyData × Cow) :=
  if tx.amount ≠ 0 ∨ tx.receiver ≠ 0 then do
    let (senderRewards, receiverRewards, c) ←
      c.move x tx.sender tx.receiver tx.amount ad.senderRewards ad.receiverRewards
    return ({ ad with senderRewards, receiverRewards }, c)
  else return (ad, c)

/-- The second part of `Payment`: the rest goes to `closeRemainderTo` and the account is cleared. -/
def closeAccount (c : Cow) : Except EvalError (ApplyData × Cow) :=
  if tx.closeRemainderTo ≠ 0 then do
    let rec ← c.getWithRewards x tx.sender
    let closeAmount := rec.microNovas
    let (senderRewards, closeRewards, c) ←
      c.move x tx.sender tx.closeRemainderTo closeAmount ad.senderRewards ad.closeRewards
    let rec ← c.getWithRewards x tx.sender
    failIf (rec.microNovas ≠ 0) (.stillNotZero rec.microNovas)
    failIf (rec.assets.keys ≠ []) (.outstandingAssets rec.assets.keys.length)
    failIf (rec.assetParams.keys ≠ []) (.outstandingCreatedAssets rec.assetParams.keys.length)
    failIf (rec.appLocalStates.keys ≠ []) (.outstandingOptIns rec.appLocalStates.keys.length)
    failIf (rec.appParams.keys ≠ []) (.outstandingCreatedApps rec.appParams.keys.length)
    return ({ ad with closingAmount := closeAmount, senderRewards, closeRewards },
      c.put tx.sender {})
  else return (ad, c)

def payment (c : Cow) : Except EvalError (ApplyData × Cow) := do
  let (ad, c) ← pay x tx ad c
  closeAccount x tx ad c

/-! ## Participation keys -/

/-- The account after the keys are registered. -/
def registered (record : AccountData) : Except EvalError AccountData :=
  let record := { record with voteID := tx.votePK, selectionID := tx.selectionPK }
  if tx.votePK = 0 ∨ tx.selectionPK = 0 then
    let record := { record with voteFirstValid := 0, voteLastValid := 0, voteKeyDilution := 0 }
    if tx.nonparticipation then do
      failIf (!x.proto.supportBecomeNonParticipatingTransactions) .nonParticipationNotSupported
      return { record with status := .notParticipating }
    else return { record with status := .offline }
  else do
    failIf (x.proto.enableKeyregCoherencyCheck ∧ tx.voteLast ≤ x.round) .goingOnlineExpiredKey
    failIf (x.proto.enableKeyregCoherencyCheck ∧ x.round + 1 < tx.voteFirst)
      .goingOnlineFirstVotingInFuture
    return { record with
      status := .online
      voteFirstValid := tx.voteFirst
      voteLastValid := tx.voteLast
      voteKeyDilution := tx.voteKeyDilution
      stateProofID :=
        if x.proto.enableStateProofKeyregCheck then tx.stateProofPK else record.stateProofID }

def keyreg (c : Cow) : Except EvalError Cow := do
  failIf (tx.sender = x.feeSink) (.keyregFeeSink tx.sender)
  let record := c.lookup tx.sender
  failIf (record.status = .notParticipating) (.keyregNonParticipating tx.sender)
  let record ← registered x tx record
  return c.put tx.sender record

/-! ## Assets -/

/-- `getParams`: the parameters of an asset and its creator. -/
def getParams (aidx : AssetIndex) (c : Cow) : Except EvalError (AssetParams × Address) := do
  let creator ← orThrow (.assetDoesNotExist aidx) (c.getCreator aidx .asset)
  let params ← orThrow (.assetNotInAccount aidx creator) ((c.lookup creator).assetParams.lookup aidx)
  return (params, creator)

/-- The first case of `AssetConfig`. -/
def createAsset (txnCounter : ℕ) (c : Cow) :
    Except EvalError (ApplyData × Cow) := do
  let record := c.lookup tx.sender
  let newidx := txnCounter + 1
  failIf ((record.assetParams.lookup newidx).isSome) (.assetAlreadyExists newidx)
  let record := { record with
    assetParams := record.assetParams.upsert newidx tx.assetParams
    assets := record.assets.upsert newidx { amount := tx.assetParams.total } }
  failIf (x.proto.maxAssetsPerAccount < record.assets.keys.length)
    (.tooManyAssets record.assets.keys.length x.proto.maxAssetsPerAccount)
  let c := c.put tx.sender record
  let c := c.allocateAsset tx.sender newidx true
  let c := c.allocateAsset tx.sender newidx false
  return ({ ad with configAsset := newidx }, c)

/-- The amount an account holds. -/
def holding (record : AccountData) (aidx : AssetIndex) : ℕ :=
  ((record.assets.lookup aidx).map (·.amount)).getD 0

/-- `AssetConfig` with zero parameters: the creator must hold the whole amount. -/
def destroyAsset (params : AssetParams) (creator : Address) (c : Cow) : Except EvalError Cow := do
  let record := c.lookup creator
  failIf (holding record tx.configAsset ≠ params.total)
    (.creatorHoldsOnly (holding record tx.configAsset) params.total)
  let c := c.deallocateAsset creator tx.configAsset true
  let c := c.deallocateAsset creator tx.configAsset false
  return c.put creator { record with
    assets := record.assets.erase tx.configAsset
    assetParams := record.assetParams.erase tx.configAsset }

/-- The parameters after a change of the keys: a key that is zero stays zero. -/
def reconfigured (params new : AssetParams) : AssetParams :=
  { params with
    manager := if params.manager = 0 then 0 else new.manager
    reserve := if params.reserve = 0 then 0 else new.reserve
    freeze := if params.freeze = 0 then 0 else new.freeze
    clawback := if params.clawback = 0 then 0 else new.clawback }

/-- The second case of `AssetConfig`: the manager destroys the asset or changes its keys. -/
def configureAsset (c : Cow) : Except EvalError Cow := do
  let (params, creator) ← getParams tx.configAsset c
  failIf (params.manager = 0 ∨ tx.sender ≠ params.manager) (.notManager tx.sender params.manager)
  if tx.assetParams = {} then destroyAsset tx params creator c
  else
    let record := c.lookup creator
    return c.put creator { record with
      assetParams := record.assetParams.upsert tx.configAsset (reconfigured params tx.assetParams) }

def assetConfig (txnCounter : ℕ) (c : Cow) : Except EvalError (ApplyData × Cow) :=
  if tx.configAsset = 0 then createAsset x tx ad txnCounter c
  else do return (ad, ← configureAsset tx c)

def takeOut (addr : Address) (asset : AssetIndex) (amount : ℕ) (bypassFreeze : Bool) (c : Cow) :
    Except EvalError Cow :=
  if amount = 0 then return c
  else do
    let snd := c.lookup addr
    let sndHolding ← orThrow (.assetMissing asset addr) (snd.assets.lookup asset)
    failIf (sndHolding.frozen ∧ !bypassFreeze) (.assetFrozen asset addr)
    let newAmount ← orThrow (.assetUnderflow amount sndHolding.amount) (oSub sndHolding.amount amount)
    return c.put addr { snd with
      assets := snd.assets.upsert asset { sndHolding with amount := newAmount } }

def putIn (addr : Address) (asset : AssetIndex) (amount : ℕ) (bypassFreeze : Bool) (c : Cow) :
    Except EvalError Cow :=
  if amount = 0 then return c
  else do
    let rcv := c.lookup addr
    let rcvHolding ← orThrow (.assetMissing asset addr) (rcv.assets.lookup asset)
    failIf (rcvHolding.frozen ∧ !bypassFreeze) .assetFrozenInRecipient
    let newAmount ← orThrow (.assetOverflow amount rcvHolding.amount) (oAdd rcvHolding.amount amount)
    return c.put addr { rcv with
      assets := rcv.assets.upsert asset { rcvHolding with amount := newAmount } }

/-- The source of a transfer: the sender, or the account an asset is clawed back from. -/
def transferSource (c : Cow) : Except EvalError (Address × Bool) :=
  if tx.assetSender = 0 then return (tx.sender, false)
  else do
    let (params, _) ← getParams tx.xferAsset c
    failIf (params.clawback = 0 ∨ tx.sender ≠ params.clawback)
      (.clawbackNotAllowed tx.sender params.clawback)
    return (tx.assetSender, true)

/-- A transfer of nothing to oneself allocates a slot for the asset. -/
def optInAsset (source : Address) (clawback : Bool) (c : Cow) : Except EvalError Cow :=
  let snd := c.lookup source
  if tx.assetAmount = 0 ∧ tx.assetReceiver = source ∧ !clawback ∧
      snd.assets.lookup tx.xferAsset = none then do
    let (params, _) ← getParams tx.xferAsset c
    let snd := { snd with
      assets := snd.assets.upsert tx.xferAsset { frozen := params.defaultFrozen } }
    failIf (x.proto.maxAssetsPerAccount < snd.assets.keys.length)
      (.tooManyAssets snd.assets.keys.length x.proto.maxAssetsPerAccount)
    return (c.put source snd).allocateAsset source tx.xferAsset false
  else return c

/-- The last part of `AssetTransfer`: the rest goes to `assetCloseTo` and the slot is deleted. -/
def closeOutAsset (source : Address) (clawback : Bool) (ad : ApplyData) (c : Cow) :
    Except EvalError (ApplyData × Cow) :=
  if tx.assetCloseTo = 0 then return (ad, c)
  else do
    failIf clawback .closeByClawback
    let snd := c.lookup source
    failIf ((snd.assetParams.lookup tx.xferAsset).isSome) .closeInAllocatingAccount
    let sndHolding ← orThrow (.assetNotPresent tx.xferAsset source) (snd.assets.lookup tx.xferAsset)
    -- closing out to the creator is allowed when frozen
    let bypassFreeze := ((c.lookup tx.assetCloseTo).assetParams.lookup tx.xferAsset).isSome
    let c ← takeOut source tx.xferAsset sndHolding.amount bypassFreeze c
    let c ← putIn tx.assetCloseTo tx.xferAsset sndHolding.amount bypassFreeze c
    let snd := c.lookup source
    failIf (holding snd tx.xferAsset ≠ 0) (.notZeroAfterClosing tx.xferAsset (holding snd tx.xferAsset))
    let c := c.put source { snd with assets := snd.assets.erase tx.xferAsset }
    return ({ ad with
      assetClosingAmount :=
        if x.proto.enableAssetCloseAmount then sndHolding.amount else ad.assetClosingAmount },
      c.deallocateAsset source tx.xferAsset false)

def assetTransfer (c : Cow) : Except EvalError (ApplyData × Cow) := do
  let (source, clawback) ← transferSource tx c
  let c ← optInAsset x tx source clawback c
  let c ← takeOut source tx.xferAsset tx.assetAmount clawback c
  let c ← putIn tx.assetReceiver tx.xferAsset tx.assetAmount clawback c
  closeOutAsset x tx source clawback ad c

def assetFreeze (c : Cow) : Except EvalError Cow := do
  let (params, _) ← getParams tx.freezeAsset c
  failIf (params.freeze = 0 ∨ tx.sender ≠ params.freeze) (.freezeNotAllowed tx.sender params.freeze)
  let record := c.lookup tx.freezeAccount
  let holding ← orThrow .holdingNotFound (record.assets.lookup tx.freezeAsset)
  return c.put tx.freezeAccount { record with
    assets := record.assets.upsert tx.freezeAsset { holding with frozen := tx.assetFrozen } }

/-- `AddressPrint` writes the two addresses to a log file and changes nothing. -/
def addressPrint (c : Cow) : Cow := c

end Apply

end Novarand.Ledger
