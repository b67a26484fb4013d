import Novarand.Ledger.Basics

/-!
# The copy-on-write state of a block

`roundCowState` and `roundCowBase`: the changes of a block under evaluation, in layers over the ledger
of the previous round. A `Cow` is a `roundCowParent`: the base, or a layer over its parent. A child
is an empty layer on top; committing merges the top layer into the one below, dropping forgets it.
The key/value storage of applications has deltas of its own (`sdeltas`), which carry the number of
values in use beside the changed keys.

Database errors of the base are not modelled. The account-index cache that only the blocks of
version 24 use is left out.
-/

namespace Novarand.Ledger

structure Txlease where
  sender : Address
  lease : Digest
  deriving DecidableEq

inductive StorageAction
  | remainAlloc
  | alloc
  | dealloc
  deriving DecidableEq

/-- A value before and after the block, where it exists. -/
structure ValueDelta where
  old : Option TealValue
  new : Option TealValue
  deriving DecidableEq

structure StorageDelta where
  action : StorageAction
  kvCow : Dict Bytes ValueDelta := ∅
  counts : StateSchema := {}
  maxCounts : StateSchema := {}
  deriving DecidableEq

/-- The modifications a `roundCowState` holds itself. -/
structure Layer where
  accts : Dict Address AccountData := ∅
  txids : Dict Txid Round := ∅
  txleases : Dict Txlease Round := ∅
  creatables : Dict CreatableIndex ModifiedCreatable := ∅
  modifiedAssetHoldings : Dict (Address × AssetIndex) Bool := ∅
  modifiedAppLocalStates : Dict (Address × AppIndex) Bool := ∅
  sdeltas : Dict StoragePtr StorageDelta := ∅
  txnCount : ℕ := 0
  /-- History: the asset and application ids assigned in this layer. Nothing reads it. -/
  assigned : List CreatableIndex := []

/-- `roundCowBase`: the ledger as the previous block left it. -/
structure RoundCowBase where
  txnCount : ℕ := 0
  accounts : Dict Address AccountData := ∅
  creators : Dict CreatableIndex (CreatableType × Address) := ∅
  /-- `CheckDup` of the recent blocks, for the first and last valid round. -/
  checkDup : Round → Round → Txid → Txlease → Except EvalError Unit := fun _ _ _ _ => .ok ()

inductive Cow
  | base (b : RoundCowBase)
  | layer (parent : Cow) (top : Layer)

/-- What the evaluation of a block reads of its header and of the previous one. -/
structure BlockContext where
  proto : ConsensusParams := {}
  round : Round := 1
  rewardsLevel : ℕ := 0
  prevTimestamp : ℤ := 0
  feeSink : Address := 0
  rewardsPool : Address := 0

/-- The storage `s` as it is stored in its account, where it is allocated. -/
def AccountData.storage (u : AccountData) (s : StoragePtr) : Option TealKeyValue :=
  if s.global then (u.appParams.lookup s.aidx).map (·.globalState)
  else (u.appLocalStates.lookup s.aidx).map (·.keyValue)

def TealValue.isUint : TealValue → Bool
  | .uint _ => true
  | .bytes _ => false

/-- The number of values of each type. -/
def TealKeyValue.schema (kv : TealKeyValue) : StateSchema where
  numUint := (Dict.values kv).countP TealValue.isUint
  numByteSlice := (Dict.values kv).countP fun v => !v.isUint

namespace Cow

/-! ## Lookups -/

def lookup : Cow → Address → AccountData
  | .base b, addr => b.accounts.getD addr {}
  | .layer p l, addr =>
    match l.accts.lookup addr with
    | some d => d
    | none => p.lookup addr

theorem lookup_layer (p : Cow) (l : Layer) (a : Address) :
    (layer p l).lookup a = l.accts.getD a (p.lookup a) := by
  simp only [lookup, Dict.getD]
  cases l.accts.lookup a <;> rfl

def getCreator : Cow → CreatableIndex → CreatableType → Option Address
  | .base b, cidx, ctype =>
    match b.creators.lookup cidx with
    | some (t, creator) => if t = ctype then some creator else none
    | none => none
  | .layer p l, cidx, ctype =>
    match l.creatables.lookup cidx with
    | some delta => if delta.created && delta.ctype = ctype then some delta.creator else none
    | none => p.getCreator cidx ctype

def checkDup (x : BlockContext) :
    Cow → Round → Round → Txid → Txlease → Except EvalError Unit
  | .base b, firstValid, lastValid, txid, txl => b.checkDup firstValid lastValid txid txl
  | .layer p l, firstValid, lastValid, txid, txl => do
    if (l.txids.lookup txid).isSome then
      throw (.transactionInLedger txid)
    if x.proto.supportTransactionLeases ∧ txl.lease ≠ 0 then
      if (l.txleases.lookup txl).any (x.round ≤ ·) then
        throw (.leaseInLedger txid)
    p.checkDup x firstValid lastValid txid txl

def txnCounter : Cow → ℕ
  | .base b => b.txnCount
  | .layer p l => p.txnCounter + l.txnCount

/-- The ids assigned in the layers, the oldest first. -/
def assigned : Cow → List CreatableIndex
  | .base _ => []
  | .layer p l => p.assigned ++ l.assigned

/-! ## Application storage: lookups -/

def allocated : Cow → StoragePtr → Bool
  | .base b, s => ((b.accounts.getD s.addr {}).storage s).isSome
  | .layer p l, s =>
    match (l.sdeltas.lookup s).map StorageDelta.action with
    | some .alloc => true
    | some .dealloc => false
    | _ => p.allocated s

def getKey : Cow → StoragePtr → Bytes → Except EvalError (Option TealValue)
  | .base b, s, key =>
    match (b.accounts.getD s.addr {}).storage s with
    | some kv => pure (kv.lookup key)
    | none => throw (.noStorage s)
  | .layer p l, s, key =>
    if !(layer p l).allocated s then throw (.noStorage s)
    else match l.sdeltas.lookup s with
      | some lsd =>
        match lsd.kvCow.lookup key with
        | some vdelta => pure vdelta.new
        | none => if lsd.action ≠ .remainAlloc then pure none else p.getKey s key
      | none => p.getKey s key

def getStorageCounts : Cow → StoragePtr → StateSchema
  | .base b, s => (((b.accounts.getD s.addr {}).storage s).map TealKeyValue.schema).getD {}
  | .layer p l, s =>
    if !(layer p l).allocated s then {}
    else match l.sdeltas.lookup s with
      | some lsd => lsd.counts
      | none => p.getStorageCounts s

def getStorageLimits : Cow → StoragePtr → Except EvalError StateSchema
  | .base b, s =>
    match (base b).getCreator s.aidx .app with
    | none => pure {}
    | some creator =>
      match (b.accounts.getD creator {}).appParams.lookup s.aidx with
      | none => throw (.appNotInAccount s.aidx creator)
      | some params => pure (if s.global then params.globalStateSchema else params.localStateSchema)
  | .layer p l, s =>
    if !(layer p l).allocated s then pure {}
    else match l.sdeltas.lookup s with
      | some lsd => pure lsd.maxCounts
      | none => p.getStorageLimits s

/-! ## Changes -/

/-- Change the top layer. -/
def modify (f : Layer → Layer) : Cow → Cow
  | .base b => .base b
  | .layer p l => .layer p (f l)

def put (addr : Address) (acct : AccountData) : Cow → Cow :=
  modify fun l => { l with accts := l.accts.upsert addr acct }

def incTxnCount : Cow → Cow := modify fun l => { l with txnCount := l.txnCount + 1 }

def addTx (txid : Txid) (lastValid : Round) (txl : Txlease) (c : Cow) : Cow :=
  let c := incTxnCount (c.modify fun l => { l with txids := l.txids.upsert txid lastValid })
  if txl.lease ≠ 0 then c.modify fun l => { l with txleases := l.txleases.upsert txl lastValid }
  else c

/-- Record that the creatable exists from now on. -/
def create (cidx : CreatableIndex) (ctype : CreatableType) (creator : Address) : Cow → Cow :=
  modify fun l => { l with
    creatables := l.creatables.upsert cidx { ctype, creator, created := true }
    assigned := l.assigned ++ [cidx] }

/-- Record that the creatable is gone. -/
def uncreate (cidx : CreatableIndex) (ctype : CreatableType) (creator : Address) : Cow → Cow :=
  modify fun l => { l with
    creatables := l.creatables.upsert cidx { ctype, creator, created := false } }

def allocateAsset (addr : Address) (index : AssetIndex) (global : Bool) (c : Cow) : Cow :=
  if global then c.create index .asset addr
  else c.modify fun l => { l with
    modifiedAssetHoldings := l.modifiedAssetHoldings.upsert (addr, index) true }

def deallocateAsset (addr : Address) (index : AssetIndex) (global : Bool) (c : Cow) : Cow :=
  if global then c.uncreate index .asset addr
  else c.modify fun l => { l with
    modifiedAssetHoldings := l.modifiedAssetHoldings.upsert (addr, index) false }

/-! ## Application storage: changes -/

/-- The delta of the top layer for `s`, where there is one. -/
def storageDelta : Cow → StoragePtr → Option StorageDelta
  | .base _, _ => none
  | .layer _ l, s => l.sdeltas.lookup s

variable (s : StoragePtr)

def setStorageDelta (lsd : StorageDelta) : Cow → Cow :=
  modify fun l => { l with sdeltas := l.sdeltas.upsert s lsd }

/-- The delta of the top layer for `s`, or a new one that starts from the storage in use. -/
def ensureStorageDelta (c : Cow) (s : StoragePtr) (defaultAction : StorageAction) :
    Except EvalError StorageDelta :=
  match c.storageDelta s with
  | some lsd => pure lsd
  | none => do
    let maxCounts ← c.getStorageLimits s
    return { action := defaultAction, counts := c.getStorageCounts s, maxCounts }

def allocateApp (space : StateSchema) (c : Cow) : Except EvalError Cow := do
  if c.allocated s then
    throw (.alreadyStorage s)
  let lsd ← c.ensureStorageDelta s .alloc
  let c := c.setStorageDelta s { lsd with action := .alloc, maxCounts := space }
  if s.global then
    return c.create s.aidx .app s.addr
  else
    return c.modify fun l => { l with
      modifiedAppLocalStates := l.modifiedAppLocalStates.upsert (s.addr, s.aidx) true }

def deallocateApp (c : Cow) : Except EvalError Cow := do
  if !c.allocated s then
    throw (.noStorage s)
  let _ ← c.ensureStorageDelta s .dealloc
  let c := c.setStorageDelta s { action := .dealloc }
  if s.global then
    return c.uncreate s.aidx .app s.addr
  else
    return c.modify fun l => { l with
      modifiedAppLocalStates := l.modifiedAppLocalStates.upsert (s.addr, s.aidx) false }

end Cow

/-- `n - 1` on `uint64`. -/
def decrement (n : ℕ) : ℕ := if n = 0 then 2 ^ 64 - 1 else n - 1

/-- The first half of `updateCounts`: the value that was there is no longer counted. -/
def StateSchema.uncount (counts : StateSchema) : Option TealValue → StateSchema
  | none => counts
  | some (.bytes _) => { counts with numByteSlice := decrement counts.numByteSlice }
  | some (.uint _) => { counts with numUint := decrement counts.numUint }

/-- The second half of `updateCounts`: the value that is there now is counted. -/
def StateSchema.count (counts : StateSchema) : Option TealValue → StateSchema
  | none => counts
  | some (.bytes _) => { counts with numByteSlice := counts.numByteSlice + 1 }
  | some (.uint _) => { counts with numUint := counts.numUint + 1 }

/-- `checkCounts`: the usage does not exceed the limits of the schema. -/
def StateSchema.checkCounts (counts maxCounts : StateSchema) : Except EvalError Unit := do
  if counts.numUint > maxCounts.numUint then
    throw (.uintCountExceedsSchema counts.numUint maxCounts.numUint)
  if counts.numByteSlice > maxCounts.numByteSlice then
    throw (.bytesCountExceedsSchema counts.numByteSlice maxCounts.numByteSlice)

namespace StorageDelta

/-- Write `new` at `key`, where `old` was read, and update the counts. -/
def write (lsd : StorageDelta) (key : Bytes) (old new : Option TealValue) : StorageDelta :=
  let vdelta := (lsd.kvCow.lookup key).getD { old, new }
  { lsd with
    kvCow := lsd.kvCow.upsert key { vdelta with new }
    counts := (lsd.counts.uncount old).count new }

/-- `applyChild`, but for its sanity check. -/
def applyChild (lsd child : StorageDelta) : StorageDelta :=
  if child.action ≠ .remainAlloc then child
  else { lsd with
    -- a key that both changed keeps the value it had before the parent's change
    kvCow := lsd.kvCow.mergeWith
      (fun key vdelta => { vdelta with old := ((lsd.kvCow.lookup key).getD vdelta).old }) child.kvCow
    counts := child.counts }

/-- The sanity check of `applyChild`: storage that is gone has no changed keys. -/
def sane (lsd : StorageDelta) : Bool := lsd.action ≠ .dealloc || lsd.kvCow.keys.isEmpty

end StorageDelta

/-- The bounds `SetKey` puts on a key and its value. -/
def checkLengths (proto : ConsensusParams) (key : Bytes) (value : TealValue) :
    Except EvalError Unit := do
  if key.length > proto.maxAppKeyLen then
    throw (.keyTooLong key.length proto.maxAppKeyLen)
  if let .bytes b := value then
    if b.length > proto.maxAppBytesValueLen then
      throw (.valueTooLong key b.length)
    if key.length + b.length > proto.maxAppSumKeyValueLens then
      throw (.keyValueTooLong key (key.length + b.length))

namespace Cow

def setKey (x : BlockContext) (s : StoragePtr) (key : Bytes) (value : TealValue) (c : Cow) :
    Except EvalError Cow := do
  checkLengths x.proto key value
  if !c.allocated s then
    throw (.noStorage s)
  let oldValue ← c.getKey s key
  let lsd ← c.ensureStorageDelta s .remainAlloc
  let lsd := lsd.write key oldValue (some value)
  lsd.counts.checkCounts lsd.maxCounts
  return c.setStorageDelta s lsd

def delKey (s : StoragePtr) (key : Bytes) (c : Cow) : Except EvalError Cow := do
  if !c.allocated s then
    throw (.noStorage s)
  let oldValue ← c.getKey s key
  match c.ensureStorageDelta s .remainAlloc with
  | .error _ => return c
  | .ok lsd => return c.setStorageDelta s (lsd.write key oldValue none)

/-! ## Children -/

def child (c : Cow) : Cow := .layer c {}

/-- What a storage delta of the child becomes in the parent with the deltas `sdeltas`. -/
def mergedStorage (sdeltas : Dict StoragePtr StorageDelta) (s : StoragePtr) (nsd : StorageDelta) :
    StorageDelta :=
  match sdeltas.lookup s with
  | some lsd => lsd.applyChild nsd
  | none => nsd

/-- The layer `pl` with the changes of its child `l`. -/
def mergedLayer (pl l : Layer) : Layer where
  accts := pl.accts.merge l.accts
  txids := pl.txids.merge l.txids
  txleases := pl.txleases.merge l.txleases
  creatables := pl.creatables.merge l.creatables
  modifiedAssetHoldings := pl.modifiedAssetHoldings.merge l.modifiedAssetHoldings
  modifiedAppLocalStates := pl.modifiedAppLocalStates.merge l.modifiedAppLocalStates
  sdeltas := pl.sdeltas.mergeWith (mergedStorage pl.sdeltas) l.sdeltas
  txnCount := pl.txnCount + l.txnCount
  assigned := pl.assigned ++ l.assigned

/-- `commitToParent`: merge the top layer into its parent. -/
def commitToParent : Cow → Except EvalError Cow
  | .layer (.layer p pl) l => do
    if l.sdeltas.entries.any fun e =>
        (pl.sdeltas.lookup e.1).isSome && !(mergedStorage pl.sdeltas e.1 e.2).sane then
      throw .deallocPanic
    return .layer p (mergedLayer pl l)
  | c => pure c

/-- The addresses written in the top layer, in the order of their first write. -/
def modifiedAccounts : Cow → List Address
  | .base _ => []
  | .layer _ l => l.accts.keys

end Cow

end Novarand.Ledger
