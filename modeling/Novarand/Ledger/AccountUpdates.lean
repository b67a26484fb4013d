import Novarand.Ledger.Blocks
import Novarand.Ledger.Totals
import Novarand.Lib.Deltas
import Novarand.Lib.Lru

/-!
# The account updates tracker

The tracker keeps the changes of the rounds that are not yet in the database, and a cache of accounts
that are. A lookup answers from the changes, then from the cache, then from the database, which it
reads without holding the lock; entries for the cache are left in a channel that the next block
flushes. A commit moves the oldest rounds to the database in three phases: their changes are
compacted (`prepareCommit`), written in one transaction (`commitRound`), and dropped from memory
(`postCommit`).

Decoding what was encoded gives it back, so the database holds the account data itself.
-/

namespace Novarand.Ledger

open Deltas

/-! ### The database -/

structure PersistedAccountData where
  addr : Address := 0
  accountData : AccountData := {}
  /-- The row of the account, 0 if it has none. -/
  rowid : ℕ := 0
  round : ℕ := 0
  deriving DecidableEq

structure AccountsDb where
  /-- `acctrounds`. -/
  round : ℕ
  /-- `accountbase`: the address and the data of each row. -/
  accountbase : Dict ℕ (Address × AccountData)
  /-- `assetcreators`. -/
  assetcreators : Dict CreatableIndex (Address × CreatableType)

inductive DbError
  | rowExists (addr : Address)
  | noRow (rowid : ℕ)
  | creatableExists (cidx : CreatableIndex)
  | notAfterBase (rnd base : ℕ)
  deriving DecidableEq

namespace AccountsDb

variable (db : AccountsDb)

variable (addr : Address)

/-- The row of an address. -/
def select : Option (ℕ × AccountData) :=
  (db.accountbase.entries.find? fun e => e.2.1 = addr).map fun e => (e.1, e.2.2)

def lookup : PersistedAccountData :=
  match db.select addr with
  | none => { addr, round := db.round }
  | some (rowid, accountData) => { addr, accountData, rowid, round := db.round }

/-- `accountsDbQueries.lookupCreator`, without the round. -/
def lookupCreator (cidx : CreatableIndex) (ctype : CreatableType) : Option Address :=
  match db.assetcreators.lookup cidx with
  | none => none
  | some (creator, ctype') => if ctype' = ctype then some creator else none

/-- The row id of a new row. -/
def newRowid : ℕ := db.accountbase.keys.foldr max 0 + 1

def insert (data : AccountData) : Except DbError AccountsDb := do
  failIf ((db.select addr).isSome) (.rowExists addr)
  return { db with accountbase := db.accountbase.upsert db.newRowid (addr, data) }

def update (rowid : ℕ) (data : AccountData) : Except DbError AccountsDb := do
  let row ← orThrow (.noRow rowid) (db.accountbase.lookup rowid)
  return { db with accountbase := db.accountbase.upsert rowid (row.1, data) }

def delete (rowid : ℕ) : Except DbError AccountsDb := do
  let _ ← orThrow (.noRow rowid) (db.accountbase.lookup rowid)
  return { db with accountbase := db.accountbase.erase rowid }

end AccountsDb

/-! ### Compact deltas -/

/-- `accountDelta`; `old` is `none` for the misses that are loaded from the database. -/
structure AccountDelta where
  old : Option PersistedAccountData
  new : AccountData
  ndeltas : ℕ

/-- `makeCompactAccountDeltas`: an account keeps the old data it got with its first delta. -/
def makeCompactAccountDeltas (accountDeltas : List (Dict Address AccountData))
    (baseAccounts : List PersistedAccountData) : List (Address × AccountDelta) :=
  (compact accountDeltas).entries.map fun e =>
    (e.1, { old := Lru.read PersistedAccountData.addr baseAccounts e.1
            new := e.2.value
            ndeltas := e.2.ndeltas })

variable (db : AccountsDb)

/-- `accountsLoadOld`, for the row id. -/
def loadOld (addr : Address) (old : Option PersistedAccountData) : ℕ :=
  match old with
  | some old => old.rowid
  | none => ((db.select addr).map Prod.fst).getD 0

/-- The turn of `accountsNewRound` for one account that had the row `oldRowid`. -/
def newRoundAccount (addr : Address) (oldRowid : ℕ) (new : AccountData) (lastUpdateRound : ℕ)
    : Except DbError (AccountsDb × PersistedAccountData) :=
  if oldRowid = 0 then
    if new.isZero then .ok (db, { addr, round := lastUpdateRound })
    else do
      let db' ← db.insert addr new
      return (db', { addr, accountData := new, rowid := db.newRowid, round := lastUpdateRound })
  else
    if new.isZero then do
      let db ← db.delete oldRowid
      return (db, { addr, round := lastUpdateRound })
    else do
      let db ← db.update oldRowid new
      return (db, { addr, accountData := new, rowid := oldRowid, round := lastUpdateRound })

/-- The loop of `accountsNewRound` over the accounts, their old row ids and their new data. -/
def newRoundAccounts (updates : List (Address × ℕ × AccountData)) (lastUpdateRound : ℕ)
    (updatedAccounts : List PersistedAccountData) :
    Except DbError (AccountsDb × List PersistedAccountData) :=
  updates.foldlM (fun acc u => do
    let (db, acct) ← newRoundAccount acc.1 u.1 u.2.1 u.2.2 lastUpdateRound
    return (db, acc.2 ++ [acct])) (db, updatedAccounts)

/-- The turn of `accountsNewRound` for one creatable. -/
def newRoundCreatable (cidx : CreatableIndex) (cdelta : ModifiedCreatable) :
    Except DbError AccountsDb :=
  if cdelta.created then do
    failIf ((db.assetcreators.lookup cidx).isSome) (.creatableExists cidx)
    return { db with assetcreators := db.assetcreators.upsert cidx (cdelta.creator, cdelta.ctype) }
  else
    match db.assetcreators.lookup cidx with
    | none => .ok db
    | some (_, ctype) =>
      if ctype = cdelta.ctype then .ok { db with assetcreators := db.assetcreators.erase cidx }
      else .ok db

/-! ### The tracker -/

/-- What the tracker reads of a block and its state delta. -/
structure TrackedBlock where
  currentProtocol : ConsensusVersion
  accts : Dict Address AccountData
  creatables : Dict CreatableIndex ModifiedCreatable
  totals : AccountTotals

def baseAccountsPendingAccountsBufferSize : ℕ := 100000

structure AccountUpdates where
  cachedDBRound : ℕ
  deltas : List (Dict Address AccountData) := []
  accounts : Dict Address (Tracked AccountData) := ∅
  creatableDeltas : List (Dict CreatableIndex ModifiedCreatable) := []
  creatables : Dict CreatableIndex (Tracked ModifiedCreatable) := ∅
  versions : List ConsensusVersion
  roundTotals : List AccountTotals
  /-- The cache of accounts, the one used last in front. -/
  baseAccounts : List PersistedAccountData := []
  /-- The channel of entries for the cache. -/
  pendingAccounts : List PersistedAccountData := []

/-- A commit on its way, as prepared from the oldest `offset` rounds in memory. -/
structure DeferredCommit where
  offset : ℕ
  newBase : ℕ
  compactAccountDeltas : List (Address × AccountDelta)
  compactCreatableDeltas : Dict CreatableIndex (Tracked ModifiedCreatable)
  updatedPersistedAccounts : List PersistedAccountData := []

inductive CommitError
  | outOfRange
  | nonUniformVersions
  | tooFarInTheFuture (rnd : ℕ)
  deriving DecidableEq

/-- The panics of `postCommit`. -/
inductive Inconsistency
  | account (e : ReleaseError Address)
  | creatable (e : ReleaseError CreatableIndex)

namespace AccountUpdates

variable (au : AccountUpdates)

def latest : ℕ := au.cachedDBRound + au.deltas.length

/-- `writePending`: the entry is dropped if the channel is full. -/
def writePending (acct : PersistedAccountData) : AccountUpdates :=
  if au.pendingAccounts.length < baseAccountsPendingAccountsBufferSize then
    { au with pendingAccounts := au.pendingAccounts ++ [acct] }
  else au

def newBlockImpl (rnd : ℕ) (blk : TrackedBlock) : Except CommitError AccountUpdates :=
  if rnd ≤ au.latest then .ok au
  else do
    failIf (rnd ≠ au.latest + 1) (.tooFarInTheFuture rnd)
    let accounts := track au.accounts blk.accts
    let flushed := Lru.flush PersistedAccountData.addr PersistedAccountData.round au.baseAccounts
      au.pendingAccounts
    let newBaseAccountSize := accounts.keys.length + 1 + baseAccountsPendingAccountsBufferSize
    return { au with
      deltas := au.deltas ++ [blk.accts]
      versions := au.versions ++ [blk.currentProtocol]
      creatableDeltas := au.creatableDeltas ++ [blk.creatables]
      pendingAccounts := []
      accounts
      creatables := track au.creatables blk.creatables
      roundTotals := au.roundTotals ++ [blk.totals]
      baseAccounts := Lru.prune newBaseAccountSize flushed }

def prepareCommit (offset : ℕ) : Except CommitError DeferredCommit := do
  failIf (offset = 0 ∨ au.deltas.length < offset) .outOfRange
  failIf (au.versions[1]? ≠ au.versions[offset]?) .nonUniformVersions
  return {
    offset
    newBase := au.cachedDBRound + offset
    compactAccountDeltas := makeCompactAccountDeltas (au.deltas.take offset) au.baseAccounts
    compactCreatableDeltas := compact (au.creatableDeltas.take offset) }

/-- The transaction of `commitRound`. -/
def commitRound (db : AccountsDb) (dcc : DeferredCommit) :
    Except DbError (AccountsDb × DeferredCommit) := do
  -- the old rows are looked up before any of them is changed
  let updates := dcc.compactAccountDeltas.map fun u => (u.1, loadOld db u.1 u.2.old, u.2.new)
  let (db, updated) ← newRoundAccounts db updates dcc.newBase []
  let db ← dcc.compactCreatableDeltas.entries.foldlM
    (fun db e => newRoundCreatable db e.1 e.2.value) db
  failIf (dcc.newBase < db.round) (.notAfterBase dcc.newBase db.round)
  return ({ db with round := dcc.newBase }, { dcc with updatedPersistedAccounts := updated })

def postCommit (dcc : DeferredCommit) : Except Inconsistency AccountUpdates := do
  let accounts ← (release au.accounts
    (dcc.compactAccountDeltas.map fun u => (u.1, u.2.ndeltas))).mapError .account
  let creatables ← (release au.creatables
    (dcc.compactCreatableDeltas.entries.map fun e => (e.1, e.2.ndeltas))).mapError .creatable
  return { au with
    accounts
    creatables
    baseAccounts := Lru.flush PersistedAccountData.addr PersistedAccountData.round au.baseAccounts
      dcc.updatedPersistedAccounts
    deltas := au.deltas.drop dcc.offset
    versions := au.versions.drop dcc.offset
    roundTotals := au.roundTotals.drop dcc.offset
    creatableDeltas := au.creatableDeltas.drop dcc.offset
    cachedDBRound := dcc.newBase }

end AccountUpdates

/-! ### Lookups -/

inductive Query
  | withRewards (addr : Address)
  | withoutRewards (addr : Address) (synchronized : Bool)
  | creator (cidx : CreatableIndex) (ctype : CreatableType) (synchronized : Bool)

inductive Answer
  | account (data : AccountData) (validThrough : ℕ)
  | creator (creator : Option Address)

inductive LookupError
  | roundOffset (round dbRound : ℕ)
  | roundTooHigh (round dbRound deltas : ℕ)
  | staleDatabase (databaseRound memoryRound : ℕ)
  | mismatchingDatabase (databaseRound memoryRound : ℕ)
  | database
  | indexOutOfRange
  | rewardsPanic

/-- What a lookup remembers while it reads the database: the round and the number of deltas that it
saw in memory, and the variables of its loop. -/
structure Seen where
  currentDbRound : ℕ
  currentDeltaLen : ℕ
  rnd : ℕ
  rewardsProto : ConsensusVersion
  rewardsLevel : ℕ

/-- How a turn of the loop ends under the lock. -/
inductive Turn
  | answer (a : Answer) (promote : Option PersistedAccountData)
  | database (seen : Seen)

namespace AccountUpdates

variable (au : AccountUpdates) (consensus : ConsensusVersion → ConsensusParams)

variable (rnd : ℕ)

def roundOffset : Except LookupError ℕ := do
  failIf (rnd < au.cachedDBRound) (.roundOffset rnd au.cachedDBRound)
  failIf (au.deltas.length < rnd - au.cachedDBRound)
    (.roundTooHigh rnd au.cachedDBRound au.deltas.length)
  return rnd - au.cachedDBRound

/-- The search backwards through the deltas before `offset`. -/
def scan {K V : Type} [DecidableEq K] (deltas : List (Dict K V)) (offset : ℕ) (k : K) : Option V :=
  lastOf (deltas.take offset) k

/-- What the deltas in memory say about an account at `offset`. -/
def inDeltas (addr : Address) (offset : ℕ) : Option AccountData :=
  match au.accounts.lookup addr with
  | none => none
  | some macct =>
    if offset = au.deltas.length then some macct.value else scan au.deltas offset addr

/-- The deferred function of `lookupWithRewards`. -/
def addRewards (data : AccountData) (rewardsProto : ConsensusVersion) (rewardsLevel : ℕ) :
    Except LookupError AccountData :=
  orThrow .rewardsPanic (data.withUpdatedRewards (consensus rewardsProto) rewardsLevel)

/-- A turn of `lookupWithRewards`. -/
def lookupWithRewards (addr : Address) : Except LookupError Turn := do
  let offset ← au.roundOffset rnd
  let rewardsProto ← orThrow .indexOutOfRange au.versions[offset]?
  let totals ← orThrow .indexOutOfRange au.roundTotals[offset]?
  let fetch : Turn :=
    .database ⟨au.cachedDBRound, au.deltas.length, rnd, rewardsProto, totals.rewardsLevel⟩
  match au.inDeltas addr offset with
  | some data =>
    let data ← addRewards consensus data rewardsProto totals.rewardsLevel
    return .answer (.account data rnd) none
  | none =>
    match Lru.read PersistedAccountData.addr au.baseAccounts addr with
    | some macct =>
      if macct.round = au.cachedDBRound then do
        let data ← addRewards consensus macct.accountData rewardsProto totals.rewardsLevel
        return .answer (.account data rnd) (some macct)
      else return fetch
    | none => return fetch

/-- A turn of `lookupWithoutRewards`; the cache is used whatever the round of its entry. -/
def lookupWithoutRewards (addr : Address) : Except LookupError Turn := do
  let offset ← au.roundOffset rnd
  match au.inDeltas addr offset with
  | some data => return .answer (.account data rnd) none
  | none =>
    let rnd := if (au.accounts.lookup addr).isSome then rnd else au.cachedDBRound + au.deltas.length
    match Lru.read PersistedAccountData.addr au.baseAccounts addr with
    | some macct => return .answer (.account macct.accountData rnd) (some macct)
    | none => return .database ⟨au.cachedDBRound, au.deltas.length, rnd, 0, 0⟩

/-- The creator that a change of a creatable leaves. -/
def creatorOf (creatableDelta : ModifiedCreatable) (ctype : CreatableType) : Option Address :=
  if creatableDelta.created = true ∧ creatableDelta.ctype = ctype then some creatableDelta.creator
  else none

/-- A turn of `getCreatorForRound`. -/
def getCreatorForRound (cidx : CreatableIndex) (ctype : CreatableType) :
    Except LookupError Turn := do
  let offset ← au.roundOffset rnd
  let creatableDelta :=
    if offset = au.deltas.length then (au.creatables.lookup cidx).map Tracked.value
    else scan au.creatableDeltas offset cidx
  match creatableDelta with
  | some creatableDelta => return .answer (.creator (creatorOf creatableDelta ctype)) none
  | none => return .database ⟨au.cachedDBRound, au.deltas.length, rnd, 0, 0⟩

def turn : Query → Except LookupError Turn
  | .withRewards addr => au.lookupWithRewards consensus rnd addr
  | .withoutRewards addr _ => au.lookupWithoutRewards rnd addr
  | .creator cidx ctype _ => au.getCreatorForRound rnd cidx ctype

end AccountUpdates

/-- What a read of the database gives. -/
inductive Fetched
  | account (data : PersistedAccountData) (failed : Bool)
  | creator (creator : Option Address) (round : ℕ) (failed : Bool)

/-- Where a call stands: before a turn of its loop, about to read the database, with what it has read,
or waiting for the tracker to move on. -/
inductive Phase
  | enter (rnd : ℕ)
  | reading (seen : Seen)
  | fetched (seen : Seen) (data : Fetched)
  | waiting (seen : Seen)

structure Call where
  query : Query
  rnd : ℕ
  phase : Phase

inductive Progress
  | running (phase : Phase)
  | returned (a : Answer)
  | failed (e : LookupError)

namespace Query

def synchronized : Query → Bool
  | .withRewards _ => true
  | .withoutRewards _ synchronized => synchronized
  | .creator _ _ synchronized => synchronized

/-- What is read of an account is left for the cache. -/
def readsAccount : Query → Bool
  | .withRewards _ | .withoutRewards _ _ => true
  | .creator _ _ _ => false

/-- The read of the database; one that fails leaves the zero values. -/
def fetch (db : AccountsDb) (fails : Bool) : Query → Fetched
  | .withRewards addr | .withoutRewards addr _ =>
    if fails then .account {} true else .account (db.lookup addr) false
  | .creator cidx ctype _ =>
    if fails then .creator none 0 true else .creator (db.lookupCreator cidx ctype) db.round false

end Query

def Fetched.round : Fetched → ℕ
  | .account data _ => data.round
  | .creator _ round _ => round

/-- What a lookup leaves for the cache of what it has read. -/
def AccountUpdates.writeFetched (au : AccountUpdates) : Fetched → AccountUpdates
  | .account data _ => au.writePending data
  | .creator _ _ _ => au

namespace Call

variable (consensus : ConsensusVersion → ConsensusParams)

variable (au : AccountUpdates)

/-- A turn of the loop under the lock. -/
def iterate (rnd : ℕ) (query : Query) : AccountUpdates × Progress :=
  match au.turn consensus rnd query with
  | .error e => (au, .failed e)
  | .ok (.answer a none) => (au, .returned a)
  | .ok (.answer a (some acct)) => (au.writePending acct, .returned a)
  | .ok (.database seen) => (au, .running (.reading seen))

/-- The answer from the database at the round that was seen in memory. -/
def conclude (seen : Seen) : Query → Fetched → Except LookupError Answer
  | .withRewards _, .account data failed => do
    failIf (failed = true) .database
    let data ← AccountUpdates.addRewards consensus data.accountData seen.rewardsProto
      seen.rewardsLevel
    return .account data seen.rnd
  | _, .account data failed => do
    failIf (failed = true) .database
    return .account data.accountData seen.rnd
  | _, .creator creator _ failed => do
    failIf (failed = true) .database
    return .creator creator

/-- After the read: the answer if the database has the round seen, else an error or, if it is ahead,
a wait. -/
def judge (query : Query) (seen : Seen) (data : Fetched) : AccountUpdates × Progress :=
  if data.round = seen.currentDbRound then
    match conclude consensus seen query data with
    | .ok a => (au.writeFetched data, .returned a)
    | .error e => (au.writeFetched data, .failed e)
  else if query.synchronized = false then
    (au, .failed (.mismatchingDatabase data.round seen.currentDbRound))
  else if data.round < seen.currentDbRound then
    (au, .failed (.staleDatabase data.round seen.currentDbRound))
  else (au, .running (.waiting seen))

/-- The next step of a call in memory; `none` while it reads or waits. -/
def advance (c : Call) : Option (AccountUpdates × Progress) :=
  match c.phase with
  | .enter rnd => some (iterate consensus au rnd c.query)
  | .reading _ => none
  | .fetched seen data => some (judge consensus au c.query seen data)
  | .waiting seen =>
    if au.cachedDBRound ≤ seen.currentDbRound ∧ seen.currentDeltaLen = au.deltas.length then none
    else some (iterate consensus au seen.rnd c.query)

end Call

end Novarand.Ledger
