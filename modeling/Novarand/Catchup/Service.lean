import Novarand.Lib.Outcome
import Novarand.Lib.Trace

/-!
# The catchpoint catch-up service

The service downloads the balances and the blocks of a catchpoint into staging tables and then
switches the ledger to them. Its progress is a stage that is stored in the tracker database, so
that a node that stopped half-way resumes there. The two databases are written by transactions of
their own; between any two of them the node may crash, and each of them may fail.

The model has one program point for each database step of the service and for each wait for a peer
(`Pc`), the effect of the step (`Pc.run`), where an error leads (`Pc.onError`), and the runs of a
node made of these (`Step`).
-/

namespace Novarand.Catchup

inductive CatchpointCatchupState
  | inactive
  | ledgerDownload
  | lastestBlockDownload
  | blocksDownload
  | switch
  deriving DecidableEq, Repr

/-- What a live table was before it got its name: the ledger's own, or a staging table. -/
inductive Origin
  | ledger
  | catchpoint
  deriving DecidableEq, Repr

inductive Fault
  | noSuchTable
  | noEntry
  | uniqueConstraint
  | unparsableLabel
  | unexpected
  | invalidDownload
  deriving DecidableEq, Repr

variable {Block Accounts Totals Batch Label : Type}

/-- What the service takes from blocks, balances and labels without looking inside. -/
structure Rules (Block Accounts Totals Batch Label : Type) where
  round : Block → ℕ
  maxTxnLife : Block → ℕ
  maxBalLookback : Block → ℕ
  /-- The protocol is known, the genesis hash is ours and the contents match the header. -/
  usable : Block → Bool
  /-- `prev.Branch == blk.Hash()`. -/
  follows : (prev blk : Block) → Bool
  parseCatchpointLabel : Label → Option ℕ
  makeCatchpointLabel : ℕ → Block → Accounts → Totals → Label
  /-- The staging tables as `resetCatchpointStagingBalances` creates them. -/
  empty : Accounts
  /-- One write of `processStagingBalances` or of `BuildMerkleTrie`. -/
  put : Accounts → Batch → Option Accounts

/-! ### The block database -/

structure BlockDb (Block : Type) where
  blocks : List Block
  origin : Origin
  catchpointblocks : Option (List Block)

/-- Differences of rounds are those of `uint64`. -/
def subRound (a b : ℕ) : ℕ := (a + (2 ^ 64 - b % 2 ^ 64)) % 2 ^ 64

namespace BlockDb

def blockStartCatchupStaging (db : BlockDb Block) (blk : Block) : BlockDb Block :=
  { db with catchpointblocks := some [blk] }

variable (rules : Rules Block Accounts Totals Batch Label) (db : BlockDb Block)

def blockPutStaging (blk : Block) : Except Fault (BlockDb Block) := do
  let rows ← orThrow .noSuchTable db.catchpointblocks
  failIf (rows.any fun row => rules.round row = rules.round blk) .uniqueConstraint
  pure { db with catchpointblocks := some (rows ++ [blk]) }

/-- Only the newest staged block is kept. -/
def blockEnsureSingleBlock : Except Fault (BlockDb Block × Block) := do
  let rows ← orThrow .noSuchTable db.catchpointblocks
  let top ← orThrow .noEntry (rows.argmax rules.round)
  pure ({ db with
    catchpointblocks := some (rows.filter fun row => ¬rules.round row < rules.round top) }, top)

/-- The first renaming is undone with the transaction when there is no staging table. -/
def blockCompleteCatchup : Except Fault (BlockDb Block) := do
  let rows ← orThrow .noSuchTable db.catchpointblocks
  pure
    { blocks := rows
      origin := .catchpoint
      catchpointblocks := none }

end BlockDb

/-! ### The tracker database -/

structure Balances (Accounts Totals : Type) where
  accounts : Accounts
  round : ℕ
  totals : Totals
  origin : Origin

structure TrackerDb (Accounts Totals Label : Type) where
  live : Balances Accounts Totals
  /-- `catchpointbalances`, `catchpointassetcreators` and `catchpointaccounthashes`. -/
  staging : Option Accounts
  stagingTotals : Option Totals
  state : CatchpointCatchupState
  label : Option Label
  blockRound : ℕ
  balancesRound : ℕ

namespace TrackerDb

variable (rules : Rules Block Accounts Totals Batch Label) (db : TrackerDb Accounts Totals Label)

def resetStagingBalances (newCatchup : Bool) : TrackerDb Accounts Totals Label :=
  if newCatchup then
    { db with
      staging := some rules.empty
      stagingTotals := none }
  else
    { db with
      staging := none
      stagingTotals := none
      balancesRound := 0
      blockRound := 0
      label := none
      state := .inactive }

def setLabel (label : Option Label) : Except Fault (TrackerDb Accounts Totals Label) := do
  let text ← orThrow .unparsableLabel label
  let _ ← orThrow .unparsableLabel (rules.parseCatchpointLabel text)
  pure { db with label := some text }

def setState (state : CatchpointCatchupState) : TrackerDb Accounts Totals Label :=
  { db with state := state }

def processStagingContent (blocksRound : ℕ) (totals : Totals) : TrackerDb Accounts Totals Label :=
  { db with
    blockRound := blocksRound
    stagingTotals := some totals }

def processStagingBalances (batch : Batch) : Except Fault (TrackerDb Accounts Totals Label) := do
  let accounts ← orThrow .noSuchTable db.staging
  let accounts ← orThrow .invalidDownload (rules.put accounts batch)
  pure { db with staging := some accounts }

def verifyCatchpoint [DecidableEq Label] (rules : Rules Block Accounts Totals Batch Label)
    (db : TrackerDb Accounts Totals Label) (blk : Block) : Except Fault Unit := do
  let accounts ← orThrow .noSuchTable db.staging
  let totals ← orThrow .noEntry db.stagingTotals
  failIf (db.blockRound ≠ rules.round blk) .invalidDownload
  failIf (db.label ≠ some (rules.makeCatchpointLabel db.blockRound blk accounts totals))
    .invalidDownload

def storeBalancesRound (blk : Block) : TrackerDb Accounts Totals Label :=
  { db with balancesRound := subRound (rules.round blk) (rules.maxBalLookback blk) }

def finishBalances : Except Fault (TrackerDb Accounts Totals Label) := do
  let totals ← orThrow .noEntry db.stagingTotals
  let accounts ← orThrow .noSuchTable db.staging
  pure
    { live :=
        { accounts := accounts
          round := db.balancesRound
          totals := totals
          origin := .catchpoint }
      staging := none
      stagingTotals := none
      state := .inactive
      label := none
      blockRound := 0
      balancesRound := 0 }

end TrackerDb

structure Disk (Block Accounts Totals Label : Type) where
  blockDb : BlockDb Block
  trackerDb : TrackerDb Accounts Totals Label

/-! ### The service -/

/-- The service's next database step, or the download it waits for. -/
inductive Pc (Block : Type)
  | setLabel
  | enterLedgerDownload
  | resetStaging
  | download (seenHeader : Bool)
  | enterLastestBlockDownload
  | latestBlock
  | storeBalancesRound (blk : Block)
  | storeFirstBlock (blk : Block)
  | enterBlocksDownload
  | ensureFirstBlock
  | fetch (top prev : Block) (blocksFetched : ℕ)
  | storeBlock (top prev blk : Block) (blocksFetched : ℕ)
  | enterSwitch
  | finishBlocks
  | finishBalances
  | reloadLedger
  | enterInactive
  | abort

/-- A node that is down, one whose service has ended, or one with a service at work for a label. -/
inductive Process (Block Label : Type)
  | down
  | idle
  | serving (label : Option Label) (pc : Pc Block)

/-- What a peer sends; `none` of it at a database step. -/
inductive Input (Block Totals Batch : Type)
  | none
  | content (blocksRound : ℕ) (totals : Totals)
  | batch (batch : Batch)
  | ledgerDone
  | block (blk : Block)

/-- How many blocks below the top block are downloaded. -/
def Rules.lookback (rules : Rules Block Accounts Totals Batch Label) (top : Block) : ℕ :=
  let lookback := max (rules.maxTxnLife top) (rules.maxBalLookback top)
  if rules.round top ≤ lookback then subRound (rules.round top) 1 else lookback

/-- The top of the download loop of `processStageBlocksDownload`. -/
def Rules.continueFetch (rules : Rules Block Accounts Totals Batch Label) (top prev : Block)
    (blocksFetched : ℕ) : Pc Block :=
  if blocksFetched ≤ rules.lookback top then .fetch top prev blocksFetched else .enterSwitch

/-- Where `run` enters a stage. -/
def CatchpointCatchupState.entry : CatchpointCatchupState → Pc Block
  | .inactive => .setLabel
  | .ledgerDownload => .resetStaging
  | .lastestBlockDownload => .latestBlock
  | .blocksDownload => .ensureFirstBlock
  | .switch => .finishBlocks

/-- The step at a program point: what is on disk afterwards and where the service goes on. -/
def Pc.run [DecidableEq Label] (rules : Rules Block Accounts Totals Batch Label)
    (label : Option Label) (disk : Disk Block Accounts Totals Label) :
    Pc Block → Input Block Totals Batch →
      Except Fault (Disk Block Accounts Totals Label × Process Block Label)
  | .setLabel, .none => do
    let db ← disk.trackerDb.setLabel rules label
    pure ({ disk with trackerDb := db }, .serving label .enterLedgerDownload)
  | .enterLedgerDownload, .none =>
    pure ({ disk with trackerDb := disk.trackerDb.setState .ledgerDownload },
      .serving label .resetStaging)
  | .resetStaging, .none => do
    let text ← orThrow .unparsableLabel label
    let _ ← orThrow .unparsableLabel (rules.parseCatchpointLabel text)
    pure ({ disk with trackerDb := disk.trackerDb.resetStagingBalances rules true },
      .serving label (.download false))
  | .download seenHeader, .content blocksRound totals => do
    failIf seenHeader .invalidDownload
    pure ({ disk with trackerDb := disk.trackerDb.processStagingContent blocksRound totals },
      .serving label (.download true))
  | .download seenHeader, .batch batch => do
    failIf (¬seenHeader) .invalidDownload
    let db ← disk.trackerDb.processStagingBalances rules batch
    pure ({ disk with trackerDb := db }, .serving label (.download true))
  | .download _, .ledgerDone => pure (disk, .serving label .enterLastestBlockDownload)
  | .enterLastestBlockDownload, .none =>
    pure ({ disk with trackerDb := disk.trackerDb.setState .lastestBlockDownload },
      .serving label .latestBlock)
  | .latestBlock, .block blk => do
    failIf (¬rules.usable blk) .invalidDownload
    disk.trackerDb.verifyCatchpoint rules blk
    pure (disk, .serving label (.storeBalancesRound blk))
  | .storeBalancesRound blk, .none =>
    pure ({ disk with trackerDb := disk.trackerDb.storeBalancesRound rules blk },
      .serving label (.storeFirstBlock blk))
  | .storeFirstBlock blk, .none =>
    pure ({ disk with blockDb := disk.blockDb.blockStartCatchupStaging blk },
      .serving label .enterBlocksDownload)
  | .enterBlocksDownload, .none =>
    pure ({ disk with trackerDb := disk.trackerDb.setState .blocksDownload },
      .serving label .ensureFirstBlock)
  | .ensureFirstBlock, .none => do
    let (db, top) ← disk.blockDb.blockEnsureSingleBlock rules
    pure ({ disk with blockDb := db }, .serving label (rules.continueFetch top top 1))
  | .fetch top prev blocksFetched, .block blk => do
    failIf (rules.round blk ≠ subRound (rules.round top) blocksFetched) .invalidDownload
    failIf (¬rules.follows prev blk) .invalidDownload
    failIf (¬rules.usable blk) .invalidDownload
    pure (disk, .serving label (.storeBlock top prev blk blocksFetched))
  | .storeBlock top _ blk blocksFetched, .none => do
    let db ← disk.blockDb.blockPutStaging rules blk
    pure ({ disk with blockDb := db },
      .serving label (rules.continueFetch top blk (blocksFetched + 1)))
  | .enterSwitch, .none =>
    pure ({ disk with trackerDb := disk.trackerDb.setState .switch }, .serving label .finishBlocks)
  | .finishBlocks, .none => do
    let db ← disk.blockDb.blockCompleteCatchup
    pure ({ disk with blockDb := db }, .serving label .finishBalances)
  | .finishBalances, .none => do
    let db ← disk.trackerDb.finishBalances
    pure ({ disk with trackerDb := db }, .serving label .reloadLedger)
  | .reloadLedger, .none => pure (disk, .serving label .enterInactive)
  | .enterInactive, .none =>
    pure ({ disk with trackerDb := disk.trackerDb.setState .inactive }, .idle)
  | .abort, .none =>
    pure ({ disk with trackerDb := disk.trackerDb.resetStagingBalances rules false }, .idle)
  | _, _ => throw .unexpected

/-- Where the service goes on after an error: another attempt while some are left, or `abort`. The
same places are left for `abort` on the operator's demand. -/
def Pc.onError (label : Option Label) : Pc Block → List (Process Block Label)
  | .download _ => [.serving label .resetStaging, .serving label .abort]
  | .latestBlock => [.serving label .latestBlock, .serving label .abort]
  | .storeBalancesRound _ => [.serving label .latestBlock, .serving label .abort]
  | .storeFirstBlock _ => [.serving label .latestBlock, .serving label .abort]
  | .enterBlocksDownload => [.serving label .latestBlock, .serving label .abort]
  | .fetch top prev blocksFetched =>
    [.serving label (.fetch top prev blocksFetched), .serving label .abort]
  | .storeBlock top prev _ blocksFetched =>
    [.serving label (.fetch top prev blocksFetched), .serving label .abort]
  | .abort => [.idle]
  | _ => [.serving label .abort]

/-! ### Runs of a node -/

structure Node (Block Accounts Totals Label : Type) where
  disk : Disk Block Accounts Totals Label
  process : Process Block Label

/-- A node that starts resumes the stage it finds in its database, if any. -/
def Disk.resume (disk : Disk Block Accounts Totals Label) : Process Block Label :=
  match disk.trackerDb.state with
  | .inactive => .idle
  | state => .serving disk.trackerDb.label state.entry

inductive Event (Block : Type)
  | commit (pc : Pc Block)
  | fail (pc : Pc Block)
  | crash (pc : Option (Pc Block))
  | restart

def Process.pc : Process Block Label → Option (Pc Block)
  | .down => none
  | .idle => none
  | .serving _ pc => some pc

inductive Step [DecidableEq Label] (rules : Rules Block Accounts Totals Batch Label) :
    Node Block Accounts Totals Label → List (Event Block) → Node Block Accounts Totals Label → Prop
  | commit {disk disk' : Disk Block Accounts Totals Label} {label : Option Label} {pc : Pc Block}
      {process : Process Block Label} (input : Input Block Totals Batch)
      (hrun : pc.run rules label disk input = .ok (disk', process)) :
      Step rules ⟨disk, .serving label pc⟩ [.commit pc] ⟨disk', process⟩
  | fail {disk : Disk Block Accounts Totals Label} {label : Option Label} {pc : Pc Block}
      {process : Process Block Label} (hmem : process ∈ pc.onError label) :
      Step rules ⟨disk, .serving label pc⟩ [.fail pc] ⟨disk, process⟩
  | crash (disk : Disk Block Accounts Totals Label) (process : Process Block Label) :
      Step rules ⟨disk, process⟩ [.crash process.pc] ⟨disk, .down⟩
  | restart (disk : Disk Block Accounts Totals Label) :
      Step rules ⟨disk, .down⟩ [.restart] ⟨disk, disk.resume⟩

/-- The catch-up to `label` as an operator starts it on a node in normal operation. -/
def Node.start (disk : Disk Block Accounts Totals Label) (label : Label) :
    Node Block Accounts Totals Label :=
  { disk := disk
    process := .serving (some label) .setLabel }

/-! ### Schedules -/

/-- One choice of the environment: a step that goes through, the `i`th way on from an error, or a
restart. -/
inductive Action (Block Totals Batch : Type)
  | run (input : Input Block Totals Batch)
  | fail (i : ℕ)
  | crash
  | restart

def Node.act [DecidableEq Label] (rules : Rules Block Accounts Totals Batch Label)
    (node : Node Block Accounts Totals Label) :
    Action Block Totals Batch → Option (Node Block Accounts Totals Label × Event Block)
  | .run input =>
    match node.process with
    | .serving label pc =>
      match pc.run rules label node.disk input with
      | .ok (disk, process) => some (⟨disk, process⟩, .commit pc)
      | .error _ => none
    | _ => none
  | .fail i =>
    match node.process with
    | .serving label pc => ((pc.onError label)[i]?).map fun process =>
        (⟨node.disk, process⟩, .fail pc)
    | _ => none
  | .crash => some (⟨node.disk, .down⟩, .crash node.process.pc)
  | .restart =>
    match node.process with
    | .down => some (⟨node.disk, node.disk.resume⟩, .restart)
    | _ => none

def Node.acts [DecidableEq Label] (rules : Rules Block Accounts Totals Batch Label)
    (node : Node Block Accounts Totals Label) : List (Action Block Totals Batch) →
      Option (Node Block Accounts Totals Label × List (Event Block))
  | [] => some (node, [])
  | action :: actions => do
    let (node, e) ← node.act rules action
    let (node, events) ← node.acts rules actions
    pure (node, e :: events)

variable {rules : Rules Block Accounts Totals Batch Label}
  {node node' : Node Block Accounts Totals Label}

theorem Node.act_step [DecidableEq Label] {action : Action Block Totals Batch} {e : Event Block}
    (h : node.act rules action = some (node', e)) : Step rules node [e] node' := by
  obtain ⟨ds, pr⟩ := node
  cases action with
  | run ip =>
    cases pr with
    | serving lb pc =>
      simp only [act] at h
      split at h
      next disk' pr' hr =>
        cases h
        exact .commit ip hr
      next => cases h
    | _ => cases h
  | fail i =>
    cases pr with
    | serving lb pc =>
      simp only [act, Option.map_eq_some_iff] at h
      obtain ⟨pr', hg, h⟩ := h
      cases h
      exact .fail (List.mem_of_getElem? hg)
    | _ => cases h
  | crash =>
    cases h
    exact .crash ds pr
  | restart =>
    cases pr with
    | down =>
      cases h
      exact .restart ds
    | _ => cases h

/-- What a schedule does is a run. -/
theorem Node.acts_steps [DecidableEq Label] {actions : List (Action Block Totals Batch)}
    {events : List (Event Block)} (h : node.acts rules actions = some (node', events)) :
    Steps (Step rules) node events node' := by
  induction actions generalizing node events with
  | nil =>
    cases h
    exact .refl _
  | cons _ actions ih =>
    simp only [acts, Option.bind_eq_bind, Option.bind_eq_some_iff] at h
    obtain ⟨⟨_, e⟩, ha, ⟨_, _⟩, hc, hp⟩ := h
    cases hp
    exact (Steps.head (act_step ha) (ih hc))

end Novarand.Catchup
