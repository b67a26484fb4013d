import Novarand.Ledger.Applications

/-!
# The virtual machine of an application call

The evaluation of a program by `eval` of `data/transactions/logic`, as far as it touches anything
outside its own stack: the cost of its instructions, its writes to the storage of the application with
the `EvalDelta` that is kept beside them, and the inner transactions it builds and submits. What the
instructions compute is a parameter (`Machine`): a program is any machine that gives, from its own
state, the next instruction, and that is told what the ledger and the parameters of the evaluation are.

The parameters of a group (`EvalParams`) hold the counters that all programs of the group share.
`Meter` is a history kept beside them, which nothing reads.

A program may loop, so its evaluation is given a number of instructions it may execute (`script`).
-/

namespace Novarand.Ledger

/-! ## Deltas -/

/-- `basics.StateDelta`: the new value of a key, `none` for one that was deleted. -/
abbrev KeyDelta := Dict Bytes (Option TealValue)

/-- `transactions.EvalDelta`. -/
inductive CallDelta
  | mk (globalDelta : KeyDelta) (localDeltas : Dict ℕ KeyDelta) (logs : List Bytes)
      (innerTxns : List (Transaction × ApplyData × CallDelta))

namespace CallDelta

def empty : CallDelta := .mk ∅ ∅ [] []

def globalDelta : CallDelta → KeyDelta
  | .mk g _ _ _ => g

def localDeltas : CallDelta → Dict ℕ KeyDelta
  | .mk _ l _ _ => l

def logs : CallDelta → List Bytes
  | .mk _ _ logs _ => logs

def innerTxns : CallDelta → List (Transaction × ApplyData × CallDelta)
  | .mk _ _ _ inner => inner

variable (d : CallDelta)

/-- The start of `eval`: the logs and the inner transactions are not touched. -/
def clearKeys : CallDelta := .mk ∅ ∅ d.logs d.innerTxns

def recordGlobal (key : Bytes) (value : Option TealValue) : CallDelta :=
  .mk (d.globalDelta.upsert key value) d.localDeltas d.logs d.innerTxns

def recordLocal (i : ℕ) (key : Bytes) (value : Option TealValue) : CallDelta :=
  .mk d.globalDelta
    (d.localDeltas.upsert i ((d.localDeltas.getD i ∅).upsert key value)) d.logs d.innerTxns

def addLog (log : Bytes) : CallDelta :=
  .mk d.globalDelta d.localDeltas (d.logs ++ [log]) d.innerTxns

def addInner (txns : List (Transaction × ApplyData × CallDelta)) : CallDelta :=
  .mk d.globalDelta d.localDeltas d.logs (d.innerTxns ++ txns)

end CallDelta

/-! ## The parameters of a group -/

/-- A transaction of `TxnGroup`, whose `EvalDelta` is kept as `delta`. -/
structure GroupTxn where
  txn : Transaction
  ad : ApplyData := {}
  delta : CallDelta := .empty

/-- What the evaluation of a group has done so far. -/
structure Meter where
  /-- The cost of all instructions executed. -/
  spent : ℕ := 0
  /-- The least value the pooled budget had after an instruction was paid. -/
  lowest : ℤ := 0
  /-- The inner transactions that were submitted. -/
  submitted : List Transaction := []
  /-- The applications of each call chain whose innermost program was started, innermost first. -/
  chains : List (List AppIndex) := []
  /-- The fee credit at each submission, with the inner transactions submitted so far. -/
  credits : List (ℕ × List Transaction) := []
  /-- An addition of fees has saturated. -/
  saturated : Bool := false
  exhausted : Bool := false

structure EvalParams where
  proto : ConsensusParams
  specials : SpecialAddresses := {}
  txnGroup : List GroupTxn
  pooledApplicationBudget : Option ℤ
  pooledAllowedInners : Option ℤ
  feeCredit : ℕ
  /-- `created.apps`. -/
  createdApps : List AppIndex := []
  meter : Meter := {}

/-- An application call. -/
def Transaction.IsCall (tx : Transaction) : Prop := tx.type = .applicationCall

instance : DecidablePred Transaction.IsCall := fun tx => decEq tx.type .applicationCall

def totalFees (txns : List Transaction) : ℕ := (txns.map (·.fee)).sum

/-- The fees of a list of transactions, added up with `AddSaturate`. -/
def feesPaid (txns : List Transaction) : ℕ := txns.foldl (fun paid tx => addSaturate paid tx.fee) 0

/-- `feeCredit`: the difference wraps. -/
def feeCredit (txns : List Transaction) (minFee : ℕ) : ℕ :=
  let feeNeeded := minFee * txns.countP (·.type ≠ .compactCert) % 2 ^ 64
  (feesPaid txns + (2 ^ 64 - feeNeeded)) % 2 ^ 64

namespace EvalParams

/-- `NewEvalParams`. -/
def new (txgroup : List SignedTxn) (proto : ConsensusParams) (specials : SpecialAddresses) :
    EvalParams :=
  let txns := txgroup.map (·.txn)
  let apps := txns.countP Transaction.IsCall
  { proto
    specials
    txnGroup := txns.map fun txn => { txn }
    pooledApplicationBudget :=
      if proto.enableAppCostPooling ∧ 0 < apps then some (apps * proto.maxAppProgramCost) else none
    pooledAllowedInners :=
      if proto.enableInnerTransactionPooling ∧ 0 < apps then
        some (proto.maxTxGroupSize * proto.maxInnerTransactions)
      else none
    feeCredit := Ledger.feeCredit txns proto.minTxnFee
    meter := { saturated := decide (2 ^ 64 ≤ totalFees txns) } }

variable (ep : EvalParams)

variable (gi : ℕ)

def entry : GroupTxn := (ep.txnGroup[gi]?).getD { txn := {} }

def txn : Transaction := (ep.entry gi).txn

def modifyEntry (f : GroupTxn → GroupTxn) : EvalParams :=
  { ep with txnGroup := ep.txnGroup.modify gi f }

def modifyDelta (f : CallDelta → CallDelta) : EvalParams :=
  ep.modifyEntry gi fun t => { t with delta := f t.delta }

/-- A clear state program, which is kept apart from the others of its group. -/
def Isolated : Prop :=
  ep.proto.isolateClearState = true ∧ (ep.txn gi).onCompletion = .clearState

instance (gi : ℕ) : Decidable (ep.Isolated gi) := inferInstanceAs (Decidable (_ ∧ _))

/-- The price of an instruction. -/
def charge (cost : ℕ) : EvalParams :=
  { ep with
    pooledApplicationBudget := ep.pooledApplicationBudget.map (· - cost)
    meter := { ep.meter with
      spent := ep.meter.spent + cost
      lowest := min ep.meter.lowest ((ep.pooledApplicationBudget.map (· - (cost : ℤ))).getD 0) } }

def remainingInners : ℤ :=
  if ep.proto.enableInnerTransactionPooling then
    ep.pooledAllowedInners.getD
      (ep.proto.maxInnerTransactions - (ep.entry gi).delta.innerTxns.length)
  else ep.proto.maxInnerTransactions - (ep.entry gi).delta.innerTxns.length

/-- The innermost program of a call chain is started. -/
def enter (chain : List AppIndex) : EvalParams :=
  { ep with meter := { ep.meter with chains := ep.meter.chains ++ [chain] } }

def exhaust : EvalParams := { ep with meter := { ep.meter with exhausted := true } }

/-- The fee check of `itxn_submit` over the whole group. -/
def payGroup (subtxns : List Transaction) : Ran EvalParams Unit :=
  let groupFee := mulSaturate ep.proto.minTxnFee subtxns.length
  let groupPaid := feesPaid subtxns
  if groupPaid < groupFee then
    let shortfall := groupFee - groupPaid
    if ep.feeCredit < shortfall then (ep, .error (.avm (.feeTooSmall groupPaid groupFee)))
    else ({ ep with feeCredit := ep.feeCredit - shortfall }, .ok ())
  else
    let overpay := groupPaid - groupFee
    ({ ep with
      feeCredit := addSaturate ep.feeCredit overpay
      meter := { ep.meter with
        saturated := ep.meter.saturated ||
          decide (2 ^ 64 ≤ totalFees subtxns ∨ 2 ^ 64 ≤ ep.feeCredit + overpay) } }, .ok ())

/-- `NewInnerEvalParams`, after the allowed inner transactions were counted down. -/
def inner (subtxns : List Transaction) : EvalParams :=
  { ep with
    txnGroup := subtxns.map fun txn => { txn }
    pooledAllowedInners := ep.pooledAllowedInners.map (· - subtxns.length)
    pooledApplicationBudget :=
      if ep.proto.enableAppCostPooling then
        ep.pooledApplicationBudget.map
          (· + (subtxns.countP Transaction.IsCall * ep.proto.maxAppProgramCost : ℕ))
      else ep.pooledApplicationBudget
    meter := { ep.meter with
      submitted := ep.meter.submitted ++ subtxns
      credits := ep.meter.credits ++ [(ep.feeCredit, ep.meter.submitted ++ subtxns)] } }

/-- The parameters of the caller, with the counters its inner transactions left. -/
def resume (inner : EvalParams) : EvalParams :=
  { ep with
    pooledApplicationBudget := inner.pooledApplicationBudget
    pooledAllowedInners := inner.pooledAllowedInners
    feeCredit := inner.feeCredit
    createdApps := inner.createdApps
    meter := inner.meter }

/-- The caller's parameters after a submission. -/
def finishSubmit (inner : EvalParams) : EvalParams :=
  (ep.resume inner).modifyDelta gi fun d =>
    d.addInner (inner.txnGroup.map fun t => (t.txn, t.ad, t.delta))

/-- `RecordAD` adds to what was created in the group. -/
def noteCreated (ad : ApplyData) : EvalParams :=
  if ad.applicationID = 0 then ep
  else { ep with createdApps := ep.createdApps ++ [ad.applicationID] }

end EvalParams

/-! ## Instructions -/

/-- How a program names an account. -/
inductive AccountRef
  | index (i : ℕ)
  | address (addr : Address)
  deriving DecidableEq

/-- What an instruction does outside the stack, and the state of the program after it. -/
inductive Effect (σ : Type)
  | next (s : σ)
  /-- Anything that reads the ledger, the group or the counters. -/
  | read (k : LedgerForLogic → EvalParams → Except EvalError σ)
  | localPut (account : AccountRef) (key : Bytes) (value : TealValue) (s : σ)
  | localDel (account : AccountRef) (key : Bytes) (s : σ)
  | globalPut (key : Bytes) (value : TealValue) (s : σ)
  | globalDel (key : Bytes) (s : σ)
  | log (bytes : Bytes) (s : σ)
  | txBegin (s : σ)
  | txNext (s : σ)
  /-- `itxn_field` sets a field of the last transaction that is being built. -/
  | txField (set : LedgerForLogic → EvalParams → Transaction → Except EvalError Transaction) (s : σ)
  | txSubmit (s : σ)

/-- The next instruction: every opcode costs something. -/
inductive Instruction (σ : Type)
  /-- The program is at its end, or stops before its next instruction is paid. -/
  | finished (passed : Except EvalError Bool)
  | op (cost : ℕ) (cost_pos : 0 < cost) (effect : Effect σ)

/-- The instructions of all programs, and the functions that applications and inner transactions are
described by elsewhere. -/
structure Machine where
  State : Type
  /-- The version of a program and the state it starts in, or the error of `versionCheck`. -/
  start : Bytes → EvalParams → Except EvalError (ℕ × State)
  fetch : State → Instruction State
  appAddress : AppIndex → Address
  programVersion : Bytes → Except EvalError ℕ
  wellFormed : Transaction → SpecialAddresses → ConsensusParams → Except EvalError Unit
  txid : Transaction → Txid
  innerID : Txid → ℕ → Transaction → Digest
  groupHash : List Digest → Digest
  checkContractVersions : Bytes → Bytes → AppParams → Except EvalError Unit
  checkContract : Bytes → EvalParams → Except EvalError Unit
  encodeDelta : CallDelta → EvalDelta
  decodeDelta : EvalDelta → CallDelta

/-- `EvalContext`. -/
structure Context (σ : Type) where
  gi : ℕ
  appID : AppIndex
  /-- The applications of the `caller` chain, innermost first. -/
  callers : List AppIndex
  version : ℕ
  state : σ
  subtxns : List Transaction := []
  cost : ℕ := 0
  logSize : ℕ := 0

namespace Context

variable {σ : Type} (cx : Context σ)

def pay (cost : ℕ) : Context σ := { cx with cost := cx.cost + cost }

def remainingBudget (ep : EvalParams) : ℤ :=
  if ep.Isolated cx.gi then ep.proto.maxAppProgramCost - cx.cost
  else ep.pooledApplicationBudget.getD (ep.proto.maxAppProgramCost - cx.cost)

end Context

def innerAppsEnabledVersion : ℕ := 6
def createdResourcesVersion : ℕ := 6
def maxLogCalls : ℕ := 32
def maxLogSize : ℕ := 1024

def Transaction.addressByIndex (tx : Transaction) (i : ℕ) : Except EvalError Address :=
  if i = 0 then pure tx.sender
  else orThrow (.avm (.invalidIndex i)) tx.accounts[i - 1]?

namespace Machine

variable (m : Machine)

section Instructions

variable (cx : Context m.State) (ep : EvalParams)

/-- `accountReference`: the index is one too many for an account that the call does not list. -/
def accountReference : AccountRef → Except EvalError (Address × ℕ)
  | .index i => do return (← (ep.txn cx.gi).addressByIndex i, i)
  | .address addr =>
    match (ep.txn cx.gi).indexByAddress addr with
    | .ok i => pure (addr, i)
    | .error e =>
      if createdResourcesVersion ≤ cx.version ∧ ∃ aidx ∈ ep.createdApps, m.appAddress aidx = addr then
        pure (addr, (ep.txn cx.gi).accounts.length + 1)
      else if m.appAddress cx.appID = addr then pure (addr, (ep.txn cx.gi).accounts.length + 1)
      else throw e

def mutableAccountReference (account : AccountRef) : Except EvalError (Address × ℕ) := do
  let (addr, i) ← m.accountReference cx ep account
  failIf ((ep.txn cx.gi).accounts.length < i) (.avm (.notMutable addr))
  return (addr, i)

variable (l : LedgerForLogic)

/-- `app_local_put`: the write, and the delta it is recorded in unless it changes nothing. -/
def opAppLocalPut (account : AccountRef) (key : Bytes) (value : TealValue) :
    Except EvalError (LedgerWrite × EvalParams) := do
  let (addr, i) ← m.mutableAccountReference cx ep account
  let old ← l.getLocal addr cx.appID key
  return (.setLocal addr key value,
    if old = some value then ep else ep.modifyDelta cx.gi (·.recordLocal i key (some value)))

def opAppLocalDel (account : AccountRef) (key : Bytes) :
    Except EvalError (LedgerWrite × EvalParams) := do
  let (addr, i) ← m.mutableAccountReference cx ep account
  return (.delLocal addr key,
    match l.getLocal addr cx.appID key with
    | .ok (some _) => ep.modifyDelta cx.gi (·.recordLocal i key none)
    | _ => ep)

def opAppGlobalPut (key : Bytes) (value : TealValue) :
    Except EvalError (LedgerWrite × EvalParams) := do
  let old ← l.getGlobal cx.appID key
  return (.setGlobal key value,
    if old = some value then ep else ep.modifyDelta cx.gi (·.recordGlobal key (some value)))

def opAppGlobalDel (key : Bytes) : LedgerWrite × EvalParams :=
  (.delGlobal key,
    match l.getGlobal cx.appID key with
    | .ok (some _) => ep.modifyDelta cx.gi (·.recordGlobal key none)
    | _ => ep)

def opLog (bytes : Bytes) : Except EvalError (Context m.State × EvalParams) := do
  failIf (maxLogCalls ≤ (ep.entry cx.gi).delta.logs.length) (.avm .tooManyLogs)
  let logSize := cx.logSize + bytes.length
  failIf (maxLogSize < logSize) (.avm (.logsTooLarge logSize))
  return ({ cx with logSize }, ep.modifyDelta cx.gi (·.addLog bytes))

/-! ### Inner transactions -/

/-- `addInnerTxn`: the default fee is what the group still lacks. -/
def addInnerTxn : Except EvalError (List Transaction) := do
  failIf (ep.remainingInners cx.gi < cx.subtxns.length ∨ ep.proto.maxTxGroupSize ≤ cx.subtxns.length)
    (.avm (.tooManyInners cx.subtxns.length (ep.remainingInners cx.gi)))
  let groupFee := mulSaturate ep.proto.minTxnFee (cx.subtxns.length + 1)
  let groupPaid := feesPaid cx.subtxns
  let fee := if groupPaid < groupFee then subSaturate (groupFee - groupPaid) ep.feeCredit else 0
  return cx.subtxns ++ [{
    sender := m.appAddress cx.appID
    fee
    firstValid := (ep.txn cx.gi).firstValid
    lastValid := (ep.txn cx.gi).lastValid }]

def opTxBegin : Except EvalError (List Transaction) := do
  failIf (cx.subtxns ≠ []) (.avm .beginWithoutSubmit)
  failIf (ep.Isolated cx.gi) (.avm .clearStateInner)
  m.addInnerTxn cx ep

def opTxNext : Except EvalError (List Transaction) := do
  failIf (cx.subtxns = []) (.avm .nextWithoutBegin)
  m.addInnerTxn cx ep

def opTxField (set : Transaction → Except EvalError Transaction) :
    Except EvalError (List Transaction) :=
  match cx.subtxns.getLast? with
  | none => throw (.avm .fieldWithoutBegin)
  | some tx => do return cx.subtxns.dropLast ++ [← set tx]

def authorizedSender (addr : Address) : Except EvalError Unit :=
  failIf (m.appAddress cx.appID ≠ l.authorizer addr)
    (.avm (.unauthorized cx.appID (l.authorizer addr)))

/-- The checks of `itxn_submit` on one transaction. -/
def checkSubtxn (tx : Transaction) : Except EvalError Unit := do
  m.authorizedSender cx l tx.sender
  m.wellFormed tx ep.specials ep.proto
  checkReentrancy (cx.appID :: cx.callers) tx
  if tx.IsCall then
    let program ← if tx.applicationID = 0 then pure tx.approvalProgram
      else (l.appParams tx.applicationID).map (·.1.approvalProgram)
    let version ← m.programVersion program
    failIf (version < innerAppsEnabledVersion) (.avm (.innerAppVersion version))
  else pure ()

/-- The transactions of a submission with their group. -/
def groupSubtxns : List Transaction :=
  if 1 < cx.subtxns.length then
    let innerOffset := (ep.entry cx.gi).delta.innerTxns.length
    let group := m.groupHash (cx.subtxns.map fun tx =>
      m.innerID (m.txid (ep.txn cx.gi)) innerOffset tx)
    cx.subtxns.map fun tx => { tx with group }
  else cx.subtxns

/-- `itxn_submit` up to where the transactions are performed: the caller's parameters and whether
they may be. -/
def opTxSubmit : Ran EvalParams Unit :=
  if ep.remainingInners cx.gi < cx.subtxns.length ∨ ep.proto.maxTxGroupSize < cx.subtxns.length then
    (ep, .error (.avm (.tooManyInners cx.subtxns.length (ep.remainingInners cx.gi))))
  else if cx.subtxns = [] then (ep, .error (.avm .submitWithoutBegin))
  else (ep.payGroup cx.subtxns).bind fun ep _ => (ep, cx.subtxns.forM (m.checkSubtxn cx ep l))

end Instructions

/-! ## Programs -/

/-- An instruction that fails ends the program. -/
def attempt {α : Type} (ep : EvalParams) (r : Except EvalError α) (k : α → Script EvalParams) :
    Script EvalParams :=
  match r with
  | .error e => .ret (.error e) ep
  | .ok a => k a

/-- What an instruction does once it is paid; `k` is the rest of the program. -/
def execute (k : Context m.State → EvalParams → Script EvalParams) (cx : Context m.State)
    (ep : EvalParams) : Effect m.State → Script EvalParams
  | .next s => k { cx with state := s } ep
  | .read f => .read fun l => attempt ep (f l ep) fun s => k { cx with state := s } ep
  | .localPut account key value s => .read fun l =>
    attempt ep (m.opAppLocalPut cx ep l account key value) (write s)
  | .localDel account key s => .read fun l =>
    attempt ep (m.opAppLocalDel cx ep l account key) (write s)
  | .globalPut key value s => .read fun l =>
    attempt ep (m.opAppGlobalPut cx ep l key value) (write s)
  | .globalDel key s => .read fun l => write s (m.opAppGlobalDel cx ep l key)
  | .log bytes s => attempt ep (m.opLog cx ep bytes) fun (cx, ep) => k { cx with state := s } ep
  | .txBegin s => attempt ep (m.opTxBegin cx ep) fun subtxns => k { cx with state := s, subtxns } ep
  | .txNext s => attempt ep (m.opTxNext cx ep) fun subtxns => k { cx with state := s, subtxns } ep
  | .txField set s => .read fun l =>
    attempt ep (m.opTxField cx (set l ep)) fun subtxns => k { cx with state := s, subtxns } ep
  | .txSubmit s => .read fun l =>
    match m.opTxSubmit cx ep l with
    | (ep, .error e) => .ret (.error e) ep
    | (ep, .ok _) =>
      .submit (m.groupSubtxns cx ep) (ep.inner (m.groupSubtxns cx ep))
        (fun _ inner => ep.resume inner)
        fun inner => k { cx with state := s, subtxns := [] } (ep.finishSubmit cx.gi inner)
where
  write (s : m.State) : LedgerWrite × EvalParams → Script EvalParams
    | (w, ep) => .write w (fun _ => ep) (k { cx with state := s } ep)

/-- The evaluation of a program that may still execute `fuel` instructions. An instruction that is
too expensive is not executed, and costs nothing. -/
def script : ℕ → Context m.State → EvalParams → Script EvalParams
  | 0, _, ep => .ret (.error (.avm .outOfFuel)) ep.exhaust
  | fuel + 1, cx, ep =>
    match m.fetch cx.state with
    | .finished passed => .ret passed ep
    | .op cost _ effect =>
      if (cx.pay cost).remainingBudget (ep.charge cost) < 0 then
        .ret (.error (.avm (.budgetExceeded cx.cost))) ep
      else m.execute (script fuel) (cx.pay cost) (ep.charge cost) effect

def evalContract (fuel : ℕ) (program : Bytes) (gi : ℕ) (aidx : AppIndex) (callers : List AppIndex)
    (ep : EvalParams) : Script EvalParams :=
  if aidx = 0 then .ret (.error (.avm .zeroAppID)) ep
  else if ep.Isolated gi ∧
      ∃ budget ∈ ep.pooledApplicationBudget, budget < ep.proto.maxAppProgramCost then
    .ret (.error .clearStateBudget) ep
  else match m.start program ep with
    | .error e => .ret (.error e) ep
    | .ok (version, state) =>
      m.script fuel { gi, appID := aidx, callers, version, state }
        ((ep.enter (aidx :: callers)).modifyDelta gi .clearKeys)

/-! ## What programs submit -/

section Submissions

variable {m} {x : BlockContext} {cx : Context m.State} {ep ep' : EvalParams} {l : LedgerForLogic}
  {c : Cow} {u : Unit}

theorem opTxSubmit_ok (h : m.opTxSubmit cx ep l = (ep', .ok u)) :
    (cx.subtxns.length : ℤ) ≤ ep.remainingInners cx.gi ∧
      cx.subtxns.length ≤ ep.proto.maxTxGroupSize ∧ cx.subtxns ≠ [] ∧
      ep.payGroup cx.subtxns = (ep', .ok ()) ∧ ∀ tx ∈ cx.subtxns, m.checkSubtxn cx ep' l tx = .ok () := by
  unfold opTxSubmit at h
  split_ifs at h with ht hn
  · cases h
  · cases h
  · obtain ⟨_, ⟨⟩, hp, hh⟩ := Ran.bind_ok.mp h
    obtain ⟨rfl, hf⟩ := Prod.mk.inj hh
    exact ⟨not_lt.mp fun hl => ht (.inl hl), not_lt.mp fun hl => ht (.inr hl), hn, hp,
      forM_ok_iff.mp hf⟩

/-- Every transaction of a submission was checked, before it got its group. -/
theorem submitted_checked {tx : Transaction} (h : m.opTxSubmit cx ep l = (ep', .ok u))
    (ht : tx ∈ m.groupSubtxns cx ep') :
    (m.authorizedSender cx l tx.sender = .ok ()) ∧
      checkReentrancy (cx.appID :: cx.callers) tx = .ok () := by
  obtain ⟨-, -, -, -, hc⟩ := opTxSubmit_ok h
  have hs : ∀ tx' ∈ cx.subtxns, m.authorizedSender cx l tx'.sender = .ok () ∧
      checkReentrancy (cx.appID :: cx.callers) tx' = .ok () := by
    intro tx' hm
    have ho := hc tx' hm
    simp only [checkSubtxn, bind_ok] at ho
    obtain ⟨⟨⟩, ha, ⟨⟩, -, ⟨⟩, hr, -⟩ := ho
    exact ⟨ha, hr⟩
  unfold groupSubtxns at ht
  split_ifs at ht
  · obtain ⟨tx', hm, rfl⟩ := List.mem_map.mp ht
    exact hs tx' hm
  · exact hs tx ht

variable {inv : Cow → Prop} {q : Cow → List Transaction → Prop} {aidx : AppIndex}
  {callers : List AppIndex}

/-- What the rest of a program submits is as `q` says, from any point it is continued at. -/
def Always (m : Machine) (x : BlockContext) (inv : Cow → Prop) (q : Cow → List Transaction → Prop)
    (aidx : AppIndex) (callers : List AppIndex)
    (k : Context m.State → EvalParams → Script EvalParams) : Prop :=
  ∀ cx ep c, cx.appID = aidx → cx.callers = callers → inv c → (k cx ep).Always x inv q c

variable (hq : ∀ cx ep ep' u c, cx.appID = aidx → cx.callers = callers → inv c →
  m.opTxSubmit cx ep (c.logicLedger x) = (ep', .ok u) → q c (m.groupSubtxns cx ep'))
include hq

theorem Always.execute {k : Context m.State → EvalParams → Script EvalParams}
    (hk : m.Always x inv q aidx callers k) (ha : cx.appID = aidx) (hc : cx.callers = callers)
    (hi : inv c) (effect : Effect m.State) : (m.execute k cx ep effect).Always x inv q c := by
  have ht : ∀ {α : Type} {r : Except EvalError α} {f : α → Script EvalParams},
      (∀ a, r = .ok a → (f a).Always x inv q c) → (attempt ep r f).Always x inv q c := by
    intro α r f hf
    cases r with
    | error e => trivial
    | ok a => exact hf a rfl
  cases effect with
  | next | globalDel => first
    | exact hk _ ep c ha hc hi
    | exact fun c hi => hk _ _ c ha hc hi
  | read | txField | txBegin | txNext => exact ht fun _ _ => hk _ ep c ha hc hi
  | localPut | localDel | globalPut => exact ht fun _ _ c hi => hk _ _ c ha hc hi
  | log _ st =>
    refine ht fun a ho => ?_
    simp only [opLog, bind_ok, pure_ok] at ho
    obtain ⟨_, -, _, -, rfl⟩ := ho
    exact hk _ _ c ha hc hi
  | txSubmit st =>
    simp only [Machine.execute, Script.Always]
    split
    · trivial
    · rename_i ep1 u hs
      exact ⟨hq cx ep ep1 u c ha hc hi hs, fun _ c hi => hk _ _ c ha hc hi⟩

/-- A program, by induction on the instructions it may still execute. -/
theorem script_always (fuel : ℕ) : m.Always x inv q aidx callers (m.script fuel) := by
  induction fuel with
  | zero => exact fun _ _ _ _ _ _ => trivial
  | succ fuel ih =>
    intro cx ep c ha hc hi
    simp only [script]
    split
    · trivial
    · split_ifs
      · trivial
      · exact Always.execute hq ih (by exact ha) (by exact hc) hi _

theorem evalContract_always (hi : inv c) (fuel : ℕ) (program : Bytes) (gi : ℕ) :
    (m.evalContract fuel program gi aidx callers ep).Always x inv q c := by
  unfold evalContract
  split_ifs
  · trivial
  · trivial
  · split
    · trivial
    · exact script_always hq fuel _ _ c rfl rfl hi

end Submissions

/-- `RecordAD`. -/
def recordAD (ep : EvalParams) (gi : ℕ) (ad : ApplyData) : EvalParams :=
  (ep.modifyEntry gi fun t => { t with
    ad := { ad with evalDelta := [] }
    delta := m.decodeDelta ad.evalDelta }).noteCreated ad

/-- The apply data of an inner transaction is where its programs have written their delta. -/
def setAD (ep : EvalParams) (gi : ℕ) (ad : ApplyData) : EvalParams :=
  ep.modifyEntry gi fun t => { t with ad := { ad with evalDelta := [] } }

/-- The machine as the ledger uses it, each program with a number of instructions. -/
def avm (fuel : ℕ) : Avm EvalParams where
  newEvalParams := EvalParams.new
  recordAD := m.recordAD
  recordInner ep gi ad := (setAD ep gi ad).noteCreated ad
  setAD := setAD
  checkContractVersions := m.checkContractVersions
  checkContract := m.checkContract
  evalContract := m.evalContract fuel
  checked program gi aidx callers ep x c := by
    refine evalContract_always (fun cx _ _ _ _ ha hc _ hs tx ht => ?_) trivial fuel program gi
    rw [← ha, ← hc]
    exact (submitted_checked hs ht).2
  evalDelta ep gi := m.encodeDelta (ep.entry gi).delta
  encodeDelta globalDelta localDeltas ep gi := m.encodeDelta (.mk
    (globalDelta.foldl (fun d e => d.upsert e.1 e.2) ∅)
    (localDeltas.foldl (fun d e => d.upsert e.1 (e.2.foldl (fun d e => d.upsert e.1 e.2) ∅)) ∅)
    (ep.entry gi).delta.logs (ep.entry gi).delta.innerTxns)

end Machine

end Novarand.Ledger
