import Novarand.Ledger.Apply

/-!
# Application calls

`ApplicationCall` of `ledger/apply`, the evaluation of programs in a child state (`StatefulEval`) and
the inner transactions that programs submit (`Perform`).

The virtual machine itself is a parameter (`Avm`): a program is evaluated to a `Script`, which reads
the ledger, writes the storage of its application and submits inner transactions, until it ends. The
evaluation parameters of a group, with their pools and caches, are the machine's business, and of a
type `P` it chooses; they outlive a failed program, whose state does not.
-/

namespace Novarand.Ledger

/-! ## What programs see of the ledger -/

/-- `LedgerForLogic`, as far as it reads. -/
structure LedgerForLogic where
  accountData : Address → Except EvalError AccountData
  authorizer : Address → Address
  assetHolding : Address → AssetIndex → Except EvalError AssetHolding
  assetParams : AssetIndex → Except EvalError (AssetParams × Address)
  appParams : AppIndex → Except EvalError (AppParams × Address)
  round : Round
  latestTimestamp : ℤ
  optedIn : Address → AppIndex → Bool
  getLocal : Address → AppIndex → Bytes → Except EvalError (Option TealValue)
  getGlobal : AppIndex → Bytes → Except EvalError (Option TealValue)
  counter : ℕ

namespace Cow

variable (x : BlockContext)

def fetchAppCreator (aidx : AppIndex) (c : Cow) : Except EvalError Address :=
  orThrow (.appDoesNotExist aidx) (c.getCreator aidx .app)

def logicLedger (c : Cow) : LedgerForLogic where
  accountData addr := c.getWithRewards x addr
  authorizer addr := if (c.lookup addr).authAddr = 0 then addr else (c.lookup addr).authAddr
  assetHolding addr aidx := orThrow (.holdingMissing addr aidx) ((c.lookup addr).assets.lookup aidx)
  assetParams aidx := Apply.getParams aidx c
  appParams aidx := do
    let creator ← c.fetchAppCreator aidx
    let params ← orThrow (.appNotInAccount aidx creator) ((c.lookup creator).appParams.lookup aidx)
    return (params, creator)
  round := x.round
  latestTimestamp := x.prevTimestamp
  optedIn addr aidx := c.allocated { addr, aidx, global := false }
  getLocal addr aidx key := c.getKey { addr, aidx, global := false } key
  getGlobal aidx key := do
    let addr ← c.fetchAppCreator aidx
    c.getKey { addr, aidx, global := true } key
  counter := c.txnCounter

end Cow

/-- A write of a program, to the storage of its own application. -/
inductive LedgerWrite
  | setLocal (addr : Address) (key : Bytes) (value : TealValue)
  | delLocal (addr : Address) (key : Bytes)
  | setGlobal (key : Bytes) (value : TealValue)
  | delGlobal (key : Bytes)

def LedgerWrite.run (x : BlockContext) (aidx : AppIndex) : LedgerWrite → Cow → Except EvalError Cow
  | setLocal addr key value, c => c.setKey x { addr, aidx, global := false } key value
  | delLocal addr key, c => c.delKey { addr, aidx, global := false } key
  | setGlobal key value, c => do
    let addr ← c.fetchAppCreator aidx
    c.setKey x { addr, aidx, global := true } key value
  | delGlobal key, c => do
    let addr ← c.fetchAppCreator aidx
    c.delKey { addr, aidx, global := true } key

/-! ## The virtual machine -/

/-- The evaluation of a program. A write or submission that fails ends it, with the machine's
parameters then. -/
inductive Script (P : Type)
  | ret (passed : Except EvalError Bool) (ep : P)
  | read (k : LedgerForLogic → Script P)
  | write (w : LedgerWrite) (fail : EvalError → P) (k : Script P)
  /-- `itxn_submit`: the inner transactions, the parameters of their group, and how the evaluation
  goes on with the parameters they leave. -/
  | submit (subtxns : List Transaction) (inner : P) (fail : EvalError → P → P) (k : P → Script P)

def maxAppCallDepth : ℕ := 8

/-- The checks of `itxn_submit` on an application call: no application of the call chain is entered
again, and the chain is not too long. -/
def checkReentrancy (callers : List AppIndex) (tx : Transaction) : Except EvalError Unit :=
  if tx.type = .applicationCall then
    match callers with
    | [] => pure ()
    | appID :: parents => do
      failIf (appID = tx.applicationID) .selfCall
      failIf (tx.applicationID ∈ parents) (.reEnter tx.applicationID)
      failIf (maxAppCallDepth ≤ parents.length) .applDepthExceeded
  else pure ()

/-- What the program submits is as `q` says, in every run of it over states where `inv` holds. -/
def Script.Always {P : Type} (x : BlockContext) (inv : Cow → Prop)
    (q : Cow → List Transaction → Prop) : Script P → Cow → Prop
  | .ret _ _, _ => True
  | .read k, c => (k (c.logicLedger x)).Always x inv q c
  | .write _ _ k, _ => ∀ c, inv c → k.Always x inv q c
  | .submit subtxns _ _ k, c => q c subtxns ∧ ∀ ep c, inv c → (k ep).Always x inv q c

/-- Every submission passes the checks for the call chain. -/
def Script.Checked {P : Type} (callers : List AppIndex) (x : BlockContext) : Script P → Cow → Prop :=
  Always x (fun _ => True) fun _ subtxns => ∀ tx ∈ subtxns, checkReentrancy callers tx = .ok ()

structure Avm (P : Type) where
  /-- `NewEvalParams`, which clears the apply data of the group. -/
  newEvalParams : List SignedTxn → ConsensusParams → SpecialAddresses → P
  /-- `RecordAD`. -/
  recordAD : P → ℕ → ApplyData → P
  /-- `RecordAD` of an inner transaction, which has done its work in place. -/
  recordInner : P → ℕ → ApplyData → P
  /-- The apply data of an inner transaction, which is performed in place. -/
  setAD : P → ℕ → ApplyData → P
  checkContractVersions : Bytes → Bytes → AppParams → Except EvalError Unit
  checkContract : Bytes → P → Except EvalError Unit
  /-- `EvalContract` of the program, as the transaction of that index, for that application and its
  callers. -/
  evalContract : Bytes → ℕ → AppIndex → List AppIndex → P → Script P
  /-- `itxn_submit` checks the calls it makes. -/
  checked : ∀ program gi aidx callers ep x c,
    (evalContract program gi aidx callers ep).Checked (aidx :: callers) x c
  /-- The `EvalDelta` that is built as the program goes. -/
  evalDelta : P → ℕ → EvalDelta
  /-- The `EvalDelta` with the changes of the global and the local storages, and the logs and inner
  transactions of the program. -/
  encodeDelta : List (Bytes × Option TealValue) → List (ℕ × List (Bytes × Option TealValue)) → P → ℕ →
    EvalDelta

/-- A computation that leaves evaluation parameters also when it fails. -/
abbrev Ran (P α : Type) := P × Except EvalError α

def Ran.bind {P α β : Type} (r : Ran P α) (f : P → α → Ran P β) : Ran P β :=
  match r with
  | (ep, .ok a) => f ep a
  | (ep, .error e) => (ep, .error e)

theorem Ran.bind_ok {P α β : Type} {r : Ran P α} {f : P → α → Ran P β} {ep' : P} {b : β} :
    r.bind f = (ep', .ok b) ↔ ∃ ep a, r = (ep, .ok a) ∧ f ep a = (ep', .ok b) := by
  obtain ⟨ep, res⟩ := r
  cases res with
  | error e =>
    constructor
    · intro h
      cases h
    · rintro ⟨_, _, h, -⟩
      cases h
  | ok a =>
    constructor
    · intro h
      exact ⟨ep, a, rfl, h⟩
    · rintro ⟨_, _, h, hf⟩
      cases h
      exact hf

/-! ## Evaluating a program -/

section Programs

variable {P : Type} (avm : Avm P) (x : BlockContext)

/-- How an inner transaction is performed: its index, itself, the parameters of its group. -/
abbrev Performer (P : Type) := ℕ → Transaction → P → Cow → Ran P (ApplyData × Cow)

/-- The inner transactions of one submission, one after the other, from the index `i` on. -/
def performGroup (perform : Performer P) : ℕ → List Transaction → P → Cow → Ran P Cow
  | _, [], ep, c => (ep, .ok c)
  | i, tx :: txs, ep, c =>
    (perform i tx ep c).bind fun ep r => performGroup perform (i + 1) txs (avm.recordInner ep i r.1) r.2

/-- Evaluate a script on the state of the program. -/
def runScript (perform : Performer P) (aidx : AppIndex) : Script P → Cow → Ran P (Bool × Cow)
  | .ret (.ok passed) ep, c => (ep, .ok (passed, c))
  | .ret (.error e) ep, _ => (ep, .error e)
  | .read k, c => runScript perform aidx (k (c.logicLedger x)) c
  | .write w fail k, c =>
    match w.run x aidx c with
    | .error e => (fail e, .error e)
    | .ok c => runScript perform aidx k c
  | .submit subtxns inner fail k, c =>
    match performGroup avm perform 0 subtxns inner c with
    | (ep, .error e) => (fail e ep, .error e)
    | (ep, .ok c) => runScript perform aidx (k ep) c

/-- The change of a value, where there is one. -/
def ValueDelta.serialize (v : ValueDelta) : Option (Option TealValue) :=
  if v.old = v.new then none else some v.new

def StorageDelta.serialize (lsd : StorageDelta) : List (Bytes × Option TealValue) :=
  lsd.kvCow.entries.filterMap fun e => e.2.serialize.map fun v => (e.1, v)

def Transaction.indexByAddress (tx : Transaction) (target : Address) : Except EvalError ℕ :=
  if target = tx.sender then pure 0
  else orThrow (.invalidAccountReference target) ((tx.accounts.idxOf? target).map (· + 1))

/-- `BuildEvalDelta`, on the deltas of the state of a program: those of the global storage and those
of the local ones. -/
def buildEvalDelta (aidx : AppIndex) (tx : Transaction) : List (Σ _ : StoragePtr, StorageDelta) →
    Option (List (Bytes × Option TealValue)) → List (ℕ × List (Bytes × Option TealValue)) →
    Except EvalError (List (Bytes × Option TealValue) × List (ℕ × List (Bytes × Option TealValue)))
  | [], globalDelta, localDeltas => pure (globalDelta.getD [], localDeltas)
  | ⟨s, lsd⟩ :: rest, globalDelta, localDeltas => do
    failIf (s.aidx ≠ aidx) (.storageDeltaForOtherApp s.aidx aidx)
    if s.global then
      failIf (globalDelta.isSome) (.moreThanOneGlobalDelta aidx)
      buildEvalDelta aidx tx rest (some lsd.serialize) localDeltas
    else
      let addrOffset ← tx.indexByAddress s.addr
      if x.proto.noEmptyLocalDeltas ∧ lsd.serialize = [] then
        buildEvalDelta aidx tx rest globalDelta localDeltas
      else
        buildEvalDelta aidx tx rest globalDelta ((addrOffset, lsd.serialize) :: localDeltas)

/-- The storage deltas of the top layer. -/
def Cow.sdeltas : Cow → Dict StoragePtr StorageDelta
  | .base _ => ∅
  | .layer _ l => l.sdeltas

/-- The `EvalDelta` of a program that passed. -/
def programDelta (gi : ℕ) (tx : Transaction) (ep : P) (aidx : AppIndex) (calf : Cow) :
    Except EvalError EvalDelta :=
  if x.proto.logicSigVersion < 6 then do
    let (globalDelta, localDeltas) ← buildEvalDelta x aidx tx calf.sdeltas.entries none []
    return avm.encodeDelta globalDelta localDeltas ep gi
  else pure (avm.evalDelta ep gi)

/-- The end of `StatefulEval`: the state of a program that passed is committed. -/
def commitProgram (gi : ℕ) (tx : Transaction) (aidx : AppIndex) (ep : P) (calf : Cow) :
    Except EvalError (EvalDelta × Cow) := do
  let evalDelta ← programDelta avm x gi tx ep aidx calf
  let c ← calf.commitToParent
  return (evalDelta, c)

/-- An error of a program is an evaluation error, but for a budget too small to clear a state. -/
def programError (e : EvalError) : EvalError :=
  if e = .clearStateBudget then .clearStateBudget else .logicEval

/-- `StatefulEval`: the program runs in a child, which is committed if it passes. The result is the
delta and the state of a program that passed. -/
def statefulEval (perform : Performer P) (callers : List AppIndex) (gi : ℕ) (tx : Transaction)
    (aidx : AppIndex) (program : Bytes) (ep : P) (c : Cow) : Ran P (Option (EvalDelta × Cow)) :=
  match runScript avm x perform aidx (avm.evalContract program gi aidx callers ep) c.child with
  | (ep, .error e) => (ep, .error (programError e))
  | (ep, .ok (false, _)) => (ep, .ok none)
  | (ep, .ok (true, calf)) => (ep, (commitProgram avm x gi tx aidx ep calf).map some)

end Programs

/-! ## Applications -/

namespace Apply

variable {P : Type} (avm : Avm P) (x : BlockContext)

/-- `getAppParams`: the parameters and the creator of an application that exists. -/
def getAppParams (aidx : AppIndex) (c : Cow) : Except EvalError (Option (AppParams × Address)) :=
  match c.getCreator aidx .app with
  | none => pure none
  | some creator => do
    let params ← orThrow (.appNotInAccount aidx creator) ((c.lookup creator).appParams.lookup aidx)
    return some (params, creator)

variable (tx : Transaction)

def createApplication (creator : Address) (txnCounter : ℕ) (c : Cow) :
    Except EvalError (AppIndex × Cow) := do
  let record := c.lookup creator
  failIf (x.proto.maxAppsCreated ≤ record.appParams.keys.length)
    (.maxAppsCreated creator x.proto.maxAppsCreated)
  let appIdx := txnCounter + 1
  let c := c.put creator { record with
    appParams := record.appParams.upsert appIdx {
      approvalProgram := tx.approvalProgram
      clearStateProgram := tx.clearStateProgram
      localStateSchema := tx.localStateSchema
      globalStateSchema := tx.globalStateSchema
      extraProgramPages := tx.extraProgramPages }
    totalAppSchema := record.totalAppSchema.addSchema tx.globalStateSchema
    totalExtraAppPages := addSaturate32 record.totalExtraAppPages tx.extraProgramPages }
  let c ← c.allocateApp { addr := creator, aidx := appIdx, global := true } tx.globalStateSchema
  return (appIdx, c)

def deleteApplication (creator : Address) (appIdx : AppIndex) (c : Cow) : Except EvalError Cow := do
  let record := c.lookup creator
  let params := record.appParams.getD appIdx {}
  let c := c.put creator { record with
    totalAppSchema := record.totalAppSchema.subSchema params.globalStateSchema
    totalExtraAppPages :=
      if x.proto.enableExtraPagesOnAppUpdate then
        record.totalExtraAppPages - params.extraProgramPages
      else record.totalExtraAppPages
    appParams := record.appParams.erase appIdx }
  c.deallocateApp { addr := creator, aidx := appIdx, global := true }

/-- The limits on the programs of an update. -/
def checkProgramLengths (params : AppParams) : Except EvalError Unit :=
  if x.proto.enableExtraPagesOnAppUpdate then do
    let lap := tx.approvalProgram.length
    let lcs := tx.clearStateProgram.length
    let pages := 1 + params.extraProgramPages
    failIf (pages * x.proto.maxAppProgramLen < lap)
      (.approvalProgramTooLong (pages * x.proto.maxAppProgramLen))
    failIf (pages * x.proto.maxAppProgramLen < lcs)
      (.clearStateProgramTooLong (pages * x.proto.maxAppProgramLen))
    failIf (pages * x.proto.maxAppTotalProgramLen < lap + lcs)
      (.programsTooLong (lap + lcs) (pages * x.proto.maxAppTotalProgramLen))
  else pure ()

def updateApplication (creator : Address) (appIdx : AppIndex) (c : Cow) : Except EvalError Cow := do
  let record := c.lookup creator
  let params := record.appParams.getD appIdx {}
  checkProgramLengths x tx params
  return c.put creator { record with
    appParams := record.appParams.upsert appIdx { params with
      approvalProgram := tx.approvalProgram
      clearStateProgram := tx.clearStateProgram } }

def optInApplication (sender : Address) (appIdx : AppIndex) (params : AppParams) (c : Cow) :
    Except EvalError Cow := do
  let record := c.lookup sender
  failIf ((record.appLocalStates.lookup appIdx).isSome) (.alreadyOptedIn sender appIdx)
  failIf (x.proto.maxAppsOptedIn ≤ record.appLocalStates.keys.length)
    (.maxAppsOptedIn sender x.proto.maxAppsOptedIn)
  let c := c.put sender { record with
    appLocalStates := record.appLocalStates.upsert appIdx { schema := params.localStateSchema }
    totalAppSchema := record.totalAppSchema.addSchema params.localStateSchema }
  c.allocateApp { addr := sender, aidx := appIdx, global := false } params.localStateSchema

def closeOutApplication (sender : Address) (appIdx : AppIndex) (c : Cow) : Except EvalError Cow := do
  let record := c.lookup sender
  let localState ← orThrow (.notOptedIn sender appIdx) (record.appLocalStates.lookup appIdx)
  let c := c.put sender { record with
    totalAppSchema := record.totalAppSchema.subSchema localState.schema
    appLocalStates := record.appLocalStates.erase appIdx }
  c.deallocateApp { addr := sender, aidx := appIdx, global := false }

/-- The application of a call: a new one when the call has no id. -/
def calledApplication (ad : ApplyData) (txnCounter : ℕ) (c : Cow) :
    Except EvalError (AppIndex × ApplyData × Cow) :=
  if tx.applicationID = 0 then do
    let (appIdx, c) ← createApplication x tx tx.sender txnCounter c
    return (appIdx, { ad with applicationID := appIdx }, c)
  else return (tx.applicationID, ad, c)

/-- The checks on programs that are set. -/
def checkNewPrograms (params : AppParams) (ep : P) : Except EvalError Unit :=
  if tx.applicationID = 0 ∨ tx.onCompletion = .updateApplication then do
    avm.checkContractVersions tx.approvalProgram tx.clearStateProgram params
    avm.checkContract tx.approvalProgram ep
    avm.checkContract tx.clearStateProgram ep
  else pure ()

/-- The change of the ledger after the approval program passed. -/
def complete (creator : Address) (appIdx : AppIndex) (c : Cow) : Except EvalError Cow :=
  match tx.onCompletion with
  | .noOp => pure c
  | .optIn => pure c
  | .closeOut => closeOutApplication tx.sender appIdx c
  | .deleteApplication => deleteApplication x creator appIdx c
  | .updateApplication => updateApplication x tx creator appIdx c
  | _ => throw .invalidApplicationAction

/-- How a program of the call is evaluated: the application, the program, the parameters. -/
abbrev Evaluator (P : Type) := AppIndex → Bytes → P → Cow → Ran P (Option (EvalDelta × Cow))

variable (eval : Evaluator P)

/-- Clearing the local state of the sender, which no program can prevent. -/
def clearState (tx : Transaction) (appIdx : AppIndex) (params : Option AppParams)
    (ad : ApplyData) (ep : P) (c : Cow) : Ran P (ApplyData × Cow) :=
  if ((c.lookup tx.sender).appLocalStates.lookup appIdx).isNone then
    (ep, .error (.cannotClear tx.sender appIdx))
  else
    match params with
    | none => (ep, (closeOutApplication tx.sender appIdx c).map (ad, ·))
    | some params =>
      match eval appIdx params.clearStateProgram ep c with
      | (ep, .ok (some (evalDelta, c))) =>
        (ep, (closeOutApplication tx.sender appIdx c).map ({ ad with evalDelta }, ·))
      | (ep, .ok none) => (ep, (closeOutApplication tx.sender appIdx c).map (ad, ·))
      | (ep, .error e) =>
        if e = .logicEval then (ep, (closeOutApplication tx.sender appIdx c).map (ad, ·))
        else (ep, .error e)

/-- The opt-in of the sender comes before the program. -/
def optInFirst (appIdx : AppIndex) (params : AppParams) (c : Cow) : Except EvalError Cow :=
  if tx.onCompletion = .optIn then optInApplication x tx.sender appIdx params c else pure c

/-- A call that runs the approval program. -/
def approve (tx : Transaction) (appIdx : AppIndex) (params : AppParams)
    (creator : Address) (ad : ApplyData) (ep : P) (c : Cow) : Ran P (ApplyData × Cow) :=
  match optInFirst x tx appIdx params c with
  | .error e => (ep, .error e)
  | .ok c =>
    (eval appIdx params.approvalProgram ep c).bind fun ep passed =>
      match passed with
      | none => (ep, .error .rejectedByApprovalProgram)
      | some (evalDelta, c) => (ep, (complete x tx creator appIdx c).map ({ ad with evalDelta }, ·))

/-- The first part of `ApplicationCall`: the application, its parameters and creator if it exists. -/
def prepareCall (ad : ApplyData) (ep : P) (txnCounter : ℕ) (c : Cow) :
    Except EvalError (AppIndex × Option (AppParams × Address) × ApplyData × Cow) := do
  let (appIdx, ad, c) ← calledApplication x tx ad txnCounter c
  let app ← getAppParams appIdx c
  failIf (app = none ∧ tx.onCompletion ≠ .clearState) .onlyClearing
  checkNewPrograms avm tx ((app.map (·.1)).getD {}) ep
  return (appIdx, app, ad, c)

/-- `ApplicationCall`. The programs of an inner call see its apply data, which `sync` puts into the
parameters. -/
def applicationCall (sync : ApplyData → P → P) (tx : Transaction)
    (ad : ApplyData) (ep : P) (txnCounter : ℕ) (c : Cow) : Ran P (ApplyData × Cow) :=
  match prepareCall avm x tx ad ep txnCounter c with
  | .error e => (ep, .error e)
  | .ok (appIdx, app, ad, c) =>
    if tx.onCompletion = .clearState then
      clearState eval tx appIdx (app.map (·.1)) ad (sync ad ep) c
    else match app with
      | none => (ep, .error .onlyClearing)
      | some (params, creator) => approve x eval tx appIdx params creator ad (sync ad ep) c

end Apply

open Apply

/-! ## Inner transactions -/

section Perform

variable {P : Type} (avm : Avm P) (x : BlockContext)

/-- The fee, the rekeying and the count of an inner transaction. The counter is increased before the
transaction is applied: that of the outer one is still to come. -/
def startInner (tx : Transaction) (c : Cow) : Except EvalError (ApplyData × Cow) := do
  let (senderRewards, _, c) ← c.move x tx.sender x.feeSink tx.fee 0 0
  return ({ senderRewards }, (rekey tx c).incTxnCount)

/-- The rest of `Perform`, where application calls are done by `call`. -/
def applyInner (call : Transaction → ApplyData → P → Cow → Ran P (ApplyData × Cow))
    (tx : Transaction) (ad : ApplyData) (ep : P) (c : Cow) : Ran P (ApplyData × Cow) :=
  match tx.type with
  | .payment => (ep, payment x tx ad c)
  | .keyRegistration => (ep, (keyreg x tx c).map (ad, ·))
  | .assetConfig => (ep, assetConfig x tx ad c.txnCounter c)
  | .assetTransfer => (ep, assetTransfer x tx ad c)
  | .assetFreeze => (ep, (assetFreeze tx c).map (ad, ·))
  | .applicationCall => call tx ad ep c
  | _ => (ep, .error .txInAvm)

def performWith (call : ℕ → Transaction → ApplyData → P → Cow → Ran P (ApplyData × Cow)) :
    Performer P := fun gi tx ep c =>
  match startInner x tx c with
  | .error e => (ep, .error e)
  | .ok (ad, c) => applyInner x (call gi) tx ad ep c

/-- `Perform` for the applications `callers`, the innermost first. `depth` bounds the calls still
possible; `checkReentrancy` stops the chain before it is used up. -/
def perform : ℕ → List AppIndex → Performer P
  | 0, _ => performWith x fun _ _ _ ep _ => (ep, .error .applDepthExceeded)
  | depth + 1, callers => performWith x fun gi tx ad ep c =>
    applicationCall avm x
      (fun aidx => statefulEval avm x (perform depth (aidx :: callers)) callers gi tx aidx)
      (fun ad ep => avm.setAD ep gi ad) tx ad ep c.txnCounter c

/-- The application call of an outer transaction. -/
def outerCall (gi : ℕ) (tx : Transaction) (ad : ApplyData) (ep : P) (ctr : ℕ) (c : Cow) :
    Ran P (ApplyData × Cow) :=
  applicationCall avm x
    (fun aidx => statefulEval avm x (perform avm x maxAppCallDepth [aidx]) [] gi tx aidx)
    (fun _ ep => ep) tx ad ep ctr c

end Perform

end Novarand.Ledger
