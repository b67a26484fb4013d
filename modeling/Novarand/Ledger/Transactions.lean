import Novarand.Ledger.Cow

/-!
# Transactions

A `Transaction` has a header and the fields of every transaction type, of which a well-formed one
uses those of its own type. A signed transaction goes into a block together with the `ApplyData` of
its execution. Signatures, multisignatures, logic signatures and compact certificates are kept as
their encodings: the evaluator passes them on.
-/

namespace Novarand.Ledger

/-- The texts of the transaction types: `pay`, `keyreg`, `acfg`, `axfer`, `afrz`, `appl`, `cert` and
`addrprint`. -/
def txTypeNames : List Bytes :=
  [[0x70, 0x61, 0x79], [0x6b, 0x65, 0x79, 0x72, 0x65, 0x67], [0x61, 0x63, 0x66, 0x67],
   [0x61, 0x78, 0x66, 0x65, 0x72], [0x61, 0x66, 0x72, 0x7a], [0x61, 0x70, 0x70, 0x6c],
   [0x63, 0x65, 0x72, 0x74], [0x61, 0x64, 0x64, 0x72, 0x70, 0x72, 0x69, 0x6e, 0x74]]

inductive TxType
  | payment
  | keyRegistration
  | assetConfig
  | assetTransfer
  | assetFreeze
  | applicationCall
  | compactCert
  | addressPrint
  /-- Any other text; that of the zero transaction is empty. -/
  | unknown (name : Bytes) (h : name ∉ txTypeNames)
  deriving DecidableEq

theorem nil_notMem_names : [] ∉ txTypeNames := by decide

inductive OnCompletion
  | noOp
  | optIn
  | closeOut
  | clearState
  | updateApplication
  | deleteApplication
  /-- Any other value. -/
  | invalid (n : ℕ) (h : 5 < n)
  deriving DecidableEq

structure Header where
  sender : Address := 0
  fee : MicroNovas := 0
  firstValid : Round := 0
  lastValid : Round := 0
  note : Bytes := []
  genesisID : Bytes := []
  genesisHash : Digest := 0
  group : Digest := 0
  lease : Digest := 0
  rekeyTo : Address := 0
  deriving DecidableEq

structure KeyregTxnFields where
  votePK : Digest := 0
  selectionPK : Digest := 0
  stateProofPK : Digest := 0
  voteFirst : Round := 0
  voteLast : Round := 0
  voteKeyDilution : ℕ := 0
  nonparticipation : Bool := false
  deriving DecidableEq

structure PaymentTxnFields where
  receiver : Address := 0
  amount : MicroNovas := 0
  closeRemainderTo : Address := 0
  deriving DecidableEq

structure AssetConfigTxnFields where
  configAsset : AssetIndex := 0
  assetParams : AssetParams := {}
  deriving DecidableEq

structure AssetTransferTxnFields where
  xferAsset : AssetIndex := 0
  assetAmount : ℕ := 0
  assetSender : Address := 0
  assetReceiver : Address := 0
  assetCloseTo : Address := 0
  deriving DecidableEq

structure AssetFreezeTxnFields where
  freezeAccount : Address := 0
  freezeAsset : AssetIndex := 0
  assetFrozen : Bool := false
  deriving DecidableEq

structure ApplicationCallTxnFields where
  applicationID : AppIndex := 0
  onCompletion : OnCompletion := .noOp
  applicationArgs : List Bytes := []
  accounts : List Address := []
  foreignApps : List AppIndex := []
  foreignAssets : List AssetIndex := []
  localStateSchema : StateSchema := {}
  globalStateSchema : StateSchema := {}
  approvalProgram : Bytes := []
  clearStateProgram : Bytes := []
  extraProgramPages : ℕ := 0
  deriving DecidableEq

/-- A compact certificate, as its encoding. -/
abbrev Cert := Bytes

structure CompactCertTxnFields where
  certRound : Round := 0
  certType : ℕ := 0
  cert : Cert := []
  deriving DecidableEq

structure AddressPrintTxnFields where
  receiver2 : Address := 0
  deriving DecidableEq

structure Transaction extends Header, KeyregTxnFields, PaymentTxnFields, AssetConfigTxnFields,
    AssetTransferTxnFields, AssetFreezeTxnFields, ApplicationCallTxnFields, CompactCertTxnFields,
    AddressPrintTxnFields where
  type : TxType := .unknown [] nil_notMem_names
  deriving DecidableEq

structure SpecialAddresses where
  feeSink : Address := 0
  rewardsPool : Address := 0

/-- The changes of a program, as their encoding, which is empty when there are none. -/
abbrev EvalDelta := Bytes

structure ApplyData where
  closingAmount : MicroNovas := 0
  assetClosingAmount : ℕ := 0
  senderRewards : MicroNovas := 0
  receiverRewards : MicroNovas := 0
  closeRewards : MicroNovas := 0
  evalDelta : EvalDelta := []
  configAsset : AssetIndex := 0
  applicationID : AppIndex := 0
  deriving DecidableEq

structure SignedTxn where
  sig : Digest := 0
  msig : Bytes := []
  lsig : Bytes := []
  txn : Transaction := {}
  authAddr : Address := 0
  deriving DecidableEq

/-- The address the signature is checked against. -/
def SignedTxn.authorizer (s : SignedTxn) : Address :=
  if s.authAddr = 0 then s.txn.sender else s.authAddr

structure SignedTxnWithAD where
  signedTxn : SignedTxn
  applyData : ApplyData := {}
  deriving DecidableEq

structure SignedTxnInBlock where
  signedTxn : SignedTxn
  applyData : ApplyData := {}
  hasGenesisID : Bool := false
  hasGenesisHash : Bool := false
  deriving DecidableEq

/-- `Alive`: the transaction can be in the block of this round. -/
def Header.alive (tx : Header) (proto : ConsensusParams) (round : Round) (genesisID : Bytes)
    (genesisHash : Digest) : Except EvalError Unit := do
  failIf (round < tx.firstValid ∨ tx.lastValid < round) (.txnDead round tx.firstValid tx.lastValid)
  failIf (tx.genesisID ≠ [] ∧ tx.genesisID ≠ genesisID) .genesisIDMismatch
  if proto.supportGenesisHash then
    failIf (tx.genesisHash ≠ 0 ∧ tx.genesisHash ≠ genesisHash) .genesisHashMismatch
    failIf (proto.requireGenesisHash ∧ tx.genesisHash = 0) .genesisHashMissing
  else
    failIf (tx.genesisHash ≠ 0) .genesisHashMismatch

end Novarand.Ledger
