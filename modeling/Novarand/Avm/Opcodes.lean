import Mathlib

/-!
# The instructions of the virtual machine

The table `OpSpecs` of `data/transactions/logic/opcodes.go`: for each opcode and each version that
introduced or changed it, what it takes from the stack and puts there, the modes it may run in, its
cost, its size and the function that checks its immediate values. `opsByOpcode` is the array that
`init` builds from it.

The functions that only work on the stack, the scratch space and the ledger are one constructor of
`Op`; those that move the program counter or read constants of variable length have their own.
-/

namespace Novarand.Avm

def logicVersion : ℕ := 6

def evalMaxVersion : ℕ := logicVersion

def backBranchEnabledVersion : ℕ := 4

def directRefEnabledVersion : ℕ := 4

def fidoVersion : ℕ := logicVersion + 1

/-- `runMode` of a program. -/
inductive RunMode
  | signature
  | application
  deriving DecidableEq, Repr

/-- The modes of an instruction. -/
abbrev Modes := List RunMode

def modeAny : Modes := [.signature, .application]

def runModeSignature : Modes := [.signature]

def runModeApplication : Modes := [.application]

inductive StackType
  | any
  | uint64
  | bytes
  deriving DecidableEq, Repr

/-- `opCheckFunc`. -/
inductive CheckFunc
  | branch
  | intConstBlock
  | byteConstBlock
  | pushBytes
  | pushInt
  deriving DecidableEq, Repr

/-- `opDetails`, without the immediates' names and the types the assembler uses. -/
structure OpDetails where
  cost : ℕ
  size : ℕ
  checkFunc : Option CheckFunc
  deriving DecidableEq, Repr

def opDefault : OpDetails := ⟨1, 1, none⟩

def opBranch : OpDetails := ⟨1, 3, some .branch⟩

def costly (cost : ℕ) : OpDetails := ⟨cost, 1, none⟩

def immediates (count : ℕ) : OpDetails := ⟨1, 1 + count, none⟩

def varies (checker : CheckFunc) : OpDetails := ⟨1, 0, some checker⟩

def costlyImm (cost count : ℕ) : OpDetails := { immediates count with cost := cost }

/-- `opEvalFunc`. -/
inductive Op
  | err
  | ret
  | bnz
  | bz
  | b
  | callSub
  | retSub
  | intConstBlock
  | byteConstBlock
  | pushBytes
  | pushInt
  /-- Any function that does not set `nextpc`. -/
  | data
  deriving DecidableEq, Repr

/-- `OpSpec`, without what the assembler uses. -/
structure OpSpec where
  opcode : UInt8
  name : String
  op : Op
  args : List StackType
  returns : List StackType
  version : ℕ
  modes : Modes
  details : OpDetails
  deriving DecidableEq, Repr

def oneBytes : List StackType := [.bytes]
def twoBytes : List StackType := [.bytes, .bytes]
def threeBytes : List StackType := [.bytes, .bytes, .bytes]
def byteInt : List StackType := [.bytes, .uint64]
def byteIntInt : List StackType := [.bytes, .uint64, .uint64]
def oneInt : List StackType := [.uint64]
def twoInts : List StackType := [.uint64, .uint64]
def oneAny : List StackType := [.any]
def twoAny : List StackType := [.any, .any]
def anyInt : List StackType := [.any, .uint64]
def anyIntInt : List StackType := [.any, .uint64, .uint64]

/-- A row of an instruction that goes on with the next one. -/
def data (opcode : UInt8) (name : String) (args returns : List StackType) (version : ℕ)
    (modes : Modes := modeAny) (details : OpDetails := opDefault) : OpSpec :=
  ⟨opcode, name, .data, args, returns, version, modes, details⟩

/-- The row of an instruction for applications only. -/
def app (opcode : UInt8) (name : String) (args returns : List StackType) (version : ℕ)
    (details : OpDetails := opDefault) : OpSpec :=
  data opcode name args returns version runModeApplication details

def opSpecs : List OpSpec := [
  ⟨0x00, "err", .err, [], [], 1, modeAny, opDefault⟩,
  data 0x01 "sha256" oneBytes oneBytes 1 modeAny (costly 7),
  data 0x02 "keccak256" oneBytes oneBytes 1 modeAny (costly 26),
  data 0x03 "sha512_256" oneBytes oneBytes 1 modeAny (costly 9),
  data 0x01 "sha256" oneBytes oneBytes 2 modeAny (costly 35),
  data 0x02 "keccak256" oneBytes oneBytes 2 modeAny (costly 130),
  data 0x03 "sha512_256" oneBytes oneBytes 2 modeAny (costly 45),
  data 0x04 "ed25519verify" threeBytes oneInt 1 runModeSignature (costly 1900),
  data 0x04 "ed25519verify" threeBytes oneInt 5 modeAny (costly 1900),
  data 0x05 "ecdsa_verify" (threeBytes ++ twoBytes) oneInt 5 modeAny (costlyImm 1700 1),
  data 0x06 "ecdsa_pk_decompress" oneBytes twoBytes 5 modeAny (costlyImm 650 1),
  data 0x07 "ecdsa_pk_recover" (oneBytes ++ oneInt ++ twoBytes) twoBytes 5 modeAny
    (costlyImm 2000 1),
  data 0x08 "+" twoInts oneInt 1,
  data 0x09 "-" twoInts oneInt 1,
  data 0x0a "/" twoInts oneInt 1,
  data 0x0b "*" twoInts oneInt 1,
  data 0x0c "<" twoInts oneInt 1,
  data 0x0d ">" twoInts oneInt 1,
  data 0x0e "<=" twoInts oneInt 1,
  data 0x0f ">=" twoInts oneInt 1,
  data 0x10 "&&" twoInts oneInt 1,
  data 0x11 "||" twoInts oneInt 1,
  data 0x12 "==" twoAny oneInt 1 modeAny (immediates 0),
  data 0x13 "!=" twoAny oneInt 1 modeAny (immediates 0),
  data 0x14 "!" oneInt oneInt 1,
  data 0x15 "len" oneBytes oneInt 1,
  data 0x16 "itob" oneInt oneBytes 1,
  data 0x17 "btoi" oneBytes oneInt 1,
  data 0x18 "%" twoInts oneInt 1,
  data 0x19 "|" twoInts oneInt 1,
  data 0x1a "&" twoInts oneInt 1,
  data 0x1b "^" twoInts oneInt 1,
  data 0x1c "~" oneInt oneInt 1,
  data 0x1d "mulw" twoInts twoInts 1,
  data 0x1e "addw" twoInts twoInts 2,
  data 0x1f "divmodw" (twoInts ++ twoInts) (twoInts ++ twoInts) 4 modeAny (costly 20),
  ⟨0x20, "intcblock", .intConstBlock, [], [], 1, modeAny, varies .intConstBlock⟩,
  data 0x21 "intc" [] oneInt 1 modeAny (immediates 1),
  data 0x22 "intc_0" [] oneInt 1,
  data 0x23 "intc_1" [] oneInt 1,
  data 0x24 "intc_2" [] oneInt 1,
  data 0x25 "intc_3" [] oneInt 1,
  ⟨0x26, "bytecblock", .byteConstBlock, [], [], 1, modeAny, varies .byteConstBlock⟩,
  data 0x27 "bytec" [] oneBytes 1 modeAny (immediates 1),
  data 0x28 "bytec_0" [] oneBytes 1,
  data 0x29 "bytec_1" [] oneBytes 1,
  data 0x2a "bytec_2" [] oneBytes 1,
  data 0x2b "bytec_3" [] oneBytes 1,
  data 0x2c "arg" [] oneBytes 1 runModeSignature (immediates 1),
  data 0x2d "arg_0" [] oneBytes 1 runModeSignature,
  data 0x2e "arg_1" [] oneBytes 1 runModeSignature,
  data 0x2f "arg_2" [] oneBytes 1 runModeSignature,
  data 0x30 "arg_3" [] oneBytes 1 runModeSignature,
  data 0x31 "txn" [] oneAny 1 modeAny (immediates 1),
  data 0x31 "txn" [] oneAny 2 modeAny (immediates 1),
  data 0x32 "global" [] oneAny 1 modeAny (immediates 1),
  data 0x33 "gtxn" [] oneAny 1 modeAny (immediates 2),
  data 0x33 "gtxn" [] oneAny 2 modeAny (immediates 2),
  data 0x34 "load" [] oneAny 1 modeAny (immediates 1),
  data 0x35 "store" oneAny [] 1 modeAny (immediates 1),
  data 0x36 "txna" [] oneAny 2 modeAny (immediates 2),
  data 0x37 "gtxna" [] oneAny 2 modeAny (immediates 3),
  data 0x38 "gtxns" oneInt oneAny 3 modeAny (immediates 1),
  data 0x39 "gtxnsa" oneInt oneAny 3 modeAny (immediates 2),
  app 0x3a "gload" [] oneAny 4 (immediates 2),
  app 0x3b "gloads" oneInt oneAny 4 (immediates 1),
  app 0x3c "gaid" [] oneInt 4 (immediates 1),
  app 0x3d "gaids" oneInt oneInt 4,
  data 0x3e "loads" oneInt oneAny 5,
  data 0x3f "stores" (oneInt ++ oneAny) [] 5,
  ⟨0x40, "bnz", .bnz, oneInt, [], 1, modeAny, opBranch⟩,
  ⟨0x41, "bz", .bz, oneInt, [], 2, modeAny, opBranch⟩,
  ⟨0x42, "b", .b, [], [], 2, modeAny, opBranch⟩,
  ⟨0x43, "return", .ret, oneInt, [], 2, modeAny, opDefault⟩,
  data 0x44 "assert" oneInt [] 3,
  data 0x48 "pop" oneAny [] 1,
  data 0x49 "dup" oneAny twoAny 1 modeAny (immediates 0),
  data 0x4a "dup2" twoAny (twoAny ++ twoAny) 2 modeAny (immediates 0),
  data 0x4b "dig" oneAny twoAny 3 modeAny (immediates 1),
  data 0x4c "swap" twoAny twoAny 3 modeAny (immediates 0),
  data 0x4d "select" (twoAny ++ oneInt) oneAny 3 modeAny (immediates 0),
  data 0x4e "cover" oneAny oneAny 5 modeAny (immediates 1),
  data 0x4f "uncover" oneAny oneAny 5 modeAny (immediates 1),
  data 0x50 "concat" twoBytes oneBytes 2,
  data 0x51 "substring" oneBytes oneBytes 2 modeAny (immediates 2),
  data 0x52 "substring3" byteIntInt oneBytes 2,
  data 0x53 "getbit" anyInt oneInt 3,
  data 0x54 "setbit" anyIntInt oneAny 3 modeAny (immediates 0),
  data 0x55 "getbyte" byteInt oneInt 3,
  data 0x56 "setbyte" byteIntInt oneBytes 3,
  data 0x57 "extract" oneBytes oneBytes 5 modeAny (immediates 2),
  data 0x58 "extract3" byteIntInt oneBytes 5,
  data 0x59 "extract_uint16" byteInt oneInt 5,
  data 0x5a "extract_uint32" byteInt oneInt 5,
  data 0x5b "extract_uint64" byteInt oneInt 5,
  data 0x5c "base64_decode" oneBytes oneBytes fidoVersion modeAny (costlyImm 25 1),
  app 0x60 "balance" oneInt oneInt 2,
  app 0x60 "balance" oneAny oneInt directRefEnabledVersion,
  app 0x61 "app_opted_in" twoInts oneInt 2,
  app 0x61 "app_opted_in" (oneAny ++ oneInt) oneInt directRefEnabledVersion,
  app 0x62 "app_local_get" (oneInt ++ oneBytes) oneAny 2,
  app 0x62 "app_local_get" (oneAny ++ oneBytes) oneAny directRefEnabledVersion,
  app 0x63 "app_local_get_ex" (twoInts ++ oneBytes) (oneAny ++ oneInt) 2,
  app 0x63 "app_local_get_ex" (oneAny ++ oneInt ++ oneBytes) (oneAny ++ oneInt)
    directRefEnabledVersion,
  app 0x64 "app_global_get" oneBytes oneAny 2,
  app 0x65 "app_global_get_ex" (oneInt ++ oneBytes) (oneAny ++ oneInt) 2,
  app 0x66 "app_local_put" (oneInt ++ oneBytes ++ oneAny) [] 2,
  app 0x66 "app_local_put" (oneAny ++ oneBytes ++ oneAny) [] directRefEnabledVersion,
  app 0x67 "app_global_put" (oneBytes ++ oneAny) [] 2,
  app 0x68 "app_local_del" (oneInt ++ oneBytes) [] 2,
  app 0x68 "app_local_del" (oneAny ++ oneBytes) [] directRefEnabledVersion,
  app 0x69 "app_global_del" oneBytes [] 2,
  app 0x70 "asset_holding_get" twoInts (oneAny ++ oneInt) 2 (immediates 1),
  app 0x70 "asset_holding_get" (oneAny ++ oneInt) (oneAny ++ oneInt)
    directRefEnabledVersion (immediates 1),
  app 0x71 "asset_params_get" oneInt (oneAny ++ oneInt) 2 (immediates 1),
  app 0x72 "app_params_get" oneInt (oneAny ++ oneInt) 5 (immediates 1),
  app 0x73 "acct_params_get" oneAny (oneAny ++ oneInt) 6 (immediates 1),
  app 0x78 "min_balance" oneInt oneInt 3,
  app 0x78 "min_balance" oneAny oneInt directRefEnabledVersion,
  ⟨0x80, "pushbytes", .pushBytes, [], oneBytes, 3, modeAny, varies .pushBytes⟩,
  ⟨0x81, "pushint", .pushInt, [], oneInt, 3, modeAny, varies .pushInt⟩,
  ⟨0x88, "callsub", .callSub, [], [], 4, modeAny, opBranch⟩,
  ⟨0x89, "retsub", .retSub, [], [], 4, modeAny, opDefault⟩,
  data 0x90 "shl" twoInts oneInt 4,
  data 0x91 "shr" twoInts oneInt 4,
  data 0x92 "sqrt" oneInt oneInt 4 modeAny (costly 4),
  data 0x93 "bitlen" oneAny oneInt 4,
  data 0x94 "exp" twoInts oneInt 4,
  data 0x95 "expw" twoInts twoInts 4 modeAny (costly 10),
  data 0x96 "bsqrt" oneBytes oneBytes 6 modeAny (costly 40),
  data 0x97 "divw" (twoInts ++ oneInt) oneInt 6,
  data 0xa0 "b+" twoBytes oneBytes 4 modeAny (costly 10),
  data 0xa1 "b-" twoBytes oneBytes 4 modeAny (costly 10),
  data 0xa2 "b/" twoBytes oneBytes 4 modeAny (costly 20),
  data 0xa3 "b*" twoBytes oneBytes 4 modeAny (costly 20),
  data 0xa4 "b<" twoBytes oneInt 4,
  data 0xa5 "b>" twoBytes oneInt 4,
  data 0xa6 "b<=" twoBytes oneInt 4,
  data 0xa7 "b>=" twoBytes oneInt 4,
  data 0xa8 "b==" twoBytes oneInt 4,
  data 0xa9 "b!=" twoBytes oneInt 4,
  data 0xaa "b%" twoBytes oneBytes 4 modeAny (costly 20),
  data 0xab "b|" twoBytes oneBytes 4 modeAny (costly 6),
  data 0xac "b&" twoBytes oneBytes 4 modeAny (costly 6),
  data 0xad "b^" twoBytes oneBytes 4 modeAny (costly 6),
  data 0xae "b~" oneBytes oneBytes 4 modeAny (costly 4),
  data 0xaf "bzero" oneInt oneBytes 4,
  app 0xb0 "log" oneBytes [] 5,
  app 0xb1 "itxn_begin" [] [] 5,
  app 0xb2 "itxn_field" oneAny [] 5 (immediates 1),
  app 0xb3 "itxn_submit" [] [] 5,
  app 0xb4 "itxn" [] oneAny 5 (immediates 1),
  app 0xb5 "itxna" [] oneAny 5 (immediates 2),
  app 0xb6 "itxn_next" [] [] 6,
  app 0xb7 "gitxn" [] oneAny 6 (immediates 2),
  app 0xb8 "gitxna" [] oneAny 6 (immediates 3),
  data 0xc0 "txnas" oneInt oneAny 5 modeAny (immediates 1),
  data 0xc1 "gtxnas" oneInt oneAny 5 modeAny (immediates 2),
  data 0xc2 "gtxnsas" twoInts oneAny 5 modeAny (immediates 1),
  data 0xc3 "args" oneInt oneBytes 5 runModeSignature,
  app 0xc4 "gloadss" twoInts oneAny 6,
  app 0xc5 "itxnas" oneInt oneAny 6 (immediates 1),
  app 0xc6 "gitxnas" oneInt oneAny 6 (immediates 2)]

/-- The last row of an opcode among those of a version. -/
def lastRow (version : ℕ) (opcode : UInt8) : Option OpSpec :=
  (opSpecs.filter fun spec => spec.version = version ∧ spec.opcode = opcode).getLast?

/-- `opsByOpcode`: a version starts from the instructions of the one before; version 0 is version 1.
-/
def opsByOpcode : ℕ → UInt8 → Option OpSpec
  | 0, opcode => (lastRow 1 opcode).map fun spec => { spec with version := 0 }
  | 1, opcode => lastRow 1 opcode
  | version + 2, opcode => (lastRow (version + 2) opcode).or (opsByOpcode (version + 1) opcode)

/-! ## What holds of every row -/

/-- The check function and the size that the function of an instruction relies on. -/
def Op.Fits : Op → OpDetails → Prop
  | .bnz, d | .bz, d | .b, d | .callSub, d => d.size = 3 ∧ d.checkFunc = some .branch
  | .intConstBlock, d => d.size = 0 ∧ d.checkFunc = some .intConstBlock
  | .byteConstBlock, d => d.size = 0 ∧ d.checkFunc = some .byteConstBlock
  | .pushBytes, d => d.size = 0 ∧ d.checkFunc = some .pushBytes
  | .pushInt, d => d.size = 0 ∧ d.checkFunc = some .pushInt
  | .err, d | .ret, d | .retSub, d | .data, d => 0 < d.size ∧ d.checkFunc = none

instance : ∀ (op : Op) (d : OpDetails), Decidable (op.Fits d)
  | .bnz, d | .bz, d | .b, d | .callSub, d =>
    inferInstanceAs (Decidable (d.size = 3 ∧ d.checkFunc = some .branch))
  | .intConstBlock, d => inferInstanceAs (Decidable (d.size = 0 ∧ d.checkFunc = some .intConstBlock))
  | .byteConstBlock, d =>
    inferInstanceAs (Decidable (d.size = 0 ∧ d.checkFunc = some .byteConstBlock))
  | .pushBytes, d => inferInstanceAs (Decidable (d.size = 0 ∧ d.checkFunc = some .pushBytes))
  | .pushInt, d => inferInstanceAs (Decidable (d.size = 0 ∧ d.checkFunc = some .pushInt))
  | .err, d | .ret, d | .retSub, d | .data, d =>
    inferInstanceAs (Decidable (0 < d.size ∧ d.checkFunc = none))

/-- An instruction whose function, size and check belong together, and that moves the program counter
backwards only from the version that allows it. -/
def OpSpec.Regular (spec : OpSpec) : Prop :=
  spec.op.Fits spec.details ∧
    ((spec.op = .callSub ∨ spec.op = .retSub) → backBranchEnabledVersion ≤ spec.version)

instance (spec : OpSpec) : Decidable spec.Regular := inferInstanceAs (Decidable (_ ∧ _))

theorem regular_of_mem : ∀ spec ∈ opSpecs, spec.Regular := by
  decide +kernel

variable {opcode : UInt8} {spec : OpSpec} {version : ℕ}

theorem lastRow_some (h : lastRow version opcode = some spec) :
    spec ∈ opSpecs ∧ spec.version = version := by
  have hm := List.mem_of_getLast? h
  rw [List.mem_filter] at hm
  have hr := of_decide_eq_true hm.2
  exact ⟨hm.1, hr.1⟩

section

variable (h : opsByOpcode version opcode = some spec)
include h

/-- Every instruction of a version is a row of the table that was there by then. -/
theorem opsByOpcode_some :
    ∃ row ∈ opSpecs, spec.op = row.op ∧ spec.details = row.details ∧
      row.version ≤ max version 1 := by
  induction version, opcode using opsByOpcode.induct with
  | case1 opcode =>
    obtain ⟨row, hr, rfl⟩ := Option.map_eq_some_iff.mp h
    obtain ⟨hm, hv⟩ := lastRow_some hr
    exact ⟨row, hm, rfl, rfl, by omega⟩
  | case2 opcode =>
    obtain ⟨hm, hv⟩ := lastRow_some h
    exact ⟨spec, hm, rfl, rfl, by omega⟩
  | case3 version opcode ih =>
    rw [opsByOpcode, Option.or_eq_some_iff] at h
    obtain h | ⟨-, h⟩ := h
    · obtain ⟨hm, hv⟩ := lastRow_some h
      exact ⟨spec, hm, rfl, rfl, by omega⟩
    · obtain ⟨row, hm, ho, hd, hv⟩ := ih h
      exact ⟨row, hm, ho, hd, by omega⟩

theorem opsByOpcode_fits : spec.op.Fits spec.details := by
  obtain ⟨row, hm, ho, hd, -⟩ := opsByOpcode_some h
  rw [ho, hd]
  exact (regular_of_mem row hm).1

/-- Before back branches were allowed there are no subroutines. -/
theorem opsByOpcode_noSub (hv : version < backBranchEnabledVersion) :
    spec.op ≠ .callSub ∧ spec.op ≠ .retSub := by
  obtain ⟨row, hm, ho, -, _⟩ := opsByOpcode_some h
  have hl : row.version < backBranchEnabledVersion := by
    unfold backBranchEnabledVersion at hv ⊢
    omega
  rw [ho]
  constructor
  · intro hs
    exact Nat.not_le_of_lt hl ((regular_of_mem row hm).2 (.inl hs))
  · intro hs
    exact Nat.not_le_of_lt hl ((regular_of_mem row hm).2 (.inr hs))

end

end Novarand.Avm
