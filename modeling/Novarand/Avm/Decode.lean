import Novarand.Avm.Opcodes
import Novarand.Lib.Outcome

/-!
# Decoding the immediate values of an instruction

`binary.Uvarint` and the decoders of constants and branch targets, once as the check of a program
uses them (`checkIntConstBlock`, `checkByteConstBlock`) and once as its evaluation does
(`parseIntcblock`, `parseBytecBlock`), with the proof that they agree and stay within the program.
-/

namespace Novarand.Avm

/-- The bytes of a program. The length of a slice is an `int`. -/
structure Program where
  bytes : List UInt8
  fits : bytes.length < 2 ^ 63

namespace Program

variable (program : Program)

def length : ℕ := program.bytes.length

def byte (pc : ℕ) : UInt8 := program.bytes.getD pc 0

/-- `program[pos:]`. -/
def drop (pos : ℕ) : List UInt8 := program.bytes.drop pos

/-- `program[pos : pos+len]`. -/
def slice (pos len : ℕ) : List UInt8 := (program.bytes.drop pos).take len

end Program

/-- The errors of `check` and `eval`. -/
inductive LogicError
  | notSupported
  | tooManyArgs
  | emptyProgram
  | invalidVersion
  | versionAboveMax (version : ℕ)
  | versionAboveProtocol (version supported : ℕ)
  | versionBelowMin (minimum version : ℕ)
  | illegalOpcode (pc : ℕ) (opcode : UInt8)
  | modeNotAllowed (name : String)
  | shortImmediates (pc : ℕ) (name : String)
  | badIntcblockSize (pos : ℕ)
  | tooManyIntc
  | shortIntcblock
  | badIntConst (i pos : ℕ)
  | badBytecblockSize (pos : ℕ)
  | tooManyItems
  | shortBytecblock
  | badByteConst (i pos : ℕ)
  | badInt (pos : ℕ)
  | badLength (pos : ℕ)
  | pushbytesTooLong (pos : ℕ)
  | negativeOffset (offset : ℤ)
  | beyondEnd
  | backUnaligned (target : ℕ)
  | unaligned (target : ℕ)
  | staticCost (pc : ℕ) (maxCost : ℤ)
  | stuck (pc : ℕ)
  | underflow (name : String)
  | wrongArg (name : String) (i : ℕ)
  | dynamicCost (pc : ℕ) (name : String) (cost : ℕ)
  | wrongHeight (name : String)
  | wrongReturn (name : String) (i : ℕ)
  | tooBig (name : String) (length : ℕ)
  | stackOverflow
  | errOpcode
  | emptyCallstack
  /-- The error of a function that only works on data. -/
  | failed (message : String)
  deriving DecidableEq, Repr

/-- The errors about the text of the program: the opcode, its mode, its immediate values and branch
targets. -/
def LogicError.Static : LogicError → Prop
  | .illegalOpcode .. | .modeNotAllowed _ | .shortImmediates .. | .badIntcblockSize _ | .tooManyIntc
  | .shortIntcblock | .badIntConst .. | .badBytecblockSize _ | .tooManyItems | .shortBytecblock
  | .badByteConst .. | .badInt _ | .badLength _ | .pushbytesTooLong _ | .negativeOffset _
  | .beyondEnd | .backUnaligned _ | .unaligned _ => True
  | _ => False

/-! ## Variable length integers -/

/-- The loop of `binary.Uvarint` at the `i`-th byte. -/
def uvarintFrom : ℕ → ℕ → List UInt8 → Option (ℕ × ℕ)
  | _, _, [] => none
  | i, x, b :: rest =>
    if i = 10 then none
    else if b.toNat < 0x80 then
      if i = 9 ∧ 1 < b.toNat then none else some (x + b.toNat * 2 ^ (7 * i), i + 1)
    else uvarintFrom (i + 1) (x + b.toNat % 0x80 * 2 ^ (7 * i)) rest

/-- `binary.Uvarint`: the value and the number of bytes used, `none` where that number is not
positive. -/
def uvarint (buf : List UInt8) : Option (ℕ × ℕ) := uvarintFrom 0 0 buf

variable {i nextpc pc pos : ℕ} {program : Program} {used v x len val version target : ℕ}
  {buf : List UInt8}

theorem uvarintFrom_length (h : uvarintFrom i x buf = some (v, used)) :
    i < used ∧ used ≤ i + buf.length := by
  induction buf generalizing i x with
  | nil => cases h
  | cons b _ ih =>
    rw [uvarintFrom] at h
    rw [List.length_cons]
    split_ifs at h
    · obtain ⟨-, rfl⟩ := Prod.mk.inj (Option.some.inj h)
      omega
    · have := ih h
      omega

theorem uvarintFrom_lt (hi : i ≤ 10) (hx : x < 2 ^ (7 * i))
    (h : uvarintFrom i x buf = some (v, used)) : v < 2 ^ 64 := by
  induction buf generalizing i x with
  | nil => cases h
  | cons b _ ih =>
    rw [uvarintFrom] at h
    have hp : 2 ^ (7 * (i + 1)) = 128 * 2 ^ (7 * i) := by
      rw [Nat.mul_add, Nat.pow_add, Nat.mul_comm]
    split_ifs at h with h10 hb h9
    · obtain ⟨rfl, -⟩ := Prod.mk.inj (Option.some.inj h)
      obtain rfl | _ : i = 9 ∨ i ≤ 8 := by omega
      · omega
      · have hl : 2 ^ (7 * (i + 1)) ≤ 2 ^ 63 := Nat.pow_le_pow_right (by decide) (by omega)
        have := Nat.mul_le_mul_right (2 ^ (7 * i)) (Nat.le_sub_one_of_lt hb)
        omega
    · refine ih (by omega) ?_ h
      have hm : b.toNat % 0x80 ≤ 127 := by omega
      have := Nat.mul_le_mul_right (2 ^ (7 * i)) hm
      omega

theorem uvarint_drop (h : uvarint (program.drop pos) = some (v, used)) :
    0 < used ∧ pos + used ≤ program.length ∧ v < 2 ^ 64 := by
  have hl := uvarintFrom_length h
  have hv := uvarintFrom_lt (by decide) (by decide) h
  rw [Program.drop, List.length_drop] at hl
  unfold Program.length
  exact ⟨hl.1, by omega, hv⟩

/-! ## Constants -/

/-- The head of a block of constants: how many there are, and where the first one is. -/
def blockHead (badSize : ℕ → LogicError) (tooMany : LogicError) (program : Program) (pc : ℕ) :
    Except LogicError (ℕ × ℕ) := do
  let pos := pc + 1
  let (count, used) ← orThrow (badSize pos) (uvarint (program.drop pos))
  failIf (program.length < count) tooMany
  return (count, pos + used)

section

variable {α : Type} (item : ℕ → ℕ → Except LogicError (α × ℕ))

/-- The loop over a block with `left` constants to read, the next being the `i`-th. -/
def parseItems : ℕ → ℕ → ℕ → Except LogicError (List α × ℕ)
  | 0, _, pos => .ok ([], pos)
  | left + 1, i, pos => do
    let (v, pos) ← item i pos
    let (vs, nextpc) ← parseItems left (i + 1) pos
    return (v :: vs, nextpc)

/-- The same loop in the check, which keeps no values. -/
def checkItems : ℕ → ℕ → ℕ → Except LogicError ℕ
  | 0, _, pos => .ok pos
  | left + 1, i, pos => do
    let (_, pos) ← item i pos
    checkItems left (i + 1) pos

end

def intConst (program : Program) (i pos : ℕ) : Except LogicError (ℕ × ℕ) := do
  failIf (program.length ≤ pos) .shortIntcblock
  let (v, used) ← orThrow (.badIntConst i pos) (uvarint (program.drop pos))
  return (v, pos + used)

def parseIntcblock (program : Program) (pc : ℕ) : Except LogicError (List ℕ × ℕ) := do
  let (numInts, pos) ← blockHead .badIntcblockSize .tooManyIntc program pc
  parseItems (intConst program) numInts 0 pos

def checkIntConstBlock (program : Program) (pc : ℕ) : Except LogicError ℕ := do
  let (numInts, pos) ← blockHead .badIntcblockSize .tooManyIntc program pc
  checkItems (intConst program) numInts 0 pos

/-- An item of `parseBytecBlock`. Its end is computed as a `uint64`. -/
def byteConst (program : Program) (i pos : ℕ) : Except LogicError (List UInt8 × ℕ) := do
  failIf (program.length ≤ pos) .shortBytecblock
  let (itemLen, used) ← orThrow (.badByteConst i pos) (uvarint (program.drop pos))
  let pos := pos + used
  failIf (program.length ≤ pos) .shortBytecblock
  let last := (pos + itemLen) % 2 ^ 64
  failIf (program.length < last ∨ last < pos) .shortBytecblock
  return (program.slice pos itemLen, pos + itemLen)

def parseBytecBlock (program : Program) (pc : ℕ) : Except LogicError (List (List UInt8) × ℕ) := do
  let (numItems, pos) ← blockHead .badBytecblockSize .tooManyItems program pc
  parseItems (byteConst program) numItems 0 pos

def checkByteConstBlock (program : Program) (pc : ℕ) : Except LogicError ℕ := do
  let (numItems, pos) ← blockHead .badBytecblockSize .tooManyItems program pc
  checkItems (byteConst program) numItems 0 pos

/-- What `opPushInt` reads: the value and `nextpc`. -/
def parsePushInt (program : Program) (pc : ℕ) : Except LogicError (ℕ × ℕ) := do
  let (val, used) ← orThrow (.badInt (pc + 1)) (uvarint (program.drop (pc + 1)))
  return (val, pc + 1 + used)

/-- What `opPushBytes` reads: the value and `nextpc`. -/
def parsePushBytes (program : Program) (pc : ℕ) : Except LogicError (List UInt8 × ℕ) := do
  let pos := pc + 1
  let (length, used) ← orThrow (.badLength pos) (uvarint (program.drop pos))
  let pos := pos + used
  let last := (pos + length) % 2 ^ 64
  failIf (program.length < last ∨ last < pos) (.pushbytesTooLong pos)
  return (program.slice pos length, last)

/-- A length that was accepted did not wrap. -/
theorem end_of_accepted (hp : pos ≤ program.length) (hl : len < 2 ^ 64)
    (h : ¬(program.length < (pos + len) % 2 ^ 64 ∨ (pos + len) % 2 ^ 64 < pos)) :
    (pos + len) % 2 ^ 64 = pos + len ∧ pos + len ≤ program.length := by omega

theorem blockHead_ok {badSize : ℕ → LogicError} {tooMany : LogicError} {count : ℕ}
    (h : blockHead badSize tooMany program pc = .ok (count, pos)) : pc < pos ∧ pos ≤ program.length := by
  simp only [blockHead, bind_ok, failIf_ok, orThrow_ok, pure_pair] at h
  obtain ⟨⟨_, _⟩, hn, -, -, -, rfl⟩ := h
  obtain ⟨-, hu, -⟩ := uvarint_drop hn
  exact ⟨by omega, hu⟩

section

variable {α : Type} {item : ℕ → ℕ → Except LogicError (α × ℕ)}
  (hi : ∀ i pos v next, item i pos = .ok (v, next) → pos ≤ next ∧ next ≤ program.length)
include hi

/-- The check and the evaluation read the constants alike. -/
theorem parseItems_ok {left : ℕ} (hp : pos ≤ program.length)
    (h : checkItems item left i pos = .ok nextpc) :
    (∃ vs, parseItems item left i pos = .ok (vs, nextpc)) ∧
      pos ≤ nextpc ∧ nextpc ≤ program.length := by
  induction left generalizing i pos with
  | zero =>
    obtain rfl := Except.ok.inj h
    exact ⟨⟨[], rfl⟩, Nat.le_refl _, hp⟩
  | succ left ih =>
    obtain ⟨⟨v, next⟩, hv, h⟩ := bind_ok.mp h
    obtain ⟨hl, hn⟩ := hi i pos v next hv
    obtain ⟨⟨vs, hr⟩, he, ht⟩ := ih hn h
    refine ⟨⟨v :: vs, ?_⟩, hl.trans he, ht⟩
    simp only [parseItems, hv, ok_bind, hr]
    rfl

theorem parseBlock_ok {badSize : ℕ → LogicError} {tooMany : LogicError}
    (h : (blockHead badSize tooMany program pc >>= fun x => checkItems item x.1 0 x.2) = .ok nextpc) :
    (∃ vs, (blockHead badSize tooMany program pc >>= fun x => parseItems item x.1 0 x.2) =
      .ok (vs, nextpc)) ∧ pc < nextpc ∧ nextpc ≤ program.length := by
  obtain ⟨⟨n, pos⟩, hn, h⟩ := bind_ok.mp h
  obtain ⟨hl, hp⟩ := blockHead_ok hn
  obtain ⟨hr, he, ht⟩ := parseItems_ok hi hp h
  rw [hn, ok_bind]
  exact ⟨hr, hl.trans_le he, ht⟩

end

theorem parseIntcblock_ok (h : checkIntConstBlock program pc = .ok nextpc) :
    (∃ intc, parseIntcblock program pc = .ok (intc, nextpc)) ∧
      pc < nextpc ∧ nextpc ≤ program.length := by
  refine parseBlock_ok (fun i pos v next hv => ?_) h
  simp only [intConst, bind_ok, orThrow_ok, pure_pair] at hv
  obtain ⟨-, -, ⟨_, _⟩, hv, rfl, rfl⟩ := hv
  exact ⟨Nat.le_add_right _ _, (uvarint_drop hv).2.1⟩

theorem parseBytecBlock_ok (h : checkByteConstBlock program pc = .ok nextpc) :
    (∃ bytec, parseBytecBlock program pc = .ok (bytec, nextpc)) ∧
      pc < nextpc ∧ nextpc ≤ program.length := by
  refine parseBlock_ok (fun i pos v next hv => ?_) h
  simp only [byteConst, bind_ok, failIf_ok, orThrow_ok, pure_pair] at hv
  obtain ⟨-, -, ⟨_, _⟩, hv, -, -, -, he, rfl, rfl⟩ := hv
  obtain ⟨-, hu, hl⟩ := uvarint_drop hv
  exact ⟨by omega, (end_of_accepted hu hl he).2⟩

theorem parsePushInt_ok (h : parsePushInt program pc = .ok (val, nextpc)) :
    pc < nextpc ∧ nextpc ≤ program.length := by
  simp only [parsePushInt, bind_ok, orThrow_ok, pure_ok] at h
  obtain ⟨⟨v, _⟩, hv, h⟩ := h
  obtain ⟨-, rfl⟩ := Prod.mk.inj h
  obtain ⟨-, hu, -⟩ := uvarint_drop hv
  exact ⟨by omega, hu⟩

theorem parsePushBytes_ok {val : List UInt8} (h : parsePushBytes program pc = .ok (val, nextpc)) :
    pc < nextpc ∧ nextpc ≤ program.length := by
  simp only [parsePushBytes, bind_ok, orThrow_ok, failIf_ok, pure_ok] at h
  obtain ⟨⟨_, _⟩, hv, -, he, h⟩ := h
  obtain ⟨-, rfl⟩ := Prod.mk.inj h
  obtain ⟨-, hu, hl⟩ := uvarint_drop hv
  obtain ⟨hq, hle⟩ := end_of_accepted hu hl he
  rw [hq]
  exact ⟨by omega, hle⟩

/-! ## Branches -/

/-- The `int16` in the two bytes after the opcode. -/
def branchOffset (program : Program) (pc : ℕ) : ℤ :=
  let word : ℕ := (program.byte (pc + 1)).toNat * 256 + (program.byte (pc + 2)).toNat
  if word < 2 ^ 15 then word else (word : ℤ) - 2 ^ 16

def branchTarget (version : ℕ) (program : Program) (pc : ℕ) : Except LogicError ℕ := do
  let offset := branchOffset program pc
  failIf (offset < 0 ∧ version < backBranchEnabledVersion) (.negativeOffset offset)
  let target : ℤ := pc + 3 + offset
  -- from version 2 on, a branch to the end of the program ends it
  let branchTooFar : Bool :=
    if 2 ≤ version then target > program.length ∨ target < 0
    else target ≥ program.length ∨ target < 0
  failIf (branchTooFar = true) .beyondEnd
  return target.toNat

theorem branchTarget_ok (h : branchTarget version program pc = .ok target) :
    target ≤ program.length ∧ (version < backBranchEnabledVersion → pc + 3 ≤ target) := by
  simp only [branchTarget, bind_ok, failIf_ok, pure_ok] at h
  obtain ⟨-, _, -, hf, rfl⟩ := h
  refine ⟨?_, fun hv => ?_⟩
  · split_ifs at hf <;> simp only [decide_eq_true_eq, not_or] at hf <;> omega
  · omega
end Novarand.Avm
