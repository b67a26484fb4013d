import Novarand.Avm.Check

/-!
# Evaluating a checked program

`eval` and `step` of `data/transactions/logic/eval.go`. The functions that move the program counter,
use the call stack or read constants from the program are as in the source; all others are a
parameter (`Exec`), which may do anything with the stack, the pooled budget and the data of the
evaluation.

`Sound` is what every step keeps while a program runs that `check` has accepted: the program counter
and the call stack point to instructions that were visited, and in versions without back branches
what was paid and what lies ahead is within the static cost.
-/

namespace Novarand.Avm

open LogicError

def maxStringSize : ℕ := 4096

def maxStackDepth : ℕ := 1000

def evalMaxArgs : ℕ := 255

inductive StackValue
  | uint (value : UInt64)
  | bytes (value : List UInt8)
  deriving DecidableEq, Repr

namespace StackValue

def argType : StackValue → StackType
  | uint _ => .uint64
  | bytes _ => .bytes

/-- The field `Uint`, which is 0 where the value is a byte string. -/
def toUint : StackValue → UInt64
  | uint value => value
  | bytes _ => 0

/-- The length of a byte string. -/
def size : StackValue → ℕ
  | uint _ => 0
  | bytes value => value.length

end StackValue

def opCompat (expected got : StackType) : Prop := expected = .any ∨ expected = got

instance (expected got : StackType) : Decidable (opCompat expected got) :=
  inferInstanceAs (Decidable (_ ∨ _))

/-- `EvalContext`. The stack and the call stack have their top first; `data` is what the model does
not know: scratch space, transactions and the ledger. -/
structure EvalContext (D : Type) where
  params : Params
  mode : RunMode
  clearState : Bool
  version : ℕ
  program : Program
  pc : ℕ
  stack : List StackValue := []
  callstack : List ℕ := []
  cost : ℕ := 0
  intc : List ℕ := []
  bytec : List (List UInt8) := []
  pooled : Option ℤ
  data : D

/-- What an instruction that only works on data does: the new stack, pooled budget and data. -/
abbrev Exec (D : Type) :=
  OpSpec → EvalContext D → Except String (List StackValue × Option ℤ × D)

variable {D : Type}

/-! ## The functions of the instructions -/

/-- `opBnz` and `opBz`: branch if the value that is popped passes the test. -/
def branchIf (taken : UInt64 → Bool) (cx : EvalContext D) :
    Except LogicError (EvalContext D × ℕ) := do
  let popped := { cx with stack := cx.stack.tail }
  if taken (cx.stack.head?.elim 0 StackValue.toUint) then
    let target ← branchTarget cx.version cx.program cx.pc
    return (popped, target)
  else
    return (popped, cx.pc + 3)

def opB (cx : EvalContext D) : Except LogicError (EvalContext D × ℕ) := do
  let target ← branchTarget cx.version cx.program cx.pc
  return (cx, target)

def opCallSub (cx : EvalContext D) : Except LogicError (EvalContext D × ℕ) :=
  opB { cx with callstack := (cx.pc + 3) :: cx.callstack }

def opRetSub (cx : EvalContext D) : Except LogicError (EvalContext D × ℕ) :=
  match cx.callstack with
  | [] => .error .emptyCallstack
  | target :: rest => .ok ({ cx with callstack := rest }, target)

/-- The function of an instruction, with the `nextpc` it sets, 0 for none. -/
def Op.eval (exec : Exec D) (spec : OpSpec) (cx : EvalContext D) :
    Op → Except LogicError (EvalContext D × ℕ)
  | .err => .error .errOpcode
  | .ret => .ok ({ cx with stack := cx.stack.take 1 }, cx.program.length)
  | .bnz => branchIf (· != 0) cx
  | .bz => branchIf (· == 0) cx
  | .b => opB cx
  | .callSub => opCallSub cx
  | .retSub => opRetSub cx
  | .intConstBlock => do
    let (intc, nextpc) ← parseIntcblock cx.program cx.pc
    return ({ cx with intc }, nextpc)
  | .byteConstBlock => do
    let (bytec, nextpc) ← parseBytecBlock cx.program cx.pc
    return ({ cx with bytec }, nextpc)
  | .pushBytes => do
    let (value, nextpc) ← parsePushBytes cx.program cx.pc
    return ({ cx with stack := .bytes value :: cx.stack }, nextpc)
  | .pushInt => do
    let (value, nextpc) ← parsePushInt cx.program cx.pc
    return ({ cx with stack := .uint (.ofNat value) :: cx.stack }, nextpc)
  | .data =>
    match exec spec cx with
    | .error message => .error (.failed message)
    | .ok (stack, pooled, result) => .ok ({ cx with stack, pooled, data := result }, 0)

/-! ## A step -/

/-- The topmost values in the order in which they were pushed. -/
def topValues (count : ℕ) (stack : List StackValue) : List StackValue := (stack.take count).reverse

def checkArgs (name : String) : ℕ → List StackType → List StackValue → Except LogicError Unit
  | i, argType :: types, value :: values => do
    failIf (¬opCompat argType value.argType) (.wrongArg name i)
    checkArgs name (i + 1) types values
  | _, _, _ => .ok ()

def checkReturns (name : String) : ℕ → List StackType → List StackValue → Except LogicError Unit
  | i, argType :: types, value :: values => do
    failIf (¬opCompat argType value.argType) (.wrongReturn name i)
    failIf (maxStringSize < value.size) (.tooBig name value.size)
    checkReturns name (i + 1) types values
  | _, _, _ => .ok ()

/-- The checks that follow the function of an instruction. -/
def checkAfter (spec : OpSpec) (preheight : ℕ) (stack : List StackValue) :
    Except LogicError Unit := do
  failIf (spec.op ≠ .ret ∧
    (stack.length : ℤ) - preheight ≠ (spec.returns.length : ℤ) - spec.args.length)
    (.wrongHeight spec.name)
  checkReturns spec.name 0 spec.returns (topValues spec.returns.length stack)
  failIf (maxStackDepth < stack.length) .stackOverflow

/-- Pay for an instruction. -/
def EvalContext.pay (cx : EvalContext D) (cost : ℕ) : EvalContext D :=
  { cx with cost := cx.cost + cost, pooled := cx.pooled.map (· - cost) }

def step (exec : Exec D) (cx : EvalContext D) : Except LogicError (EvalContext D) := do
  let opcode := cx.program.byte cx.pc
  let spec ← orThrow (.illegalOpcode cx.pc opcode) (opsByOpcode cx.version opcode)
  failIf (cx.mode ∉ spec.modes) (.modeNotAllowed spec.name)
  failIf (cx.stack.length < spec.args.length) (.underflow spec.name)
  checkArgs spec.name 0 spec.args (topValues spec.args.length cx.stack)
  let deets := spec.details
  failIf (deets.size ≠ 0 ∧ cx.program.length < cx.pc + deets.size)
    (.shortImmediates cx.pc spec.name)
  let paid := cx.pay deets.cost
  failIf (remainingBudget cx.params cx.mode cx.clearState paid.pooled paid.cost < 0)
    (.dynamicCost cx.pc spec.name cx.cost)
  let (after, nextpc) ← spec.op.eval exec spec paid
  checkAfter spec cx.stack.length after.stack
  return { after with pc := if nextpc ≠ 0 then nextpc else cx.pc + deets.size }

/-- At most `n` iterations of the loop of `eval`. -/
def run (exec : Exec D) : ℕ → EvalContext D → Except LogicError (EvalContext D)
  | 0, cx => .ok cx
  | n + 1, cx => if cx.pc < cx.program.length then step exec cx >>= run exec n else .ok cx

/-- The start of `eval`, for a transaction with `lsigArgs` arguments of its logic signature. -/
def startEval (params : Params) (mode : RunMode) (clearState : Bool) (lsigArgs : ℕ)
    (program : Program) (data : D) : Except LogicError (EvalContext D) := do
  failIf (params.logicSigVersion = 0) .notSupported
  failIf (evalMaxArgs < lsigArgs) .tooManyArgs
  let (version, vlen) ← versionCheck params program
  return { params, mode, clearState, version, program, pc := vlen, data,
           pooled := params.pooledApplicationBudget }

/-- The context of `eval` after at most `n` iterations. -/
def evalSteps (exec : Exec D) (params : Params) (mode : RunMode) (clearState : Bool)
    (lsigArgs : ℕ) (program : Program) (data : D) (n : ℕ) : Except LogicError (EvalContext D) :=
  startEval params mode clearState lsigArgs program data >>= run exec n

/-! ## What a step can do -/

/-- Where a step can go from an instruction that ends at `next` and may branch to `target`. -/
def Goes (spec : OpSpec) (cx : EvalContext D) (next : ℕ) (target : Option ℕ) (pc : ℕ) : Prop :=
  pc = next ∨ target = some pc ∨ pc = cx.program.length ∨ (spec.op = .retSub ∧ pc ∈ cx.callstack)

/-- What the function of an instruction leaves as it was. -/
structure EvalContext.Same (cx after : EvalContext D) : Prop where
  program : after.program = cx.program
  version : after.version = cx.version
  mode : after.mode = cx.mode
  cost : after.cost = cx.cost

variable {e : LogicError} {i lsigArgs preheight n : ℕ} {types : List StackType}
  {values stack : List StackValue} {name : String}

theorem checkArgs_error (h : checkArgs name i types values = .error e) : ¬e.Static := by
  fun_induction checkArgs with
  | case1 i _ types _ values ih =>
    rw [bind_error_iff, failIf_error_iff] at h
    obtain ⟨-, rfl⟩ | ⟨_, -, h⟩ := h
    · simp [Static]
    · exact ih h
  | case2 => cases h

theorem checkReturns_error (h : checkReturns name i types values = .error e) : ¬e.Static := by
  fun_induction checkReturns with
  | case1 i _ types _ values ih =>
    rw [bind_error_iff, failIf_error_iff] at h
    obtain ⟨-, rfl⟩ | ⟨_, -, h⟩ := h
    · simp [Static]
    · rw [bind_error_iff, failIf_error_iff] at h
      obtain ⟨-, rfl⟩ | ⟨_, -, h⟩ := h
      · simp [Static]
      · exact ih h
  | case2 => cases h

theorem checkAfter_error {spec : OpSpec} (h : checkAfter spec preheight stack = .error e) :
    ¬e.Static := by
  simp only [checkAfter, bind_error_iff, failIf_error_iff] at h
  obtain ⟨-, rfl⟩ | ⟨_, -, h | ⟨_, -, -, rfl⟩⟩ := h
  · simp [Static]
  · exact checkReturns_error h
  · simp [Static]

section

variable {exec : Exec D} {spec : OpSpec} {cx after : EvalContext D} {next nextpc : ℕ}
  {target : Option ℕ} {details : OpDetails} {program : Program} {pc version : ℕ}

theorem advance_plain (hc : details.checkFunc = none)
    (h : advance version program pc details = .ok (next, target)) :
    next = pc + details.size ∧ target = none := by
  rw [advance, hc] at h
  obtain ⟨rfl, rfl⟩ := Prod.mk.inj (Except.ok.inj h)
  exact ⟨rfl, rfl⟩

theorem advance_branch (hc : details.checkFunc = some .branch)
    (h : advance version program pc details = .ok (next, target)) :
    next = pc + 3 ∧ ∃ t, target = some t ∧ branchTarget version program pc = .ok t := by
  rw [advance, hc] at h
  simp only [bind_ok, pure_pair] at h
  obtain ⟨t, ht, rfl, rfl⟩ := h
  exact ⟨rfl, t, rfl, ht⟩

/-- The part of an instruction's function that reads the program cannot fail where the check has
succeeded, and goes where the check expects. -/
structure Follows (spec : OpSpec) (cx : EvalContext D) (next : ℕ) (target : Option ℕ)
    (r : Except LogicError (EvalContext D × ℕ)) : Prop where
  error : ∀ e, r = .error e → ¬e.Static
  same : ∀ after nextpc, r = .ok (after, nextpc) → cx.Same after
  goes : ∀ after nextpc, r = .ok (after, nextpc) →
    Goes spec cx next target (if nextpc ≠ 0 then nextpc else cx.pc + spec.details.size)
  returns : ∀ after nextpc, r = .ok (after, nextpc) →
    ∀ p ∈ after.callstack, p = next ∨ p ∈ cx.callstack

theorem Follows.fail (he : ¬e.Static) : Follows spec cx next target (.error e) := by
  refine ⟨?_, ?_, ?_, ?_⟩
  · rintro _ ⟨⟩
    exact he
  all_goals intro _ _ h; cases h

theorem Follows.pass (hm : cx.Same after)
    (hg : Goes spec cx next target (if nextpc ≠ 0 then nextpc else cx.pc + spec.details.size))
    (hr : ∀ p ∈ after.callstack, p = next ∨ p ∈ cx.callstack) :
    Follows spec cx next target (.ok (after, nextpc)) := by
  refine ⟨nofun, ?_, ?_, ?_⟩
  · rintro _ _ ⟨⟩
    exact hm
  · rintro _ _ ⟨⟩
    exact hg
  · rintro _ _ ⟨⟩
    exact hr

/-- `nextpc` is where the instruction ends or branches to; if it is 0, the size is added, which
leads to the end as well. -/
theorem goes_of_nextpc (hz : cx.pc + spec.details.size = next)
    (h : nextpc = next ∨ target = some nextpc ∨ nextpc = cx.program.length ∨
      (spec.op = .retSub ∧ nextpc ∈ cx.callstack)) :
    Goes spec cx next target (if nextpc ≠ 0 then nextpc else cx.pc + spec.details.size) := by
  split_ifs
  · exact h
  · exact .inl hz

/-- A constant of variable length ends where the check has found its end. -/
theorem goes_of_next (hl : cx.pc < next) :
    Goes spec cx next target (if next ≠ 0 then next else cx.pc + spec.details.size) := by
  rw [if_pos (by omega)]
  exact .inl rfl

theorem follows_branchIf (taken : UInt64 → Bool) (hz : spec.details.size = 3)
    (hc : spec.details.checkFunc = some .branch)
    (h : advance cx.version cx.program cx.pc spec.details = .ok (next, target)) :
    Follows spec cx next target (branchIf taken cx) := by
  obtain ⟨rfl, t, rfl, ht⟩ := advance_branch hc h
  rw [branchIf, ht]
  split_ifs
  · refine .pass ⟨rfl, rfl, rfl, rfl⟩ (goes_of_nextpc (by rw [hz]) ?_) fun p hp => .inr hp
    exact .inr (.inl rfl)
  · refine .pass ⟨rfl, rfl, rfl, rfl⟩ (goes_of_nextpc (by rw [hz]) ?_) fun p hp => .inr hp
    exact .inl rfl

/-- The function of an instruction that the check has accepted. -/
theorem follows_eval (hf : spec.op.Fits spec.details)
    (h : advance cx.version cx.program cx.pc spec.details = .ok (next, target)) :
    Follows spec cx next target (spec.op.eval exec spec cx) := by
  generalize ho : spec.op = op at hf ⊢
  cases op with
  | err => exact .fail (by simp [Static])
  | ret =>
    obtain ⟨rfl, rfl⟩ := advance_plain hf.2 h
    refine .pass ⟨rfl, rfl, rfl, rfl⟩ (goes_of_nextpc rfl ?_) fun p hp => .inr hp
    exact .inr (.inr (.inl rfl))
  | bnz =>
    exact follows_branchIf (· != 0) hf.1 hf.2 h
  | bz =>
    exact follows_branchIf (· == 0) hf.1 hf.2 h
  | b =>
    obtain ⟨rfl, t, rfl, ht⟩ := advance_branch hf.2 h
    rw [Op.eval, opB, ht]
    refine .pass ⟨rfl, rfl, rfl, rfl⟩ (goes_of_nextpc (by rw [hf.1]) ?_) fun p hp => .inr hp
    exact .inr (.inl rfl)
  | callSub =>
    obtain ⟨rfl, t, rfl, ht⟩ := advance_branch hf.2 h
    rw [Op.eval, opCallSub, opB, ht]
    refine .pass ⟨rfl, rfl, rfl, rfl⟩ (goes_of_nextpc (by rw [hf.1]) ?_) ?_
    · exact .inr (.inl rfl)
    · exact fun p hp => List.mem_cons.mp hp
  | retSub =>
    obtain ⟨rfl, rfl⟩ := advance_plain hf.2 h
    rw [Op.eval, opRetSub]
    split
    next => exact .fail (by simp [Static])
    next p rest h1 =>
      refine .pass ⟨rfl, rfl, rfl, rfl⟩ (goes_of_nextpc rfl ?_) ?_
      · refine .inr (.inr (.inr ⟨ho, ?_⟩))
        rw [h1]
        exact List.mem_cons_self
      · intro q hq
        rw [h1]
        exact .inr (List.mem_cons_of_mem p hq)
  | intConstBlock =>
    simp only [advance, hf.2, CheckFunc.run, bind_ok, pure_pair] at h
    obtain ⟨_, hn, rfl, rfl⟩ := h
    obtain ⟨⟨_, hr⟩, hl, -⟩ := parseIntcblock_ok hn
    rw [Op.eval, hr]
    exact .pass ⟨rfl, rfl, rfl, rfl⟩ (goes_of_next hl) fun p hp => .inr hp
  | byteConstBlock =>
    simp only [advance, hf.2, CheckFunc.run, bind_ok, pure_pair] at h
    obtain ⟨_, hn, rfl, rfl⟩ := h
    obtain ⟨⟨_, hr⟩, hl, -⟩ := parseBytecBlock_ok hn
    rw [Op.eval, hr]
    exact .pass ⟨rfl, rfl, rfl, rfl⟩ (goes_of_next hl) fun p hp => .inr hp
  | pushBytes =>
    simp only [advance, hf.2, CheckFunc.run, bind_ok, pure_pair, Prod.exists] at h
    obtain ⟨vl, _, hr, rfl, rfl⟩ := h
    rw [Op.eval, hr]
    exact .pass ⟨rfl, rfl, rfl, rfl⟩ (goes_of_next (parsePushBytes_ok hr).1) fun p hp => .inr hp
  | pushInt =>
    simp only [advance, hf.2, CheckFunc.run, bind_ok, pure_pair, Prod.exists] at h
    obtain ⟨vl, _, hr, rfl, rfl⟩ := h
    rw [Op.eval, hr]
    exact .pass ⟨rfl, rfl, rfl, rfl⟩ (goes_of_next (parsePushInt_ok hr).1) fun p hp => .inr hp
  | data =>
    obtain ⟨rfl, rfl⟩ := advance_plain hf.2 h
    rw [Op.eval]
    split
    next => exact .fail (by simp [Static])
    next =>
      refine .pass ⟨rfl, rfl, rfl, rfl⟩ ?_ fun p hp => .inr hp
      exact .inl rfl

end

/-! ## Runs of a checked program -/

/-- A position where evaluation may be: an instruction that was visited, or the end. -/
def CheckContext.Reached (visited : CheckContext) (program : Program) (pc : ℕ) : Prop :=
  pc = program.length ∨ pc ∈ visited.instructionStarts

/-- What holds at every step of the evaluation of a program that was checked. -/
structure Sound (visited : CheckContext) (version : ℕ) (program : Program) (mode : RunMode)
    (cx : EvalContext D) : Prop where
  sameVersion : cx.version = version
  sameProgram : cx.program = program
  sameMode : cx.mode = mode
  pc : visited.Reached program cx.pc
  returns : ∀ p ∈ cx.callstack, visited.Reached program p
  cost : version < backBranchEnabledVersion →
    cx.cost + remainingCost visited.instructionStarts (costAt version program) cx.pc ≤
      visited.staticCost

section

variable {exec : Exec D} {visited : CheckContext} {version first : ℕ} {program : Program}
  {mode : RunMode} {cx after : EvalContext D}

/-- What a successful step has done. -/
theorem step_ok (h : step exec cx = .ok after) :
    ∃ spec after' nextpc, opsByOpcode cx.version (cx.program.byte cx.pc) = some spec ∧
      spec.op.eval exec spec (cx.pay spec.details.cost) = .ok (after', nextpc) ∧
      after = { after' with pc := if nextpc ≠ 0 then nextpc else cx.pc + spec.details.size } := by
  simp only [step, bind_ok, orThrow_ok, pure_ok] at h
  obtain ⟨spec, hf, -, -, -, -, -, -, -, -, -, -, ⟨after', nextpc⟩, he, -, -, rfl⟩ := h
  exact ⟨spec, after', nextpc, hf, he, rfl⟩

section

variable (hs : Sound visited version program mode cx)
  (hv : Visited version program mode first visited)
include hs hv

/-- What the check knows of the instruction that is to be executed. -/
theorem Sound.fetch (exec : Exec D) (hl : cx.pc < cx.program.length) :
    cx.pc ∈ visited.instructionStarts ∧
      ∃ spec next target, Fetched cx.version cx.program cx.mode cx.pc spec ∧
        advance cx.version cx.program cx.pc spec.details = .ok (next, target) ∧
        Follows spec (cx.pay spec.details.cost) next target
          (spec.op.eval exec spec (cx.pay spec.details.cost)) := by
  obtain ⟨rfl, rfl, rfl⟩ := And.intro hs.sameVersion (And.intro hs.sameProgram hs.sameMode)
  obtain _ | hm := hs.pc
  · omega
  · obtain ⟨spec, next, target, hf, ha⟩ := hv.legal _ hm
    exact ⟨hm, spec, next, target, hf, ha, follows_eval (opsByOpcode_fits hf.found) ha⟩

theorem Sound.step (he : visited.pc = program.length) (hlt : cx.pc < cx.program.length)
    (h : step exec cx = .ok after) : Sound visited version program mode after := by
  obtain ⟨hm, sp, next, tr, h3, ha, hl⟩ := hs.fetch hv exec hlt
  obtain ⟨_, af', nx, hf, h2, rfl⟩ := step_ok h
  obtain rfl := Option.some.inj (h3.found.symm.trans hf)
  have h1 := hl.same _ _ h2
  have hg := hl.goes _ _ h2
  obtain ⟨hne, hn, ht⟩ := advance_within h3 ha
  obtain ⟨rfl, rfl, rfl⟩ := And.intro hs.sameVersion (And.intro hs.sameProgram hs.sameMode)
  have h4 : visited.Reached cx.program next := by
    obtain hq | hi := hv.covers.lands hm (hn.trans he.ge) (.inl ⟨sp, tr, hf, ha⟩)
    · exact .inl (hq.trans he)
    · exact .inr hi
  refine ⟨h1.version, h1.program, h1.mode, ?_, ?_, fun ho => ?_⟩
  · obtain hq | hj | hq | ⟨-, hr⟩ := hg
    · exact hq ▸ h4
    · obtain hq | hi := hv.covers.lands hm ((ht _ hj).trans he.ge)
        (.inr ⟨sp, next, hf, hj ▸ ha⟩)
      · exact .inl (hq.trans he)
      · exact .inr hi
    · exact .inl hq
    · exact hs.returns _ hr
  · intro p hp
    obtain rfl | hp := hl.returns _ _ h2 p hp
    · exact h4
    · exact hs.returns p hp
  · -- before back branches the program counter only grows
    have h5 : cx.pc < if nx ≠ 0 then nx else cx.pc + sp.details.size := by
      obtain hq | hj | hq | ⟨hr, -⟩ := hg
      · exact hq ▸ hne
      · have := (branchTarget_ok (advance_jump (hj ▸ ha))).2 ho
        exact Nat.lt_of_lt_of_le (Nat.lt_add_of_pos_right (by decide)) this
      · exact hq ▸ hlt
      · exact absurd hr (opsByOpcode_noSub hf ho).2
    have hc : costAt cx.version cx.program cx.pc = sp.details.cost := by
      rw [costAt, hf, Option.elim_some]
    have hd : costAt cx.version cx.program cx.pc + _ ≤ _ := remainingCost_step hm h5
    have hb := hs.cost ho
    have h6 : af'.cost = cx.cost + sp.details.cost := h1.cost
    simp only [h6]
    omega

theorem Sound.step_error (ht : cx.pc < cx.program.length) (h : Avm.step exec cx = .error e) :
    ¬e.Static := by
  obtain ⟨-, _, _, _, hf, _, hl⟩ := hs.fetch hv exec ht
  simp only [Avm.step, hf.found, orThrow_some, ok_bind, bind_error_iff, failIf_error_iff] at h
  obtain ⟨hm, -⟩ | ⟨-, -, ⟨-, rfl⟩ | ⟨-, -, hr | ⟨-, -, ⟨hw, -⟩ | ⟨-, -,
    ⟨-, rfl⟩ | ⟨-, -, he | ⟨⟨_, _⟩, -, ha⟩⟩⟩⟩⟩⟩ := h
  · exact absurd hf.allowed hm
  · simp [Static]
  · exact checkArgs_error hr
  · exact absurd hw hf.whole
  · simp [Static]
  · exact hl.error e he
  · obtain ha | ⟨_, _, hp⟩ := ha
    · exact checkAfter_error ha
    · cases hp

/-- A whole run of a program that was checked. -/
theorem Sound.run (he : visited.pc = program.length) :
    (∀ after, run exec n cx = .ok after → Sound visited version program mode after) ∧
      ∀ e, run exec n cx = .error e → ¬e.Static := by
  induction n generalizing cx with
  | zero =>
    refine ⟨fun after h => ?_, nofun⟩
    exact Except.ok.inj h ▸ hs
  | succ n ih =>
    rw [Avm.run]
    split_ifs with hl
    · constructor
      · intro after h
        obtain ⟨cx', ht, h⟩ := bind_ok.mp h
        exact (ih (hs.step hv he hl ht)).1 after h
      · intro e h
        obtain h | ⟨cx', ht, h⟩ := bind_error_iff.mp h
        · exact hs.step_error hv hl h
        · exact (ih (hs.step hv he hl ht)).2 e h
    · refine ⟨fun after h => ?_, nofun⟩
      exact Except.ok.inj h ▸ hs

end

variable {checkParams params : Params} {clearState : Bool} {data : D}

/-- The evaluation of a checked program starts at its first instruction. -/
theorem startEval_sound (hc : check checkParams program mode = .ok visited)
    (h : startEval params mode clearState lsigArgs program data = .ok cx) :
    ∃ vlen, Visited cx.version program mode vlen visited ∧ visited.pc = program.length ∧
      Sound visited cx.version program mode cx := by
  obtain ⟨version, vlen, hr, hv, he⟩ := check_visited hc
  simp only [startEval, bind_ok, pure_ok] at h
  obtain ⟨-, -, -, -, ⟨_, _⟩, hc', rfl⟩ := h
  obtain ⟨rfl, rfl⟩ := Prod.mk.inj (Except.ok.inj (hr.symm.trans (versionCheck_ok hc')))
  refine ⟨vlen, hv, he, rfl, rfl, rfl, ?_, by simp, fun _ => ?_⟩
  · exact hv.entry.imp_left fun h => h.trans he
  · simp only [Nat.zero_add]
    exact (remainingCost_le _ _ _).trans hv.cost.ge

theorem versionCheck_error (h : versionCheck params program = .error e) : ¬e.Static := by
  simp only [versionCheck, programVersion, bind_error_iff, failIf_error_iff, orThrow_error_iff] at h
  obtain (⟨-, rfl⟩ | ⟨_, -, -, rfl⟩) | ⟨_, -, ⟨-, rfl⟩ | ⟨_, -, ⟨-, rfl⟩ | ⟨_, -, ⟨-, rfl⟩ | h⟩⟩⟩ := h
  iterate 5 simp [Static]
  obtain ⟨_, -, h⟩ := h
  cases h

theorem startEval_error (h : startEval params mode clearState lsigArgs program data = .error e) :
    ¬e.Static := by
  simp only [startEval, bind_error_iff, failIf_error_iff] at h
  obtain ⟨-, rfl⟩ | ⟨_, -, ⟨-, rfl⟩ | ⟨_, -, h | ⟨_, -, h⟩⟩⟩ := h
  · simp [Static]
  · simp [Static]
  · exact versionCheck_error h
  · cases h

end

/-- Whatever the stack and the data are, a checked program runs through visited instructions only,
fails for no reason that is in its text, and costs at most what the check has found where it cannot
go back. -/
theorem checked_program_runs_soundly (exec : Exec D) (checkParams params : Params) (program : Program)
    (mode : RunMode) (visited : CheckContext) (hcheck : check checkParams program mode = .ok visited)
    (clearState : Bool) (lsigArgs : ℕ) (data : D) (n : ℕ) :
    (∀ cx, evalSteps exec params mode clearState lsigArgs program data n = .ok cx →
      (cx.pc = program.length ∨ cx.pc ∈ visited.instructionStarts) ∧
      (cx.version < backBranchEnabledVersion → cx.cost ≤ visited.staticCost)) ∧
    ∀ e, evalSteps exec params mode clearState lsigArgs program data n = .error e → ¬e.Static := by
  constructor
  · intro cx h
    obtain ⟨cx0, ht, hr⟩ := bind_ok.mp h
    obtain ⟨vl, hv, he, hs⟩ := startEval_sound hcheck ht
    have hn := (hs.run hv he).1 cx hr
    refine ⟨hn.pc, fun ho => ?_⟩
    exact (Nat.le_add_right _ _).trans (hn.cost (hn.sameVersion ▸ ho))
  · intro e h
    obtain h | ⟨cx0, ht, hr⟩ := bind_error_iff.mp h
    · exact startEval_error h
    · obtain ⟨vl, hv, he, hs⟩ := startEval_sound hcheck ht
      exact (hs.run hv he).2 e hr

namespace Sample

/-- `pushint 1; bnz done; err; done: pushint 1` in version 3. -/
def program : Program := ⟨[3, 0x81, 1, 0x40, 0, 1, 0x00, 0x81, 1], by decide⟩

def params : Params :=
  { logicSigVersion := 6, logicSigMaxCost := 20000, maxAppProgramCost := 700
    isolateClearState := true, minTealVersion := 0, pooledApplicationBudget := none }

/-- No instruction of the program works on data. -/
def exec : Exec Unit := fun _ _ => .error ""

end Sample

open Sample

/-- The branch is taken, so that `err` is visited by the check but not executed. -/
theorem checked_program_runs_soundly_branch :
    ∃ visited, check params program .signature = .ok visited ∧
      visited.staticCost = 4 ∧
      (evalSteps exec params .signature false 0 program () 3).map
        (fun cx => (cx.pc, cx.cost)) = .ok (9, 3) ∧
      ∀ n e, evalSteps exec params .signature false 0 program () n = .error e →
        ¬e.Static := by
  obtain ⟨visited, hc, h1⟩ := exists_ok_of_toOption
    (show (check params program .signature).toOption.map (·.staticCost) = some 4 by decide +kernel)
  refine ⟨visited, hc, h1, by decide +kernel, fun n => ?_⟩
  exact (checked_program_runs_soundly exec params params program
    .signature visited hc false 0 () n).2

end Novarand.Avm
