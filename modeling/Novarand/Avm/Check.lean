import Novarand.Avm.Decode
import Novarand.Lib.Sweep

/-!
# The static check of a program

`check` of `data/transactions/logic/eval.go` goes through the instructions of a program once, without
evaluating them. It is a `Sweep` over the program: `Visited` says what is known of the instructions it
has passed, and `check_visited` that an accepted program was visited as a whole.
-/

namespace Novarand.Avm

/-- What `check` and `eval` read of `EvalParams` and its protocol. -/
structure Params where
  logicSigVersion : ℕ
  logicSigMaxCost : ℕ
  maxAppProgramCost : ℕ
  isolateClearState : Bool
  minTealVersion : ℕ
  pooledApplicationBudget : Option ℤ

def programVersion (program : Program) : Except LogicError (ℕ × ℕ) := do
  failIf (program.length = 0) .emptyProgram
  orThrow .invalidVersion (uvarint (program.drop 0))

variable (params : Params)

def versionCheck (program : Program) : Except LogicError (ℕ × ℕ) := do
  let (version, vlen) ← programVersion program
  failIf (evalMaxVersion < version) (.versionAboveMax version)
  failIf (params.logicSigVersion < version) (.versionAboveProtocol version params.logicSigVersion)
  failIf (version < params.minTealVersion) (.versionBelowMin params.minTealVersion version)
  return (version, vlen)

variable {program : Program} {pc version : ℕ} {cost prevpc t vlen : ℕ}

theorem versionCheck_ok {params : Params} (h : versionCheck params program = .ok (version, vlen)) :
    programVersion program = .ok (version, vlen) := by
  simp only [versionCheck, bind_ok, pure_ok] at h
  obtain ⟨⟨v, l⟩, h, -, -, -, -, -, -, he⟩ := h
  rw [h, he]

theorem programVersion_ok (h : programVersion program = .ok (version, vlen)) :
    vlen ≤ program.length := by
  simp only [programVersion, bind_ok, orThrow_ok] at h
  obtain ⟨-, -, h⟩ := h
  have := (uvarint_drop h).2.1
  omega

/-- `remainingBudget`: `clearState` says that the transaction is set and clears the state. -/
def remainingBudget (mode : RunMode) (clearState : Bool) (pooled : Option ℤ) (cost : ℕ) : ℤ :=
  if mode = .signature then params.logicSigMaxCost - cost
  else if params.isolateClearState ∧ clearState then params.maxAppProgramCost - cost
  else pooled.getD (params.maxAppProgramCost - cost)

/-! ## The check functions -/

/-- `checkBranch`, with the target it notes. -/
def checkBranch (version : ℕ) (program : Program) (pc : ℕ) (instructionStarts : Finset ℕ) :
    Except LogicError (ℕ × ℕ) := do
  let nextpc := pc + 3
  let target ← branchTarget version program pc
  failIf (target < nextpc ∧ target ∉ instructionStarts) (.backUnaligned target)
  return (nextpc, target)

/-- The check function of an instruction: `nextpc` and the branch target it notes. -/
def CheckFunc.run (version : ℕ) (program : Program) (pc : ℕ) (instructionStarts : Finset ℕ) :
    CheckFunc → Except LogicError (ℕ × Option ℕ)
  | .branch => do
    let (nextpc, target) ← checkBranch version program pc instructionStarts
    return (nextpc, some target)
  | .intConstBlock => do
    let nextpc ← checkIntConstBlock program pc
    return (nextpc, none)
  | .byteConstBlock => do
    let nextpc ← checkByteConstBlock program pc
    return (nextpc, none)
  | .pushBytes => do
    let (_, nextpc) ← parsePushBytes program pc
    return (nextpc, none)
  | .pushInt => do
    let (_, nextpc) ← parsePushInt program pc
    return (nextpc, none)

/-- The check function of an instruction, if it has one; `nextpc` is 0 where none was set. -/
def OpDetails.runCheck (version : ℕ) (program : Program) (pc : ℕ) (instructionStarts : Finset ℕ)
    (deets : OpDetails) : Except LogicError (ℕ × Option ℕ) :=
  match deets.checkFunc with
  | some checkFunc => checkFunc.run version program pc instructionStarts
  | none => .ok (0, none)

structure CheckContext where
  pc : ℕ
  branchTargets : Finset ℕ := ∅
  instructionStarts : Finset ℕ := ∅
  staticCost : ℕ := 0

/-- The first branch target strictly between two positions. -/
def firstTarget (targets : Finset ℕ) (prevpc pc : ℕ) : Option ℕ :=
  (List.range' (prevpc + 1) (pc - (prevpc + 1))).find? (· ∈ targets)

/-- `checkStep`, with the cost of the instruction. -/
def checkStep (version : ℕ) (program : Program) (mode : RunMode) (cx : CheckContext) :
    Except LogicError (CheckContext × ℕ) := do
  let instructionStarts := insert cx.pc cx.instructionStarts
  let opcode := program.byte cx.pc
  let spec ← orThrow (.illegalOpcode cx.pc opcode) (opsByOpcode version opcode)
  failIf (mode ∉ spec.modes) (.modeNotAllowed spec.name)
  let deets := spec.details
  failIf (deets.size ≠ 0 ∧ program.length < cx.pc + deets.size) (.shortImmediates cx.pc spec.name)
  let (nextpc, target) ← deets.runCheck version program cx.pc instructionStarts
  let pc := if nextpc ≠ 0 then nextpc else cx.pc + deets.size
  let branchTargets := target.elim cx.branchTargets fun t => insert t cx.branchTargets
  match firstTarget branchTargets cx.pc pc with
  | some t => throw (.unaligned t)
  | none => return ({ cx with pc, branchTargets, instructionStarts }, deets.cost)

/-- The loop of `check`. An iteration that does not advance fails, so there are at most as many as
bytes. -/
def checkLoop (version : ℕ) (program : Program) (mode : RunMode) (maxCost : ℤ) :
    ℕ → CheckContext → Except LogicError CheckContext
  | 0, cx => do
    failIf (cx.pc < program.length) (.stuck cx.pc)
    return cx
  | left + 1, cx =>
    if cx.pc < program.length then do
      let (next, stepCost) ← checkStep version program mode cx
      let next := { next with staticCost := cx.staticCost + stepCost }
      failIf (maxCost < next.staticCost) (.staticCost next.pc maxCost)
      failIf (next.pc ≤ cx.pc) (.stuck next.pc)
      checkLoop version program mode maxCost left next
    else .ok cx

/-- `check`, with what it has collected at its end. -/
def check (program : Program) (mode : RunMode) :
    Except LogicError CheckContext := do
  failIf (params.logicSigVersion = 0) .notSupported
  let (version, vlen) ← versionCheck params program
  let maxCost :=
    if backBranchEnabledVersion ≤ version then 2 ^ 31 - 1
    else remainingBudget params mode false params.pooledApplicationBudget 0
  checkLoop version program mode maxCost program.length { pc := vlen }

/-! ## What a step of the check has seen -/

/-- The instruction at `pc` is there, as a whole, and allowed. -/
structure Fetched (version : ℕ) (program : Program) (mode : RunMode) (pc : ℕ) (spec : OpSpec) :
    Prop where
  found : opsByOpcode version (program.byte pc) = some spec
  allowed : mode ∈ spec.modes
  whole : ¬(spec.details.size ≠ 0 ∧ program.length < pc + spec.details.size)

/-- Where an instruction ends and may branch to. -/
def advance (version : ℕ) (program : Program) (pc : ℕ) (details : OpDetails) :
    Except LogicError (ℕ × Option ℕ) :=
  match details.checkFunc with
  | none => .ok (pc + details.size, none)
  | some .branch => do
    let target ← branchTarget version program pc
    return (pc + 3, some target)
  | some checkFunc => checkFunc.run version program pc ∅

variable {left next : ℕ} {target : Option ℕ} {mode : RunMode}

theorem advance_within {spec : OpSpec} (hf : Fetched version program mode pc spec)
    (h : advance version program pc spec.details = .ok (next, target)) :
    pc < next ∧ next ≤ program.length ∧ ∀ t, target = some t → t ≤ program.length := by
  have hi := opsByOpcode_fits hf.found
  have hw := hf.whole
  unfold advance at h
  split at h
  next h1 =>
    have hs : 0 < spec.details.size := by
      revert hi h1
      cases spec.op <;> simp +contextual [Op.Fits]
    obtain ⟨rfl, rfl⟩ := Prod.mk.inj (Except.ok.inj h)
    exact ⟨by omega, by omega, by simp⟩
  next hb =>
    have hs : spec.details.size = 3 := by
      revert hi hb
      cases spec.op <;> simp +contextual [Op.Fits]
    simp only [bind_ok, pure_pair] at h
    obtain ⟨t, ht, rfl, rfl⟩ := h
    refine ⟨by omega, by omega, fun u hu => ?_⟩
    exact Option.some.inj hu ▸ (branchTarget_ok ht).1
  next f he hm =>
    cases f with
    | branch => exact absurd rfl he
    | intConstBlock =>
      simp only [CheckFunc.run, bind_ok, pure_pair] at h
      obtain ⟨n, hn, rfl, rfl⟩ := h
      exact ⟨(parseIntcblock_ok hn).2.1, (parseIntcblock_ok hn).2.2, by simp⟩
    | byteConstBlock =>
      simp only [CheckFunc.run, bind_ok, pure_pair] at h
      obtain ⟨n, hn, rfl, rfl⟩ := h
      exact ⟨(parseBytecBlock_ok hn).2.1, (parseBytecBlock_ok hn).2.2, by simp⟩
    | pushBytes =>
      simp only [CheckFunc.run, bind_ok, pure_pair] at h
      obtain ⟨⟨v, n⟩, hn, rfl, rfl⟩ := h
      exact ⟨(parsePushBytes_ok hn).1, (parsePushBytes_ok hn).2, by simp⟩
    | pushInt =>
      simp only [CheckFunc.run, bind_ok, pure_pair] at h
      obtain ⟨⟨v, n⟩, hn, rfl, rfl⟩ := h
      exact ⟨(parsePushInt_ok hn).1, (parsePushInt_ok hn).2, by simp⟩

variable {details : OpDetails}

/-- Only branches have a target. -/
theorem advance_jump (h : advance version program pc details = .ok (next, some t)) :
    branchTarget version program pc = .ok t := by
  unfold advance at h
  split at h
  next => cases h
  next =>
    simp only [bind_ok, pure_ok] at h
    obtain ⟨u, hu, h⟩ := h
    cases h
    exact hu
  next f hn _ =>
    cases f with
    | branch => exact absurd rfl hn
    | intConstBlock | byteConstBlock | pushBytes | pushInt =>
      simp only [CheckFunc.run, bind_ok, pure_ok] at h
      obtain ⟨_, _, h⟩ := h
      cases h

theorem firstTarget_none {targets : Finset ℕ} (h : firstTarget targets prevpc pc = none)
    (ht : t ∈ targets) (hl : prevpc < t) : pc ≤ t := by
  by_contra hge
  have hm : t ∈ List.range' (prevpc + 1) (pc - (prevpc + 1)) := by
    rw [List.mem_range'_1]
    omega
  have := List.find?_eq_none.mp h t hm
  simp [ht] at this

/-- The sweep that a check is. -/
def CheckContext.sweep (cx : CheckContext) : Sweep :=
  ⟨cx.pc, cx.instructionStarts, cx.branchTargets⟩

/-- What a step of the check has seen. -/
structure CheckedStep (version : ℕ) (program : Program) (mode : RunMode) (cx next : CheckContext)
    (spec : OpSpec) (target : Option ℕ) : Prop where
  fetched : Fetched version program mode cx.pc spec
  advances : advance version program cx.pc spec.details = .ok (next.pc, target)
  visits : next.sweep = cx.sweep.visit next.pc target
  back : ∀ t, target = some t → t < next.pc → t = cx.pc ∨ t ∈ cx.instructionStarts
  middle : ∀ t ∈ next.branchTargets, cx.pc < t → next.pc ≤ t

/-- The check function of an instruction finds its end, and a target behind it only at a start. -/
theorem CheckFunc.run_ok {starts : Finset ℕ} {f : CheckFunc} (hf : details.checkFunc = some f)
    (h : f.run version program pc starts = .ok (next, target)) :
    advance version program pc details = .ok (next, target) ∧
      ∀ t, target = some t → t < next → t ∈ starts := by
  rw [advance, hf]
  cases f with
  | branch =>
    simp only [run, checkBranch, bind_ok, failIf_ok, pure_ok, Prod.mk.injEq] at h
    obtain ⟨-, ⟨t, ht, -, hb, rfl⟩, rfl, rfl⟩ := h
    refine ⟨by simp only [ht, ok_bind]; rfl, fun u hu hl => ?_⟩
    obtain rfl := Option.some.inj hu
    by_contra hn
    exact hb ⟨hl, hn⟩
  | intConstBlock | byteConstBlock | pushBytes | pushInt =>
    refine ⟨h, fun t ht => ?_⟩
    simp only [run, bind_ok, pure_ok] at h
    obtain ⟨_, _, h⟩ := h
    rw [← (Prod.mk.inj h).2] at ht
    cases ht

theorem checkStep_ok {cx next : CheckContext}
    (h : checkStep version program mode cx = .ok (next, cost)) :
    ∃ spec target, CheckedStep version program mode cx next spec target ∧
      cost = spec.details.cost ∧ next.staticCost = cx.staticCost := by
  simp only [checkStep, bind_ok, orThrow_ok, failIf_ok] at h
  obtain ⟨spec, hn, -, hm, -, hw, ⟨nx, target⟩, hc, h⟩ := h
  have h1 : Fetched version program mode cx.pc spec := ⟨hn, not_not.mp hm, hw⟩
  -- where the instruction ends, whether it has a check function or not
  have hd : advance version program cx.pc spec.details =
        .ok (if nx ≠ 0 then nx else cx.pc + spec.details.size, target) ∧
      ∀ t, target = some t → t < (if nx ≠ 0 then nx else cx.pc + spec.details.size) →
        t ∈ insert cx.pc cx.instructionStarts := by
    cases hf : spec.details.checkFunc with
    | none =>
      rw [OpDetails.runCheck, hf] at hc
      obtain ⟨rfl, rfl⟩ := Prod.mk.inj (Except.ok.inj hc)
      refine ⟨?_, by simp⟩
      rw [advance, hf, if_neg (not_not.mpr rfl)]
    | some f =>
      rw [OpDetails.runCheck, hf] at hc
      obtain ⟨ha, hb⟩ := CheckFunc.run_ok hf hc
      have hp : nx ≠ 0 := by
        have := (advance_within h1 ha).1
        omega
      rw [if_pos hp]
      exact ⟨ha, hb⟩
  split at h
  next => cases h
  next hr =>
    obtain ⟨rfl, rfl⟩ := Prod.mk.inj (pure_ok.mp h)
    refine ⟨spec, target, ⟨h1, hd.1, rfl, fun t ht hl => ?_, ?_⟩, rfl, rfl⟩
    · exact Finset.mem_insert.mp (hd.2 t ht hl)
    · exact fun t ht hl => firstTarget_none hr ht hl

/-! ## What the check has seen -/

section

variable (version : ℕ) (program : Program)

/-- The instruction at `p` ends at `q`. -/
def Ends (p q : ℕ) : Prop :=
  ∃ spec target, opsByOpcode version (program.byte p) = some spec ∧
    advance version program p spec.details = .ok (q, target)

/-- The instruction at `p` may branch to `t`. -/
def Jumps (p t : ℕ) : Prop :=
  ∃ spec next, opsByOpcode version (program.byte p) = some spec ∧
    advance version program p spec.details = .ok (next, some t)

def costAt (p : ℕ) : ℕ := (opsByOpcode version (program.byte p)).elim 0 (·.details.cost)

/-- The instruction at `p` would be accepted by a step of the check. -/
def Legal (mode : RunMode) (p : ℕ) : Prop :=
  ∃ spec next target, Fetched version program mode p spec ∧
    advance version program p spec.details = .ok (next, target)

/-- What the check knows of the instructions it has passed. -/
structure Visited (mode : RunMode) (first : ℕ) (cx : CheckContext) : Prop where
  entry : first = cx.pc ∨ first ∈ cx.instructionStarts
  covers : cx.sweep.Covers (Ends version program) (Jumps version program)
  legal : ∀ p ∈ cx.instructionStarts, Legal version program mode p
  cost : cx.staticCost = ∑ p ∈ cx.instructionStarts, costAt version program p
  within : cx.pc ≤ program.length

end

variable {mode : RunMode} {first : ℕ} {cx next : CheckContext}

theorem Visited.step (hv : Visited version program mode first cx)
    (h : checkStep version program mode cx = .ok (next, cost)) :
    Visited version program mode first { next with staticCost := cx.staticCost + cost } := by
  obtain ⟨sp, target, hs, rfl, -⟩ := checkStep_ok h
  obtain ⟨hl, he, -⟩ := advance_within hs.fetched hs.advances
  have hf := hs.fetched.found
  have hr : next.instructionStarts = insert cx.pc cx.instructionStarts :=
    congrArg Sweep.starts hs.visits
  have hn : cx.pc ∉ cx.instructionStarts := fun hm => Nat.lt_irrefl _ (hv.covers.below _ hm)
  -- the instruction at `pc` determines its end and its target
  have hu : ∀ sp' q t, opsByOpcode version (program.byte cx.pc) = some sp' →
      advance version program cx.pc sp'.details = .ok (q, t) → q = next.pc ∧ t = target := by
    intro sp' q t hf' ha
    obtain rfl := Option.some.inj (hf'.symm.trans hf)
    exact Prod.mk.inj (Except.ok.inj (ha.symm.trans hs.advances))
  refine ⟨?_, ?_, ?_, ?_, he⟩
  · rw [hr, Finset.mem_insert]
    exact .inr hv.entry
  · change next.sweep.Covers _ _
    rw [hs.visits]
    refine hv.covers.visit hl ?_ ?_ hs.back ?_
    · rintro q ⟨sp', t, hf', ha⟩
      exact (hu sp' q t hf' ha).1
    · rintro t ⟨sp', q, hf', ha⟩
      exact (hu sp' q _ hf' ha).2.symm
    · rw [← hs.visits]
      exact hs.middle
  · intro p hp
    rw [hr] at hp
    obtain rfl | hp := Finset.mem_insert.mp hp
    · exact ⟨sp, next.pc, target, hs.fetched, hs.advances⟩
    · exact hv.legal p hp
  · rw [hr, Finset.sum_insert hn, hv.cost, Nat.add_comm]
    rw [costAt, hf, Option.elim_some]

variable {maxCost : ℤ}

theorem Visited.loop (hv : Visited version program mode first cx)
    (h : checkLoop version program mode maxCost left cx = .ok next) :
    Visited version program mode first next ∧ next.pc = program.length := by
  induction left generalizing cx with
  | zero =>
    simp only [checkLoop, bind_ok, failIf_ok, pure_ok] at h
    obtain ⟨-, he, rfl⟩ := h
    exact ⟨hv, Nat.le_antisymm hv.within (Nat.le_of_not_lt he)⟩
  | succ left ih =>
    rw [checkLoop] at h
    split_ifs at h with hl
    · simp only [bind_ok, failIf_ok] at h
      obtain ⟨⟨_, _⟩, hs, -, -, -, -, h⟩ := h
      exact ih (hv.step hs) h
    · obtain rfl := Except.ok.inj h
      exact ⟨hv, Nat.le_antisymm hv.within (Nat.le_of_not_lt hl)⟩

/-- The loop ends: with as many iterations as there are bytes left, one more changes nothing. -/
theorem checkLoop_enough (h : program.length ≤ cx.pc + left) :
    checkLoop version program mode maxCost (left + 1) cx =
      checkLoop version program mode maxCost left cx := by
  induction left generalizing cx with
  | zero =>
    have he : ¬cx.pc < program.length := by omega
    rw [checkLoop, checkLoop, if_neg he, failIf, if_neg he]
    rfl
  | succ left ih =>
    rw [checkLoop, checkLoop]
    split_ifs with hl
    · refine bind_congr fun r => bind_congr fun _ => ?_
      -- the iteration went on only if it advanced
      by_cases hs : r.1.pc ≤ cx.pc
      · simp only [failIf, if_pos hs]
        rfl
      · simp only [failIf, if_neg hs]
        exact ih (by simp only; omega)
    · rfl

/-- A program that the check accepts was visited from its first instruction to its end. -/
theorem check_visited {params : Params} (h : check params program mode = .ok cx) :
    ∃ version vlen, programVersion program = .ok (version, vlen) ∧
      Visited version program mode vlen cx ∧ cx.pc = program.length := by
  simp only [check, bind_ok] at h
  obtain ⟨-, -, ⟨version, vlen⟩, hr, h⟩ := h
  have hp := versionCheck_ok hr
  have hl := programVersion_ok hp
  have hs : Visited version program mode vlen { pc := vlen } :=
    ⟨.inl rfl, .start vlen, by simp, by simp, hl⟩
  obtain ⟨hv, he⟩ := hs.loop h
  exact ⟨version, vlen, hp, hv, he⟩

end Novarand.Avm
