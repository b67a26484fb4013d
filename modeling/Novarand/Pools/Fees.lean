import Mathlib

/-!
# The fee threshold of the transaction pool

The pool asks for a fee per byte that grows with the number of whole blocks that are pending and, by a
multiplier, with the rounds that ended with two or more of them. All of it is computed in 64-bit words.
-/

namespace Novarand.Pools

/-- What the fee threshold of a `TransactionPool` depends on. -/
structure TransactionPool where
  expFeeFactor : UInt64
  numPendingWholeBlocks : UInt64 := 0
  feeThresholdMultiplier : UInt64 := 0

namespace TransactionPool

/-- The fee after `n` turns of the loop that multiplies it. -/
def multiplied (factor : UInt64) : ℕ → UInt64 → UInt64
  | 0, feePerByte => feePerByte
  | n + 1, feePerByte => multiplied factor n (feePerByte * factor)

/-- The turns of the loop, which runs up to `int(numPendingWholeBlocks)-1`. -/
def turns (numPendingWholeBlocks : UInt64) : ℕ := (numPendingWholeBlocks.toInt64 - 1).toInt.toNat

variable (pool : TransactionPool)

/-- The fee before the loop. -/
def startFee : UInt64 :=
  if pool.feeThresholdMultiplier = 0 ∧ 1 < pool.numPendingWholeBlocks then 1
  else pool.feeThresholdMultiplier

def computeFeePerByte : UInt64 :=
  multiplied pool.expFeeFactor (turns pool.numPendingWholeBlocks) pool.startFee

/-- The least fee that `checkSufficientFee` takes for a transaction of this length. -/
def feeThreshold (encodedLength : UInt64) : UInt64 := pool.computeFeePerByte * encodedLength

/-- `addToPendingBlockEvaluator`, when the group does not fit into the block. -/
def blockFull : TransactionPool :=
  { pool with numPendingWholeBlocks := pool.numPendingWholeBlocks + 1 }

/-- `OnNewBlock`; evaluating what is left in the pool again fills `pending` whole blocks. -/
def onNewBlock (pending : UInt64) : TransactionPool :=
  { pool with
    numPendingWholeBlocks := pending
    feeThresholdMultiplier :=
      if pool.numPendingWholeBlocks = 0 then pool.feeThresholdMultiplier / pool.expFeeFactor
      else if pool.numPendingWholeBlocks = 1 then pool.feeThresholdMultiplier
      else if pool.feeThresholdMultiplier = 0 then 1
      else pool.feeThresholdMultiplier * pool.expFeeFactor }

/-- The pools that come from a new one with the given factor. -/
inductive Reached (factor : UInt64) : TransactionPool → Prop
  | make : Reached factor { expFeeFactor := factor }
  | blockFull {p : TransactionPool} (h : Reached factor p) : Reached factor p.blockFull
  | onNewBlock {p : TransactionPool} (h : Reached factor p) (pending : UInt64) :
    Reached factor (p.onNewBlock pending)

/-- One more whole block is pending, or a round ends with two or more of them before and after it. -/
inductive Loaded : TransactionPool → Prop
  | blockFull (h : pool.numPendingWholeBlocks < pool.numPendingWholeBlocks + 1) :
    Loaded pool.blockFull
  | onNewBlock {pending : UInt64} (h : 2 ≤ pool.numPendingWholeBlocks) (h' : 2 ≤ pending) :
    Loaded (pool.onNewBlock pending)

/-- Neither the fee per byte nor the threshold of any transaction is lower in `pool'`. -/
def NoLower (pool pool' : TransactionPool) : Prop :=
  pool.computeFeePerByte ≤ pool'.computeFeePerByte ∧
    ∀ encodedLength, pool.feeThreshold encodedLength ≤ pool'.feeThreshold encodedLength

variable {pool} {pool' : TransactionPool} {factor : UInt64} {n : ℕ}

theorem Reached.expFeeFactor_eq (h : Reached factor pool) : pool.expFeeFactor = factor := by
  induction h with
  | make => rfl
  | blockFull _ ih | onNewBlock _ _ ih => exact ih

/-! ### The factor 1 -/

theorem computeFeePerByte_one (hf : pool.expFeeFactor = 1) :
    pool.computeFeePerByte = pool.startFee := by
  rw [computeFeePerByte, hf]
  induction turns pool.numPendingWholeBlocks with
  | zero => rfl
  | succ n ih => rw [multiplied, UInt64.mul_one, ih]

/-- With the factor 1 the fee changes from 0 only. -/
theorem Loaded.startFee_one (h : pool.Loaded pool') (hf : pool.expFeeFactor = 1) :
    pool'.startFee = pool.startFee ∨ pool.startFee = 0 := by
  cases h with
  | blockFull h =>
    by_cases hn : 1 < pool.numPendingWholeBlocks
    · exact .inl (by simp [startFee, TransactionPool.blockFull, hn, UInt64.lt_trans hn h])
    · by_cases hm : pool.feeThresholdMultiplier = 0
      · exact .inr (by simp [startFee, hm, hn])
      · exact .inl (by simp [startFee, TransactionPool.blockFull, hm])
  | onNewBlock h =>
    have hl : 1 < pool.numPendingWholeBlocks := UInt64.lt_of_lt_of_le (by decide) h
    have hz : pool.numPendingWholeBlocks ≠ 0 := by
      intro hz
      rw [hz] at h
      exact absurd h (by decide)
    by_cases hm : pool.feeThresholdMultiplier = 0
    · simp [startFee, TransactionPool.onNewBlock, hz, (UInt64.ne_of_lt hl).symm, hm, hl]
    · simp [startFee, TransactionPool.onNewBlock, hz, (UInt64.ne_of_lt hl).symm, hm, hf]

theorem Loaded.noLower_one (h : pool.Loaded pool') (hf : pool.expFeeFactor = 1) :
    NoLower pool pool' := by
  have hf' : pool'.expFeeFactor = 1 := by
    cases h with
    | blockFull | onNewBlock => exact hf
  simp only [NoLower, feeThreshold, computeFeePerByte_one hf, computeFeePerByte_one hf']
  rcases h.startFee_one hf with hs | hs
  · rw [hs]
    exact ⟨UInt64.le_refl _, fun _ => UInt64.le_refl _⟩
  · rw [hs]
    refine ⟨UInt64.zero_le, fun len => ?_⟩
    rw [UInt64.zero_mul]
    exact UInt64.zero_le

/-! ### Other factors -/

/-- A new pool after `n` whole blocks. -/
def filled (factor : UInt64) (n : ℕ) : TransactionPool :=
  { expFeeFactor := factor, numPendingWholeBlocks := UInt64.ofNat n }

theorem filled_succ (factor : UInt64) (n : ℕ) :
    (filled factor n).blockFull = filled factor (n + 1) := by
  rw [filled, filled, UInt64.ofNat_add]
  rfl

theorem reached_filled (factor : UInt64) (n : ℕ) : Reached factor (filled factor n) := by
  induction n with
  | zero => exact .make
  | succ n ih => exact filled_succ factor n ▸ ih.blockFull

theorem loaded_filled (factor : UInt64) (h : n ≤ 2 ^ 63) :
    (filled factor n).Loaded (filled factor (n + 1)) := by
  rw [← filled_succ]
  refine .blockFull (UInt64.lt_iff_toNat_lt.mpr ?_)
  show (UInt64.ofNat n).toNat < (UInt64.ofNat n + UInt64.ofNat 1).toNat
  rw [← UInt64.ofNat_add, UInt64.toNat_ofNat', UInt64.toNat_ofNat']
  omega

/-- **Under load the threshold never drops if and only if the factor is 1.** With any other factor it
drops when its powers, or the number of blocks, no longer fit into a word. -/
theorem fee_no_lower_iff (factor : UInt64) (hfactor : 1 ≤ factor) :
    (∀ pool pool', Reached factor pool → pool.Loaded pool' → NoLower pool pool') ↔ factor = 1 := by
  constructor
  · intro ha
    have hm : ∀ n, n + 1 ≤ 2 ^ 63 → (filled factor 2).computeFeePerByte ≤
        (filled factor (n + 2)).computeFeePerByte := by
      intro n _
      induction n with
      | zero => exact UInt64.le_refl _
      | succ n ih =>
        have hs := ha _ _ (reached_filled factor (n + 2)) (loaded_filled factor (by omega))
        exact UInt64.le_trans (ih (by omega)) hs.1
    -- a number of blocks that is negative as an `int` leaves the loop without a turn
    have ht : (filled factor 2).computeFeePerByte = factor := by
      show multiplied factor (turns (UInt64.ofNat 2)) 1 = factor
      exact UInt64.one_mul factor
    have hn : (filled factor (2 ^ 63 + 1)).computeFeePerByte = 1 := by
      show multiplied factor (turns (UInt64.ofNat (2 ^ 63 + 1))) 1 = 1
      rfl
    have he := hm (2 ^ 63 - 1) (by decide)
    rw [ht, show 2 ^ 63 - 1 + 2 = 2 ^ 63 + 1 by omega, hn] at he
    exact UInt64.le_antisymm he hfactor
  · rintro rfl pool pool' hr hl
    exact hl.noLower_one hr.expFeeFactor_eq

theorem fee_no_lower_iff_two : (1 : UInt64) ≤ 2 ∧
    ¬∀ pool pool', Reached 2 pool → pool.Loaded pool' → NoLower pool pool' :=
  ⟨by decide, fun h => absurd ((fee_no_lower_iff 2 (by decide)).mp h) (by decide)⟩

/-- With the default factor, the 65th whole block takes the fee per byte from `2 ^ 63` to 0. -/
theorem fee_wraps : Reached 2 (filled 2 64) ∧ (filled 2 64).Loaded (filled 2 65) ∧
    (filled 2 64).computeFeePerByte = 2 ^ 63 ∧ (filled 2 65).computeFeePerByte = 0 :=
  ⟨reached_filled 2 64, loaded_filled 2 (by decide), by decide +kernel, by decide +kernel⟩

end TransactionPool

end Novarand.Pools
