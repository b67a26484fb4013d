import Novarand.Ledger.Basics

/-!
# Rewards — the rate, the level and the incentive pool

Every block adds the rewards rate, plus what earlier blocks left over, to the accounts in whole
units and takes that amount from the incentive pool; the rate is refreshed at the recalculation
rounds from what the pool can spend. The amount `pool - residue` falls by exactly the rate in every
block, so a pool that can pay the rate until the next recalculation round keeps its minimum balance.
-/

namespace Novarand.Ledger

open Option Nat

structure RewardsState where
  feeSink : Address := 0
  rewardsPool : Address := 0
  rewardsLevel : ℕ := 0
  rewardsRate : ℕ := 0
  rewardsResidue : ℕ := 0
  rewardsRecalculationRound : Round := 0
  deriving DecidableEq

namespace RewardsState

variable (proto : ConsensusParams)

variable (s : RewardsState)

variable (nextRound : Round)

variable (incentivePoolBalance : MicroNovas)

/-- The refresh of the rate in `NextRewardsState`: what the pool can spend above its minimum balance
and the pending residue, over the refresh interval. -/
def refreshRate :
    Except EvalError RewardsState :=
  let maxSpentOver :=
    if proto.pendingResidueRewards then
      -- on an overflow there are to be no rewards
      (oAdd proto.minBalance s.rewardsResidue).getD incentivePoolBalance
    else proto.minBalance
  let newRate := (oSub incentivePoolBalance maxSpentOver).getD 0
  if proto.rewardsRateRefreshInterval = 0 then throw .divideByZeroPanic
  else pure { s with
    rewardsRate := newRate / proto.rewardsRateRefreshInterval
    rewardsRecalculationRound := nextRound + proto.rewardsRateRefreshInterval }

/-- The first part of `NextRewardsState`: the rate is refreshed at the recalculation round. -/
def refreshed :
    Except EvalError RewardsState :=
  if nextRound = s.rewardsRecalculationRound then s.refreshRate proto nextRound incentivePoolBalance
  else pure s

/-- The last part of `NextRewardsState`: the new level and residue; on an overflow the old ones. -/
def addRewards (res : RewardsState) (rewardsRate totalRewardUnits : ℕ) : RewardsState :=
  let next := do
    let rewardsWithResidue ← oAdd rewardsRate res.rewardsResidue
    let level ← oAdd res.rewardsLevel (rewardsWithResidue / totalRewardUnits)
    return { res with
      rewardsLevel := level
      rewardsResidue := rewardsWithResidue % totalRewardUnits }
  next.getD res

def nextRewardsState (totalRewardUnits : ℕ) : Except EvalError RewardsState := do
  let res ← s.refreshed proto nextRound incentivePoolBalance
  if totalRewardUnits = 0 then
    return res
  let rewardsRate := if proto.rewardsCalculationFix then res.rewardsRate else s.rewardsRate
  return res.addRewards rewardsRate totalRewardUnits

/-- The rewards state of the block `MakeGenesisBlock` builds for a pool of `initialRewards`. -/
def genesis (feeSink rewardsPool : Address) (initialRewards : MicroNovas) : RewardsState where
  feeSink := feeSink
  rewardsPool := rewardsPool
  rewardsRecalculationRound := proto.rewardsRateRefreshInterval
  rewardsRate :=
    if proto.initialRewardsRateCalculation then
      subSaturate initialRewards proto.minBalance / proto.rewardsRateRefreshInterval
    else initialRewards / proto.rewardsRateRefreshInterval

end RewardsState

/-- The withdrawal in `StartEvaluator`: the pool pays the step of the level for all reward units and
keeps its minimum. -/
def withdrawRewards (proto : ConsensusParams) (round : Round) (prevLevel level totalRewardUnits : ℕ)
    (poolOld : AccountData) : Except EvalError AccountData := do
  let rewardsPerUnit ← orThrow (.rewardsLevelDecreased round) (oSub level prevLevel)
  let rewards ← orThrow (.rewardUnitOverflow round) (oMul totalRewardUnits rewardsPerUnit)
  let left ← orThrow (.rewardUnitOverflow round) (oSub poolOld.microNovas rewards)
  -- the branch that is not supposed to happen
  let _ ← orThrow (.rewardsOverspent round) (oSub left proto.minBalance)
  return { poolOld with microNovas := left }

/-- The rewards part of `StartEvaluator` for a generated block: the next rewards state from the pool
as the previous block left it, and the pool after the withdrawal. -/
def startRewards (prevProto proto : ConsensusParams) (prev : RewardsState) (round : Round)
    (totalRewardUnits : ℕ) (pool : AccountData) : Except EvalError (RewardsState × AccountData) := do
  let incentivePoolData ← orThrow .rewardsOverflowPanic
    (pool.withUpdatedRewards prevProto prev.rewardsLevel)
  let next ← prev.nextRewardsState proto round incentivePoolData.microNovas totalRewardUnits
  let poolOld ← orThrow .rewardsOverflowPanic (pool.withUpdatedRewards proto next.rewardsLevel)
  let poolNew ← withdrawRewards proto round prev.rewardsLevel next.rewardsLevel totalRewardUnits poolOld
  return (next, poolNew)

/-! ## One block -/

variable {proto : ConsensusParams}

namespace RewardsState

/-- What a block pays out: nothing, or the rate and the old residue up to the new residue. -/
structure Pays (units rate : ℕ) (s s' : RewardsState) : Prop where
  rate_eq : s'.rewardsRate = s.rewardsRate
  round_eq : s'.rewardsRecalculationRound = s.rewardsRecalculationRound
  level_le : s.rewardsLevel ≤ s'.rewardsLevel
  paid : (s'.rewardsLevel = s.rewardsLevel ∧ s'.rewardsResidue = s.rewardsResidue) ∨
    units * (s'.rewardsLevel - s.rewardsLevel) + s'.rewardsResidue = rate + s.rewardsResidue

theorem Pays.refl (units rate : ℕ) (s : RewardsState) : Pays units rate s s :=
  ⟨rfl, rfl, le_rfl, .inl ⟨rfl, rfl⟩⟩

theorem addRewards_pays (s : RewardsState) (rate units : ℕ) :
    Pays units rate s (s.addRewards rate units) := by
  unfold addRewards
  cases hs : oAdd rate s.rewardsResidue with
  | none => exact .refl ..
  | some sum =>
    cases hv : oAdd s.rewardsLevel (sum / units) with
    | none => simpa [hv] using Pays.refl ..
    | some _ =>
      obtain ⟨-, rfl⟩ := oAdd_eq_some.mp hv
      simp only [bind_eq_bind, bind_some, hv, pure_def, getD_some]
      refine ⟨rfl, rfl, Nat.le_add_right _ _, .inr ?_⟩
      have := Nat.div_add_mod sum units
      have := oAdd_eq_some.mp hs
      simp only [Nat.add_sub_cancel_left]
      omega

/-- The rate that is refreshed can be paid from the pool for a whole interval. -/
theorem refreshRate_ok (hr : proto.pendingResidueRewards = true) {s s' : RewardsState}
    {round : Round} {balance : MicroNovas} (hb : proto.minBalance + s.rewardsResidue ≤ balance)
    (h : s.refreshRate proto round balance = .ok s') :
    s'.rewardsLevel = s.rewardsLevel ∧ s'.rewardsResidue = s.rewardsResidue ∧
      ∃ interval, 0 < interval ∧ s'.rewardsRecalculationRound = round + interval ∧
        proto.minBalance + s.rewardsResidue + s'.rewardsRate * interval ≤ balance := by
  unfold refreshRate at h
  simp only [hr, if_true] at h
  split at h
  case isTrue => simp [throw_ok] at h
  case isFalse h1 =>
    rw [pure_ok] at h
    subst h
    refine ⟨rfl, rfl, proto.rewardsRateRefreshInterval, pos_of_ne_zero h1, rfl, ?_⟩
    -- on an overflow of the sum the rate is 0
    cases ho : oAdd proto.minBalance s.rewardsResidue with
    | none => simpa [ho, oSub] using hb
    | some _ =>
      obtain ⟨-, rfl⟩ := oAdd_eq_some.mp ho
      simp only [getD_some, oSub, if_pos hb]
      have := div_mul_le_self (balance - (proto.minBalance + s.rewardsResidue))
        proto.rewardsRateRefreshInterval
      omega

end RewardsState

open RewardsState

/-- The rewards of the account are in its balance. -/
def AccountData.UpToDate (level : ℕ) (u : AccountData) : Prop :=
  u.status = .notParticipating ∨ u.rewardsBase = level

variable {pool poolNew poolOld u' : AccountData} {level prevLevel : ℕ} {u : AccountData}

theorem AccountData.withUpdatedRewards_ok (h : u.withUpdatedRewards proto level = some u') :
    u'.UpToDate level ∧ u.microNovas ≤ u'.microNovas := by
  unfold withUpdatedRewards at h
  split at h
  case isTrue hs =>
    cases h
    exact ⟨.inl hs, le_rfl⟩
  case isFalse =>
    simp only [bind_eq_bind, bind_eq_some_iff, pure_def] at h
    obtain ⟨-, -, _, -, _, hb, h⟩ := h
    cases h
    obtain ⟨-, rfl⟩ := oAdd_eq_some.mp hb
    exact ⟨.inr rfl, le_add_right _ _⟩

theorem AccountData.UpToDate.withUpdatedRewards_eq (hu : u.UpToDate level)
    (h : u.withUpdatedRewards proto level = some u') : u'.microNovas = u.microNovas := by
  unfold withUpdatedRewards at h
  split at h
  case isTrue => cases h; rfl
  case isFalse hs =>
    have h1 : u.rewardsBase = level := hu.resolve_left hs
    simp only [h1, bind_eq_bind, bind_eq_some_iff, pure_def] at h
    obtain ⟨_, hd, _, hr, _, hb, h⟩ := h
    obtain ⟨-, rfl⟩ := oSub_eq_some.mp hd
    obtain ⟨-, rfl⟩ := oMul_eq_some.mp hr
    obtain ⟨-, rfl⟩ := oAdd_eq_some.mp hb
    cases h
    simp

/-! ## Runs of blocks -/

/-- What a block leaves for the rewards of the next one. -/
structure RewardsLedger where
  proto : ConsensusParams
  rewards : RewardsState
  round : Round
  pool : AccountData

namespace RewardsLedger

/-- The start of the next block, under the parameters `proto` and with `units` reward units. -/
def nextBlock (l : RewardsLedger) (proto : ConsensusParams) (units : ℕ) :
    Except EvalError RewardsLedger := do
  let (rewards, pool) ← startRewards l.proto proto l.rewards (l.round + 1) units l.pool
  return { proto, rewards, round := l.round + 1, pool }

/-- The parameters of the rewards: the residue is set aside, the fresh rate is used at once. -/
structure Fixed (minBalance : ℕ) (proto : ConsensusParams) : Prop where
  residue : proto.pendingResidueRewards = true
  fix : proto.rewardsCalculationFix = true
  minBalance_eq : proto.minBalance = minBalance

/-- A block under such parameters starts, or a transaction of the current block pays into the
pool. -/
inductive Step (minBalance : ℕ) : RewardsLedger → RewardsLedger → Prop
  | block {l l' : RewardsLedger} {proto : ConsensusParams} {units : ℕ} :
      Fixed minBalance proto → l.nextBlock proto units = .ok l' → Step minBalance l l'
  | deposit {l : RewardsLedger} {pool : AccountData} : pool.UpToDate l.rewards.rewardsLevel →
      l.pool.microNovas ≤ pool.microNovas → Step minBalance l { l with pool }

/-- The pool holds its minimum balance, the residue, and the rate of every round before the next
recalculation. -/
structure Funded (minBalance : ℕ) (l : RewardsLedger) : Prop where
  upToDate : l.pool.UpToDate l.rewards.rewardsLevel
  ahead : l.round < l.rewards.rewardsRecalculationRound
  covers : minBalance + l.rewards.rewardsResidue +
    l.rewards.rewardsRate * (l.rewards.rewardsRecalculationRound - (l.round + 1)) ≤
      l.pool.microNovas

variable {minBalance : ℕ} {l l' : RewardsLedger} {proto : ConsensusParams} {units : ℕ}

variable {balance : MicroNovas} {round : Round} {s : RewardsState} {e : EvalError}

section

variable (hp : Fixed minBalance proto) (hround : round ≤ s.rewardsRecalculationRound)
  (hcov : minBalance + s.rewardsResidue + s.rewardsRate * (s.rewardsRecalculationRound - round) ≤ balance)
include hp hround hcov

/-- The state the level is computed from can pay its rate from this round on. -/
theorem Fixed.refreshed {mid : RewardsState} (h : s.refreshed proto round balance = .ok mid) :
    mid.rewardsLevel = s.rewardsLevel ∧ round < mid.rewardsRecalculationRound ∧
      minBalance + mid.rewardsResidue +
        mid.rewardsRate * (mid.rewardsRecalculationRound - round) ≤ balance := by
  obtain ⟨hr, -, rfl⟩ := hp
  unfold refreshed at h
  split at h
  case isTrue hn =>
    obtain ⟨hv, hs, _, _, hc, ha⟩ :=
      refreshRate_ok hr (le_trans (le_add_right _ _) hcov) h
    refine ⟨hv, by lia, ?_⟩
    rw [hs, hc, Nat.add_sub_cancel_left]
    exact ha
  case isFalse ht =>
    rw [pure_ok] at h
    subst h
    exact ⟨rfl, by lia, hcov⟩

/-- The rewards state of the next block leaves the pool the rate of every round before the next
recalculation, after this block's rewards are paid. -/
theorem Fixed.nextRewardsState_covers {next : RewardsState}
    (h : s.nextRewardsState proto round balance units = .ok next) :
    s.rewardsLevel ≤ next.rewardsLevel ∧ round < next.rewardsRecalculationRound ∧
      minBalance + next.rewardsResidue +
        next.rewardsRate * (next.rewardsRecalculationRound - (round + 1)) +
        units * (next.rewardsLevel - s.rewardsLevel) ≤ balance := by
  simp only [nextRewardsState, bind_ok] at h
  obtain ⟨mid, hm, h⟩ := h
  obtain ⟨hv, ht, hd⟩ := hp.refreshed hround hcov hm
  have hy : Pays units mid.rewardsRate mid next := by
    split at h
    case isTrue => exact pure_ok.mp h ▸ .refl ..
    case isFalse =>
      rw [hp.fix, pure_ok] at h
      exact h ▸ addRewards_pays ..
  refine ⟨hv ▸ hy.level_le, hy.round_eq ▸ ht, ?_⟩
  -- one more round of the rate is still set aside in `mid`
  have hs : mid.rewardsRecalculationRound - round =
      mid.rewardsRecalculationRound - (round + 1) + 1 := by lia
  rw [hs, mul_succ] at hd
  rw [hy.rate_eq, hy.round_eq, ← hv]
  rcases hy.paid with ⟨hl', hr⟩ | _
  · rw [hl', Nat.sub_self]
    omega
  · omega

end

/-- What the withdrawal leaves. -/
theorem withdrawRewards_ok
    (h : withdrawRewards proto round prevLevel level units poolOld = .ok poolNew) :
    poolNew = { poolOld with microNovas := poolOld.microNovas - units * (level - prevLevel) } ∧
      proto.minBalance ≤ poolNew.microNovas := by
  simp only [withdrawRewards, bind_ok, orThrow_ok, pure_ok] at h
  obtain ⟨_, he, _, hr, _, hf, _, hm, rfl⟩ := h
  obtain ⟨-, rfl⟩ := oSub_eq_some.mp he
  obtain ⟨-, rfl⟩ := oMul_eq_some.mp hr
  obtain ⟨-, rfl⟩ := oSub_eq_some.mp hf
  exact ⟨rfl, (oSub_eq_some.mp hm).1⟩

/-- The withdrawal of what a pool can pay above its minimum balance does not overspend it. -/
theorem withdrawRewards_error
    (ha : proto.minBalance + units * (level - prevLevel) ≤ poolOld.microNovas)
    (h : withdrawRewards proto round prevLevel level units poolOld = .error e) :
    e = .rewardsLevelDecreased round ∨ e = .rewardUnitOverflow round := by
  simp only [withdrawRewards, bind_error_iff, orThrow_ok, orThrow_error_iff] at h
  rcases h with ⟨-, rfl⟩ | ⟨_, he, ⟨-, rfl⟩ | ⟨_, hr, ⟨-, rfl⟩ | ⟨_, hf, h⟩⟩⟩
  · exact .inl rfl
  · exact .inr rfl
  · exact .inr rfl
  · obtain ⟨-, rfl⟩ := oSub_eq_some.mp he
    obtain ⟨-, rfl⟩ := oMul_eq_some.mp hr
    obtain ⟨-, rfl⟩ := oSub_eq_some.mp hf
    have hm : proto.minBalance ≤ poolOld.microNovas - units * (level - prevLevel) := by omega
    simp [oSub, hm, pure, Except.pure] at h

theorem nextRewardsState_error (h : s.nextRewardsState proto round balance units = .error e) :
    e = .divideByZeroPanic := by
  simp only [nextRewardsState, bind_error_iff] at h
  rcases h with h | ⟨_, -, h⟩
  · unfold refreshed refreshRate at h
    split at h
    · dsimp only at h
      split at h
      · cases h; rfl
      · cases h
    · cases h
  · split at h <;> cases h

section OneBlock

variable {next : RewardsState} {incentivePoolData poolOld : AccountData}

/-- After the next rewards state is computed, the pool can pay the block's rewards and then the rate
of every round before the next recalculation round. -/
theorem Funded.covers_next (hl : l.Funded minBalance) (hp : Fixed minBalance proto)
    (ho : l.pool.withUpdatedRewards l.proto l.rewards.rewardsLevel = some incentivePoolData)
    (hx : l.rewards.nextRewardsState proto (l.round + 1) incentivePoolData.microNovas units =
      .ok next)
    (hn : l.pool.withUpdatedRewards proto next.rewardsLevel = some poolOld) :
    l.round + 1 < next.rewardsRecalculationRound ∧ minBalance + next.rewardsResidue +
        next.rewardsRate * (next.rewardsRecalculationRound - (l.round + 1 + 1)) +
        units * (next.rewardsLevel - l.rewards.rewardsLevel) ≤ poolOld.microNovas := by
  have hb := hl.upToDate.withUpdatedRewards_eq ho
  have ha : l.round + 1 ≤ l.rewards.rewardsRecalculationRound := hl.ahead
  obtain ⟨-, ht, _⟩ := hp.nextRewardsState_covers ha (hb ▸ hl.covers) hx
  have hg := (AccountData.withUpdatedRewards_ok hn).2
  exact ⟨ht, by lia⟩

end OneBlock

section

variable (hl : l.Funded minBalance)
include hl

/-- A block leaves a funded pool funded. -/
theorem Funded.nextBlock_ok (hp : Fixed minBalance proto) (h : l.nextBlock proto units = .ok l') :
    l'.Funded minBalance ∧ minBalance ≤ l'.pool.microNovas := by
  simp only [nextBlock, startRewards, bind_ok, orThrow_ok, pure_ok] at h
  obtain ⟨⟨_, _⟩, ⟨_, ho, _, hx, _, hn, _, h1, he⟩, rfl⟩ := h
  obtain ⟨rfl, rfl⟩ := Prod.mk.inj he
  obtain ⟨ht, _⟩ := hl.covers_next hp ho hx hn
  obtain ⟨rfl, hm⟩ := withdrawRewards_ok h1
  refine ⟨⟨?_, ht, ?_⟩, hp.minBalance_eq ▸ hm⟩
  · exact (AccountData.withUpdatedRewards_ok hn).1
  · dsimp only
    omega

/-- A block does not overspend a funded pool. -/
theorem Funded.nextBlock_error (hp : Fixed minBalance proto)
    (h : l.nextBlock proto units = .error e) (round : Round) : e ≠ .rewardsOverspent round := by
  simp only [nextBlock, startRewards, bind_error_iff, orThrow_ok, orThrow_error_iff] at h
  rcases h with (⟨-, rfl⟩ | ⟨_, ho, h | ⟨next, hx, ⟨-, rfl⟩ | ⟨poolOld, hn, h | ⟨_, _, h⟩⟩⟩⟩) |
    ⟨_, _, h⟩
  · simp
  · simp [nextRewardsState_error h]
  · simp
  · have hcov := (hl.covers_next hp ho hx hn).2
    have ha : proto.minBalance + units * (next.rewardsLevel - l.rewards.rewardsLevel) ≤
        poolOld.microNovas := by
      rw [hp.minBalance_eq]
      omega
    rcases withdrawRewards_error ha h with rfl | rfl <;> simp
  · cases h
  · cases h

/-- A payment into the pool leaves it funded. -/
theorem Funded.deposit (hu : pool.UpToDate l.rewards.rewardsLevel)
    (he : l.pool.microNovas ≤ pool.microNovas) : Funded minBalance { l with pool } :=
  ⟨hu, hl.ahead, hl.covers.trans he⟩

theorem Funded.step (h : Step minBalance l l') : l'.Funded minBalance := by
  cases h with
  | block hp hn => exact (hl.nextBlock_ok hp hn).1
  | deposit hu he => exact hl.deposit hu he

theorem Funded.run (h : Relation.ReflTransGen (Step minBalance) l l') : l'.Funded minBalance := by
  induction h with
  | refl => exact hl
  | tail _ hs ih => exact ih.step hs

end

/-- The ledger of a genesis block. -/
def genesis (proto : ConsensusParams) (feeSink rewardsPool : Address) (pool : AccountData) :
    RewardsLedger where
  proto := proto
  rewards := .genesis proto feeSink rewardsPool pool.microNovas
  round := 0
  pool := pool

/-- A genesis block whose initial rate leaves the minimum balance out funds its pool. -/
theorem genesis_funded (hi : proto.initialRewardsRateCalculation = true)
    (ho : 0 < proto.rewardsRateRefreshInterval) (hu : pool.UpToDate 0)
    (hm : proto.minBalance ≤ pool.microNovas) (feeSink rewardsPool : Address) :
    (genesis proto feeSink rewardsPool pool).Funded proto.minBalance := by
  refine ⟨hu, ho, ?_⟩
  have hr : (genesis proto feeSink rewardsPool pool).rewards.rewardsRate =
      (pool.microNovas - proto.minBalance) / proto.rewardsRateRefreshInterval := by
    simp [genesis, RewardsState.genesis, hi, subSaturate]
  have ha := div_mul_le_self (pool.microNovas - proto.minBalance) proto.rewardsRateRefreshInterval
  have hs : (pool.microNovas - proto.minBalance) / proto.rewardsRateRefreshInterval *
      (proto.rewardsRateRefreshInterval - (0 + 1)) ≤
      (pool.microNovas - proto.minBalance) / proto.rewardsRateRefreshInterval *
        proto.rewardsRateRefreshInterval := mul_le_mul_left _ (sub_le _ _)
  rw [hr]
  show proto.minBalance + 0 + _ * (proto.rewardsRateRefreshInterval - (0 + 1)) ≤ pool.microNovas
  lia

/-- **The incentive pool keeps its minimum balance**: along every run of blocks and payments into the
pool that starts funded, as after a genesis block, the next block does not report an overspent pool,
and leaves at least the minimum balance in it. -/
theorem pool_keeps_minBalance
    (hstart : l.Funded minBalance ∨ ∃ proto feeSink rewardsPool pool,
      l = genesis proto feeSink rewardsPool pool ∧ proto.initialRewardsRateCalculation = true ∧
        0 < proto.rewardsRateRefreshInterval ∧ pool.UpToDate 0 ∧
        proto.minBalance = minBalance ∧ minBalance ≤ pool.microNovas)
    (hrun : Relation.ReflTransGen (Step minBalance) l l') (hp : Fixed minBalance proto) (units : ℕ) :
    (∀ round, l'.nextBlock proto units ≠ .error (.rewardsOverspent round)) ∧
      ∀ l'', l'.nextBlock proto units = .ok l'' → minBalance ≤ l''.pool.microNovas := by
  have hl : l.Funded minBalance := by
    rcases hstart with hl | ⟨_, feeSink, rewardsPool, pool, rfl, hi, ho, hu, rfl, hm⟩
    · exact hl
    · exact genesis_funded hi ho hu hm feeSink rewardsPool
  have hl' := hl.run hrun
  exact ⟨fun round h => hl'.nextBlock_error hp h round rfl, fun _ h => (hl'.nextBlock_ok hp h).2⟩

/-- Parameters of version 31 with a refresh every three rounds. -/
def threeRounds : ConsensusParams := { minBalance := 100, rewardsRateRefreshInterval := 3 }

/-- A pool that pays rewards and earns none. -/
def poolOf (balance : MicroNovas) : AccountData :=
  { status := .notParticipating, microNovas := balance }

/-- The pool of 500 after a block in which three reward units got 44 each. -/
def afterOneBlock : RewardsLedger where
  proto := threeRounds
  rewards := { feeSink := 7, rewardsPool := 8, rewardsLevel := 44, rewardsRate := 133,
               rewardsResidue := 1, rewardsRecalculationRound := 3 }
  round := 1
  pool := poolOf 368

/-- The theorem after one block, for a second one without reward units. -/
theorem pool_keeps_minBalance_afterOneBlock :
    (genesis threeRounds 7 8 (poolOf 500)).nextBlock threeRounds 3 = .ok afterOneBlock ∧
      (∀ round, afterOneBlock.nextBlock threeRounds 0 ≠ .error (.rewardsOverspent round)) ∧
      ∀ l, afterOneBlock.nextBlock threeRounds 0 = .ok l → 100 ≤ l.pool.microNovas := by
  have hb : (genesis threeRounds 7 8 (poolOf 500)).nextBlock threeRounds 3 =
      .ok afterOneBlock := rfl
  exact ⟨hb, pool_keeps_minBalance
    (.inr ⟨threeRounds, 7, 8, poolOf 500, rfl, rfl, by decide, .inl rfl, rfl, by decide⟩)
    (.single (.block ⟨rfl, rfl, rfl⟩ hb)) ⟨rfl, rfl, rfl⟩ 0⟩

/-- A run that does not start funded is overspent. The first chain comes from version 30: its third
block refreshes the rate to 33 but still pays 100, and the first block under the new parameters takes
the pool of 100 to 67. The second starts from a genesis block that spreads the whole pool over the
first interval. -/
theorem unfunded_pool_overspent :
    (do
      let beforeFix := { threeRounds with rewardsCalculationFix := false }
      let l ← (genesis beforeFix 7 8 (poolOf 400)).nextBlock beforeFix 1
      let l ← l.nextBlock beforeFix 1
      let l ← l.nextBlock beforeFix 1
      l.nextBlock threeRounds 1) = .error (.rewardsOverspent 4) ∧
    (do
      let wholePool := { threeRounds with initialRewardsRateCalculation := false }
      let l ← (genesis wholePool 7 8 (poolOf 250)).nextBlock wholePool 1
      l.nextBlock wholePool 1) = .error (.rewardsOverspent 2) :=
  ⟨rfl, rfl⟩

end RewardsLedger

end Novarand.Ledger
