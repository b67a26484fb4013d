import Novarand.Ledger.Cow

/-!
# Account totals

The money and the reward units of all accounts, by status. `CalculateTotals` takes the totals of the
previous round to the new rewards level and replaces, for every changed account, what it was by what
it is. The tracker of overflows is an `Option`: an overflow anywhere makes the result `none`.
-/

namespace Novarand.Ledger

/-- `AlgoCount`. -/
@[ext]
structure AlgoCount where
  money : MicroNovas := 0
  rewardUnits : ℕ := 0
  deriving DecidableEq

structure AccountTotals where
  online : AlgoCount := {}
  offline : AlgoCount := {}
  notParticipating : AlgoCount := {}
  rewardsLevel : ℕ := 0
  deriving DecidableEq

def AlgoCount.applyRewards (rewardsPerUnit : ℕ) (ac : AlgoCount) : Option AlgoCount := do
  let rewardsGottenThisRound ← oMul ac.rewardUnits rewardsPerUnit
  let money ← oAdd ac.money rewardsGottenThisRound
  return { ac with money }

/-- Add the money and the units of an account. -/
def AlgoCount.add (money rewardUnits : ℕ) (ac : AlgoCount) : Option AlgoCount := do
  let money ← oAdd ac.money money
  let rewardUnits ← oAdd ac.rewardUnits rewardUnits
  return { money, rewardUnits }

/-- Subtract the money and the units of an account. -/
def AlgoCount.del (money rewardUnits : ℕ) (ac : AlgoCount) : Option AlgoCount := do
  let money ← oSub ac.money money
  let rewardUnits ← oSub ac.rewardUnits rewardUnits
  return { money, rewardUnits }

namespace AccountTotals

/-- Change the count `statusField` selects. -/
def updateStatus (status : Status) (f : AlgoCount → Option AlgoCount) (t : AccountTotals) :
    Option AccountTotals :=
  match status with
  | .online => (f t.online).map fun online => { t with online }
  | .offline => (f t.offline).map fun offline => { t with offline }
  | .notParticipating => (f t.notParticipating).map fun notParticipating => { t with notParticipating }

/-- `AddAccount`, for an account with the given `Money`. -/
def addAccount (proto : ConsensusParams) (data : AccountData) (algos : MicroNovas)
    (t : AccountTotals) : Option AccountTotals :=
  t.updateStatus data.status (·.add algos (rewardUnits proto data.microNovas))

/-- `DelAccount`, for an account with the given `Money`. -/
def delAccount (proto : ConsensusParams) (data : AccountData) (algos : MicroNovas)
    (t : AccountTotals) : Option AccountTotals :=
  t.updateStatus data.status (·.del algos (rewardUnits proto data.microNovas))

def applyRewards (rewardsLevel : ℕ) (t : AccountTotals) : Option AccountTotals := do
  let rewardsPerUnit ← oSub rewardsLevel t.rewardsLevel
  let online ← t.online.applyRewards rewardsPerUnit
  let offline ← t.offline.applyRewards rewardsPerUnit
  return { t with online, offline, rewardsLevel }

/-- `All`; `none` where the source panics. -/
def all (t : AccountTotals) : Option MicroNovas := do
  let participating ← oAdd t.online.money t.offline.money
  oAdd t.notParticipating.money participating

/-- `RewardUnits`; `none` where the source panics. -/
def totalRewardUnits (t : AccountTotals) : Option ℕ := oAdd t.online.rewardUnits t.offline.rewardUnits

/-- The count of a status. -/
def count (t : AccountTotals) : Status → AlgoCount
  | .online => t.online
  | .offline => t.offline
  | .notParticipating => t.notParticipating

/-- The totals with all the accounts added. -/
def addAll (proto : ConsensusParams) (rewardsLevel : ℕ) :
    List AccountData → AccountTotals → Option AccountTotals
  | [], t => some t
  | u :: us, t => do
    let algos ← u.money proto rewardsLevel
    let t ← t.addAccount proto u algos
    addAll proto rewardsLevel us t

/-- The totals of all accounts, computed from scratch. -/
def recompute (proto : ConsensusParams) (rewardsLevel : ℕ) (accounts : Dict Address AccountData) :
    Option AccountTotals :=
  addAll proto rewardsLevel accounts.values { rewardsLevel }

end AccountTotals

namespace Cow

variable (x : BlockContext)

/-- The loop of `CalculateTotals` over the changed accounts, on a layer over `p`. -/
def updateTotals (p : Cow) : List (Σ _ : Address, AccountData) → Option AccountTotals →
    Except EvalError (Option AccountTotals)
  | [], totals => pure totals
  | ⟨addr, updated⟩ :: rest, totals => do
    let previous := p.lookup addr
    let prevMoney ← orThrow .rewardsOverflowPanic (previous.money x.proto x.rewardsLevel)
    let money ← orThrow .rewardsOverflowPanic (updated.money x.proto x.rewardsLevel)
    updateTotals p rest do
      let totals ← totals
      let totals ← totals.delAccount x.proto previous prevMoney
      totals.addAccount x.proto updated money

/-- `CalculateTotals`, from the totals of the previous round. -/
def calculateTotals (prevTotals : AccountTotals) : Cow → Except EvalError AccountTotals
  | .base _ => pure prevTotals
  | .layer p l => do
    let updated ← updateTotals x p l.accts.entries (prevTotals.applyRewards x.rewardsLevel)
    let totals ← orThrow (.totalsOverflowed x.round) updated
    let now ← orThrow .totalsOverflowPanic totals.all
    let prev ← orThrow .totalsOverflowPanic prevTotals.all
    failIf (now ≠ prev) (.sumOfMoneyChanged prev now)
    return totals

end Cow

end Novarand.Ledger
