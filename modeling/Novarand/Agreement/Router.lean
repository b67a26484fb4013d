import Novarand.Agreement.VoteTracker
import Novarand.Agreement.Proposals

/-!
# The router tree

State machines hang in a tree: one child per round below the root, one per period below a round,
one per step below a period. Every dispatch first updates the router it passes through: it creates
the child the event is addressed to, and then garbage-collects children the player has left behind.
A dispatch to a child which that collection has just dropped dereferences nil.
-/

namespace Novarand.Agreement

/-- `nextThresholdStatusEvent`: the next-vote thresholds seen in a period. -/
structure NextThresholdStatus where
  bottom : Bool := false
  proposal : ProposalValue := {}

/-- `voteTrackerRound`: the freshest threshold of a round. -/
structure VoteTrackerRound where
  freshest : ThresholdEvent := {}
  ok : Bool := false

structure PeriodRouter where
  proposalTracker : ProposalTracker := {}
  proposalTrackerContract : ProposalTrackerContract := {}
  /-- `VoteTrackerPeriod.Cached` -/
  cached : NextThresholdStatus := {}
  children : Dict Step StepRouter := ∅

structure RoundRouter where
  proposalStore : ProposalStore := {}
  voteTrackerRound : VoteTrackerRound := {}
  children : Dict Period PeriodRouter := ∅

structure RootRouter where
  children : Dict Round RoundRouter := ∅

/-! ## Creation and garbage collection -/

/-- The periods that survive garbage collection while the player is in period `p`. -/
def keepsPeriod (p q : Period) : Bool := decide (p ≤ nextPeriod q) || decide (q ≤ 1)

/-- The successor of a kept period that the player has not passed is the next number; only the last
period wraps, and only for a player in period 0. -/
theorem nextPeriod_of_kept {p q : Period} (hk : keepsPeriod p q = true) (_ : p ≤ q) :
    nextPeriod q = q + 1 ∨ q = lastPeriod ∧ p = 0 ∧ nextPeriod q = 0 := by
  simp only [keepsPeriod, nextPeriod, Bool.or_eq_true, decide_eq_true_eq] at hk ⊢
  split_ifs at hk ⊢ <;> lia

theorem keepsPeriod_self {p : Period} : keepsPeriod p p = true ↔ p ≠ lastPeriod := by
  simp only [keepsPeriod, nextPeriod, Bool.or_eq_true, decide_eq_true_eq]
  split_ifs <;> lia

namespace PeriodRouter

def update (pr : PeriodRouter) (s : Step) : PeriodRouter :=
  { pr with children := pr.children.touch s {} }

/-- `periodRouter.dispatch` to the step machine `s`. -/
def toStep {α : Type} (pr : PeriodRouter) (s : Step) (f : StepRouter → M (StepRouter × α)) :
    M (PeriodRouter × α) :=
  let pr := pr.update s
  match pr.children.lookup s with
  | none => throw .nilRouter
  | some c => do
    let (c, a) ← f c
    pure ({ pr with children := pr.children.insert s c }, a)

end PeriodRouter

namespace RoundRouter

def update (rr : RoundRouter) (state : Player) (p : Period) : RoundRouter :=
  { rr with children := (rr.children.touch p {}).filterKeys (keepsPeriod state.period) }

/-- `roundRouter.dispatch` to the machine of period `p` or to one of its steps; `f` is what the
period's router does with the event. -/
def toPeriod {α : Type} (rr : RoundRouter) (state : Player) (p : Period)
    (f : PeriodRouter → M (PeriodRouter × α)) : M (RoundRouter × α) :=
  let rr := rr.update state p
  match rr.children.lookup p with
  | none => throw .nilRouter
  | some c => do
    let (c, a) ← f c
    pure ({ rr with children := rr.children.insert p c }, a)

end RoundRouter

namespace RootRouter

def update (rt : RootRouter) (state : Player) (r : Round) : RootRouter :=
  { children := (rt.children.touch r {}).filterKeys fun r' => decide (state.round ≤ r') }

/-- `rootRouter.dispatch` to a machine of round `r`; `f` is what the round's router does with the
event. -/
def toRound {α : Type} (rt : RootRouter) (state : Player) (r : Round)
    (f : RoundRouter → M (RoundRouter × α)) : M (RootRouter × α) :=
  let rt := rt.update state r
  match rt.children.lookup r with
  | none => throw .nilRouter
  | some c => do
    let (c, a) ← f c
    pure ({ children := rt.children.insert r c }, a)

end RootRouter

/-! ## The machines of one period -/

namespace PeriodRouter

variable (pr : PeriodRouter)

/-- The proposal tracker behind its contract, on a `voteVerified` event. -/
def voteVerified (v : Vote) : M (PeriodRouter × SerErr) := do
  let pr := pr.update 0
  let (t, err) := pr.proposalTracker.voteVerified v
  let c ← pr.proposalTrackerContract.postVoteVerified err
  pure ({ pr with proposalTracker := t, proposalTrackerContract := c }, err)

/-- The proposal tracker behind its contract, on a `voteFilterRequest`. -/
def proposalFilterRequest (rv : RawVote) : M (PeriodRouter × Bool) :=
  let pr := pr.update 0
  pure (pr, pr.proposalTracker.voteFilterRequest rv)

/-- The proposal tracker behind its contract, on a `proposalFrozen` event. -/
def proposalFrozen : M (PeriodRouter × ProposalValue) := do
  let pr := pr.update 0
  pr.proposalTrackerContract.preProposalFrozen
  let (t, pv) := pr.proposalTracker.proposalFrozen
  let c ← pr.proposalTrackerContract.postProposalFrozen pv
  pure ({ pr with proposalTracker := t, proposalTrackerContract := c }, pv)

/-- The proposal tracker behind its contract, on a soft or cert threshold. -/
def stage (e : ThresholdEvent) : M (PeriodRouter × Unit) := do
  let pr := pr.update 0
  pr.proposalTrackerContract.preThreshold e
  pure ({ pr with
    proposalTracker := pr.proposalTracker.stage e.proposal
    proposalTrackerContract := pr.proposalTrackerContract.postThreshold e }, ())

/-- The proposal tracker on a `readStaging` event. -/
def readStaging : M (PeriodRouter × ProposalValue) :=
  let pr := pr.update 0
  pure (pr, pr.proposalTracker.staging)

/-- `voteTrackerPeriod.handle` of a threshold event, dispatched to itself. -/
def cacheThreshold (e : ThresholdEvent) : M PeriodRouter :=
  let pr := pr.update 0
  match e.t with
  | .nextThreshold =>
    if e.proposal = bottom then pure { pr with cached := { pr.cached with bottom := true } }
    else pure { pr with cached := { pr.cached with proposal := e.proposal } }
  | _ => throw .log

/-- `voteTrackerPeriod.handle` of a `voteAccepted` event. -/
def voteAccepted (cfg : Consensus) (pr : PeriodRouter) (v : Vote) (proto : ConsensusVersion) :
    M (PeriodRouter × ThresholdEvent) := do
  let pr := pr.update 0
  let (pr, e) ← pr.toStep v.r.step fun sr => sr.voteAccepted cfg v proto
  if e.t ≠ .none ∧ next ≤ e.step then
    let pr ← pr.cacheThreshold e
    pure (pr, e)
  else pure (pr, e)

/-- `voteTrackerPeriod.handle` of a `nextThresholdStatusRequest`. -/
def nextThresholdStatus : M (PeriodRouter × NextThresholdStatus) :=
  let pr := pr.update 0
  pure (pr, pr.cached)

end PeriodRouter

/-! ## The machines of one round -/

namespace RoundRouter

variable (rr : RoundRouter) (state : Player)

/-- `voteTrackerRound.handle` of a threshold event, dispatched to itself. -/
def freshen (e : ThresholdEvent) : M (RoundRouter × ThresholdEvent) := do
  let rr := rr.update state 0
  if ← e.fresherThan rr.voteTrackerRound.freshest then
    pure ({ rr with voteTrackerRound := { freshest := e, ok := true } }, e)
  else pure (rr, {})

/-- `voteTrackerRound.handle` of a `voteAccepted` event. -/
def voteAccepted (cfg : Consensus) (rr : RoundRouter) (state : Player) (v : Vote)
    (proto : ConsensusVersion) : M (RoundRouter × ThresholdEvent) := do
  let rr := rr.update state v.r.period
  let (rr, e) ← rr.toPeriod state v.r.period fun pr => pr.voteAccepted cfg v proto
  if e.t ≠ .none then rr.freshen state e else pure (rr, {})

/-- `voteTrackerRound.handle` of a `freshestBundleRequest`. -/
def freshestBundle : M (RoundRouter × VoteTrackerRound) :=
  let rr := rr.update state 0
  pure (rr, rr.voteTrackerRound)

/-- `proposalStore.handle` of a `voteVerified` event: the result of the tracker, and the payload
of the accepted value if it is known. -/
def voteVerified (v : Vote) : M (RoundRouter × Except SerErr (Option Proposal)) := do
  let rr := rr.update state v.r.period
  let (rr, err) ← rr.toPeriod state v.r.period fun pr => pr.voteVerified v
  if err = .nil then
    let ea := rr.proposalStore.assembler v.r.proposal
    pure ({ rr with proposalStore := rr.proposalStore.acceptVote state v },
      .ok (if ea.assembled then some ea.payload else none))
  else pure (rr, .error err)

/-- `proposalStore.handle` of a `payloadPresent` event. -/
def payloadPresent (p : Period) (up : UnauthenticatedProposal) : M (RoundRouter × PayloadResult) :=
  let rr := rr.update state p
  let (st, res) := rr.proposalStore.payloadPresent state up
  pure ({ rr with proposalStore := st }, res)

/-- `proposalStore.handle` of a `readStaging` event for period `p`. -/
def readStaging (p : Period) : M (RoundRouter × StagingValue) := do
  let rr := rr.update state p
  let (rr, staging) ← rr.toPeriod state p PeriodRouter.readStaging
  pure (rr, rr.proposalStore.readStaging staging)

/-- `proposalStore.handle` of a `payloadVerified` event. -/
def payloadVerified (pp : Proposal) : M (RoundRouter × PayloadResult) := do
  let rr := rr.update state state.period
  match rr.proposalStore.bindPayload pp with
  | (st, .error err) => pure ({ rr with proposalStore := st }, .rejected err)
  | (st, .ok ea) =>
    let (rr, a) ← { rr with proposalStore := st }.readStaging state state.period
    let authVote := ea.authenticator state.period
    if a.proposal = pp.value then pure (rr, .committable authVote pp.value)
    else pure (rr, .accepted authVote pp.value)

/-- `proposalStore.handle` of a `newPeriod` event. -/
def newPeriod (target : Period) (starting : ProposalValue) : M (RoundRouter × Unit) := do
  let rr := rr.update state 0
  let (rr, staged) ← rr.readStaging state state.period
  pure ({ rr with
    proposalStore := rr.proposalStore.newPeriod state target starting staged.proposal }, ())

/-- `proposalStore.handle` of a `newRound` event. -/
def newRound : M (RoundRouter × Option PayloadResult) := do
  let rr := rr.update state 0
  let res ← rr.proposalStore.newRound state
  pure (rr, res)

/-- `proposalStore.handle` of a soft or cert threshold; returns the authenticator if the value is
committable. -/
def threshold (e : ThresholdEvent) : M (RoundRouter × Option Vote) := do
  let rr := rr.update state e.period
  let (rr, _) ← rr.toPeriod state e.period fun pr => pr.stage e
  let (st, res) := rr.proposalStore.threshold state e.period e.proposal
  pure ({ rr with proposalStore := st }, res)

/-- `proposalStore.handle` of a `readPinned` event. -/
def readPinned : M (RoundRouter × PinnedValue) :=
  let rr := rr.update state 0
  pure (rr, rr.proposalStore.readPinned)

end RoundRouter

end Novarand.Agreement
