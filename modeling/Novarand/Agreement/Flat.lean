import Novarand.Lib.Trace
import Novarand.Agreement.Player

/-!
# The flat machine — the player without its router tree

The same player over a state that is never garbage-collected: one record per round and period, one
vote tracker per round, period and step. One event of the player is a run of small steps of this
machine; `pending` holds a threshold which the vote machine has reported and the player has not yet
handled. The labels of a run are the votes counted and the actions emitted.
-/

namespace Novarand.Agreement

open Function

namespace Flat

structure PeriodState where
  tracker : ProposalTracker := {}
  contract : ProposalTrackerContract := {}
  cached : NextThresholdStatus := {}
  step : Step → StepRouter := fun _ => {}

structure RoundState where
  store : ProposalStore := {}
  fresh : VoteTrackerRound := {}
  period : Period → PeriodState := fun _ => {}

structure State where
  player : Player
  rounds : Round → RoundState := fun _ => {}
  pending : Option ThresholdEvent := none

inductive Obs
  | saw (v : Vote) (proto : ConsensusVersion)
  | act (a : Action)

/-- The actions among the labels of a run. -/
def actions (obs : List Obs) : List Action :=
  obs.filterMap fun o => match o with
    | .act a => some a
    | .saw _ _ => none

/-! ## Effects -/

def cacheNext (c : NextThresholdStatus) (pv : ProposalValue) : NextThresholdStatus :=
  if pv = bottom then { c with bottom := true } else { c with proposal := pv }

namespace PeriodState

/-- A vote was counted in step `s`, with result `te`. -/
def recordVote (P : PeriodState) (s : Step) (sr : StepRouter) (te : ThresholdEvent) : PeriodState :=
  { P with
    step := update P.step s sr
    cached := if te.t ≠ .none ∧ next ≤ te.step then cacheNext P.cached te.proposal
      else P.cached }

/-- The value of a soft or cert threshold is staged. -/
def stage (P : PeriodState) (e : ThresholdEvent) : PeriodState :=
  { P with
    tracker := P.tracker.stage e.proposal
    contract := P.contract.postThreshold e }

end PeriodState

namespace RoundState

variable (R : RoundState)

variable (p : Period)

def setPeriod (P : PeriodState) : RoundState :=
  { R with period := update R.period p P }

def staging : ProposalValue := (R.period p).tracker.staging

/-- The payload of `pv` has been received and validated. -/
def assembled (pv : ProposalValue) : Bool := (R.store.assembler pv).assembled

/-- The player leaves its period for `target`. -/
def newPeriod (pl : Player) (target : Period) (starting : ProposalValue) : RoundState :=
  { R with store := R.store.newPeriod pl target starting (R.staging pl.period) }

/-- The proposal machines absorb a soft or cert threshold. -/
def threshold (pl : Player) (e : ThresholdEvent) : RoundState :=
  let R := if pl.period < e.period then R.newPeriod pl e.period e.proposal else R
  { R.setPeriod e.period ((R.period e.period).stage e) with
    store := (R.store.threshold pl e.period e.proposal).1 }

/-- The value the player next-votes in period `p`. -/
def nextVoteValue : ProposalValue :=
  if R.assembled (R.staging p) then R.staging p
  else if (R.period (prevPeriod p)).cached.bottom then bottom
  else (R.period (prevPeriod p)).cached.proposal

/-- The step of the fast vote of period `p`. -/
def fastVoteStep : Step :=
  if R.nextVoteValue p = bottom then down
  else if R.assembled (R.staging p) then late else redo

end RoundState

namespace State

/-- The state of the player's round. -/
def cur (s : State) : RoundState := s.rounds s.player.round

def setRound (s : State) (r : Round) (R : RoundState) : State :=
  { s with rounds := update s.rounds r R }

/-- The player after `enterPeriod`. -/
def enterPeriod (pl : Player) (target : Period) (deadline : Duration) : Player :=
  { pl with
    lastConcluding := pl.step, period := target, step := soft, napping := false
    fastRecoveryDeadline := 0, deadline := deadline }

/-- The player after `enterRound`. -/
def enterRound (pl : Player) (target : Round) (deadline : Duration) : Player :=
  { pl with
    lastConcluding := pl.step, round := target, period := 0, step := soft, napping := false
    fastRecoveryDeadline := 0, deadline := deadline }

/-- Entering a round picks up the freshest threshold already seen in it. -/
def startRound (s : State) (target : Round) (deadline : Duration) : State where
  player := enterRound s.player target deadline
  rounds := s.rounds
  pending := if (s.rounds target).fresh.ok then some (s.rounds target).fresh.freshest else none

end State

/-! ## Steps -/

/-- Two players stand at the same point of the protocol. -/
structure SamePosition (p q : Player) : Prop where
  round : p.round = q.round
  period : p.period = q.period
  step : p.step = q.step
  napping : p.napping = q.napping

/-- Actions which neither vote nor commit. -/
def Inert : Action → Prop
  | .attest .. => False
  | .ensure .. => False
  | _ => True

/-- The rounds and periods whose votes the player counts. -/
def Deliverable (pl : Player) (rv : RawVote) : Prop :=
  (rv.round = pl.round ∧ keepsPeriod pl.period rv.period) ∨
    (rv.round = pl.round + 1 ∧ rv.period = 0)

/-- The freshest threshold of the round is a cert threshold for `pv`. -/
def CertSeen (R : RoundState) (pv : ProposalValue) : Prop :=
  R.fresh.ok ∧ R.fresh.freshest.t = .certThreshold ∧ R.fresh.freshest.proposal = pv

/-- What the environment feeds into the machine. -/
inductive Input
  | vote (v : Vote) (proto : ConsensusVersion)
  | proposal (v : Vote)
  | fast

/-- Small steps of the flat machine; `D s` holds of the inputs which may be fed in state `s`. -/
inductive Move (cfg : Consensus) (D : State → Input → Prop) : State → List Obs → State → Prop
  /-- The player emits actions of no consequence here, or moves its clock. -/
  | idle (s : State) (p : Player) (acts : List Action) (hp : SamePosition p s.player)
      (ha : ∀ a ∈ acts, Inert a) :
      Move cfg D s (acts.map .act) { s with player := p }
  /-- A proposal-vote reaches the tracker of its period. -/
  | proposalVote (s : State) (v : Vote) (t : ProposalTracker) (err : SerErr)
      (c : ProposalTrackerContract) (P : PeriodState) (hD : D s (.proposal v))
      (hfresh : proposalFresh s.player v.r = .ok ())
      (hP : (s.rounds v.r.round).period v.r.period = P)
      (ht : P.tracker.voteVerified v = (t, err))
      (hc : P.contract.postVoteVerified err = .ok c)
      (hkept : keepsPeriod s.player.period v.r.period) :
      Move cfg D s []
        (s.setRound v.r.round
          { (s.rounds v.r.round).setPeriod v.r.period { P with tracker := t, contract := c } with
            store := if err = .nil then (s.rounds v.r.round).store.acceptVote s.player v
              else (s.rounds v.r.round).store })
  /-- An unverified payload is pipelined. -/
  | pipeline (s : State) (r : Round) (up : UnauthenticatedProposal)
      (hr : r = s.player.round ∨ r = s.player.round + 1) :
      Move cfg D s []
        (s.setRound r { s.rounds r with store := ((s.rounds r).store.payloadPresent s.player up).1 })
  /-- A verified payload of the current round is bound to its value. -/
  | bind (s : State) (pp : Proposal) :
      Move cfg D s []
        (s.setRound s.player.round { s.cur with store := (s.cur.store.bindPayload pp).1 })
  /-- A vote is counted without consequence for the player. -/
  | count (s : State) (v : Vote) (proto : ConsensusVersion) (sr : StepRouter)
      (te : ThresholdEvent) (hD : D s (.vote v proto)) (hv : Deliverable s.player v.r)
      (hcount : (((s.rounds v.r.round).period v.r.period).step v.r.step).voteAccepted cfg v proto
        = .ok (sr, te))
      (hstale : te.t = .none ∨ te.fresherThan (s.rounds v.r.round).fresh.freshest = .ok false) :
      Move cfg D s [.saw v proto]
        (s.setRound v.r.round ((s.rounds v.r.round).setPeriod v.r.period
          (((s.rounds v.r.round).period v.r.period).recordVote v.r.step sr te)))
  /-- A vote completes a threshold which is the freshest of its round. -/
  | reach (s : State) (v : Vote) (proto : ConsensusVersion) (sr : StepRouter)
      (te : ThresholdEvent) (hD : D s (.vote v proto)) (hv : Deliverable s.player v.r)
      (hcount : (((s.rounds v.r.round).period v.r.period).step v.r.step).voteAccepted cfg v proto
        = .ok (sr, te))
      (hte : te.t ≠ .none)
      (hfresh : te.fresherThan (s.rounds v.r.round).fresh.freshest = .ok true) :
      Move cfg D s [.saw v proto]
        { s.setRound v.r.round
            { (s.rounds v.r.round).setPeriod v.r.period
                (((s.rounds v.r.round).period v.r.period).recordVote v.r.step sr te) with
              fresh := { freshest := te, ok := true } } with
          pending := if v.r.round = s.player.round then some te else s.pending }
  /-- A threshold of a period the player has left is ignored. -/
  | ignore (s : State) (e : ThresholdEvent) (hpend : s.pending = some e)
      (ht : e.t = .softThreshold ∨ e.t = .nextThreshold) (hper : e.period < s.player.period) :
      Move cfg D s [] { s with pending := none }
  /-- A soft or cert threshold of the current period is staged. -/
  | stage (s : State) (e : ThresholdEvent) (hpend : s.pending = some e)
      (ht : e.t = .softThreshold ∨ e.t = .certThreshold)
      (hpre : proposalManagerPre s.player e = .ok ())
      (hcontract : (s.cur.period e.period).contract.preThreshold e = .ok ())
      (hper : e.t = .softThreshold → e.period = s.player.period) :
      Move cfg D s []
        { s.setRound s.player.round (s.cur.threshold s.player e) with
          pending := if e.t = .softThreshold then none else s.pending }
  /-- A soft or cert threshold of a later period is staged and the player enters that period. -/
  | forward (s : State) (e : ThresholdEvent) (deadline : Duration) (hpend : s.pending = some e)
      (ht : e.t = .softThreshold ∨ e.t = .certThreshold)
      (hpre : proposalManagerPre s.player e = .ok ())
      (hcontract : (s.cur.period e.period).contract.preThreshold e = .ok ())
      (hper : s.player.period < e.period)
      (hcert : e.t = .certThreshold → (s.cur.threshold s.player e).assembled e.proposal = false) :
      Move cfg D s []
        { player := State.enterPeriod s.player e.period deadline
          rounds := update s.rounds s.player.round (s.cur.threshold s.player e)
          pending := none }
  /-- A staged cert threshold whose block is missing is left to the ledger. -/
  | await (s : State) (e : ThresholdEvent) (hpend : s.pending = some e)
      (ht : e.t = .certThreshold) (hper : e.period ≤ s.player.period)
      (hstaged : s.cur.staging e.period = e.proposal)
      (hmissing : s.cur.assembled e.proposal = false) :
      Move cfg D s [] { s with pending := none }
  /-- A next threshold moves the player to the following period, or back to the start of period 0 if
  it is of the last one. -/
  | advance (s : State) (e : ThresholdEvent) (deadline : Duration) (hpend : s.pending = some e)
      (ht : e.t = .nextThreshold) (hper : s.player.period ≤ e.period)
      (hkept : keepsPeriod s.player.period e.period)
      (hpre : proposalManagerPre s.player e = .ok ()) :
      Move cfg D s []
        { player := State.enterPeriod s.player (nextPeriod e.period) deadline
          rounds := update s.rounds s.player.round
            (s.cur.newPeriod s.player (nextPeriod e.period) e.proposal)
          pending := none }
  /-- The player cert-votes the committable staged value. -/
  | certVote (s : State) (v : ProposalValue) (hpend : s.pending = none)
      (hstaged : s.cur.staging s.player.period = v) (hasm : s.cur.assembled v = true)
      (hstep : s.player.step ≤ cert) (hcert : ¬ CertSeen s.cur v) :
      Move cfg D s [.act (.attest s.player.round s.player.period cert v)] s
  /-- The player commits a block with a cert threshold and enters the next round. -/
  | commit (s : State) (pp : Proposal) (v : ProposalValue) (deadline : Duration)
      (hcert : CertSeen s.cur v) (hasm : s.cur.assembled v = true)
      (hpp : (s.cur.store.assembler v).payload = pp) :
      Move cfg D s [.act (.ensure pp s.cur.fresh.freshest.bundle)]
        (s.startRound (s.player.round + 1) deadline)
  /-- The ledger concluded the round. -/
  | interrupt (s : State) (target : Round) (deadline : Duration) (hpend : s.pending = none)
      (hlt : s.player.round < target) :
      Move cfg D s [] (s.startRound target deadline)
  /-- The filtering step ends: freeze the proposal and possibly soft-vote. -/
  | softTimeout (s : State) (p : Player) (c : ProposalTrackerContract)
      (hpend : s.pending = none) (hstep : s.player.step = soft)
      (hpre : (s.cur.period s.player.period).contract.preProposalFrozen = .ok ())
      (hc : (s.cur.period s.player.period).contract.postProposalFrozen
        (s.cur.period s.player.period).tracker.freezer.lowest.r.proposal = .ok c)
      (hp : SamePosition p { s.player with step := cert }) :
      Move cfg D s
        (match Machine.softVoteValue s.player.period
            (s.cur.period s.player.period).tracker.freezer.lowest.r.proposal
            (s.cur.period (prevPeriod s.player.period)).cached with
          | some v => [.act (.attest s.player.round s.player.period soft v)]
          | none => [])
        { s.setRound s.player.round
            (s.cur.setPeriod s.player.period
              { s.cur.period s.player.period with
                tracker := (s.cur.period s.player.period).tracker.proposalFrozen.1
                contract := c }) with
          player := p }
  /-- The cert step ends: the first next-vote. The router of the last period is collected while the
  player is in it, so there is no next-vote there. -/
  | certTimeout (s : State) (p : Player) (hpend : s.pending = none) (hstep : s.player.step = cert)
      (hown : s.player.period ≠ lastPeriod)
      (hp : SamePosition p { s.player with step := next, napping := false }) :
      Move cfg D s
        [.act (.attest s.player.round s.player.period next (s.cur.nextVoteValue s.player.period))]
        { s with player := p }
  /-- The player enters a later next step and waits for a random time. -/
  | nap (s : State) (p : Player) (hpend : s.pending = none) (hsoft : s.player.step ≠ soft)
      (hcert : s.player.step ≠ cert) (hnap : s.player.napping = false)
      (hp : SamePosition p { s.player with step := s.player.step + 1, napping := true }) :
      Move cfg D s [] { s with player := p }
  /-- The random wait is over: next-vote in the current step. -/
  | nextVote (s : State) (p : Player) (hpend : s.pending = none) (hsoft : s.player.step ≠ soft)
      (hcert : s.player.step ≠ cert) (hnap : s.player.napping = true)
      (hown : s.player.period ≠ lastPeriod)
      (hp : SamePosition p { s.player with napping := false }) :
      Move cfg D s
        [.act (.attest s.player.round s.player.period s.player.step
          (s.cur.nextVoteValue s.player.period))]
        { s with player := p }
  /-- Fast partition recovery: vote in one of the three fast steps. -/
  | fastVote (s : State) (p : Player) (hD : D s .fast) (hpend : s.pending = none)
      (hown : s.player.period ≠ lastPeriod) (hp : SamePosition p s.player) :
      Move cfg D s
        [.act (.attest s.player.round s.player.period (s.cur.fastVoteStep s.player.period)
          (s.cur.nextVoteValue s.player.period))]
        { s with player := p }

end Flat

end Novarand.Agreement
