import Novarand.Agreement.Router

/-!
# The root machines — vote aggregator and proposal manager

`voteAggregator` and `proposalManager` sit at the root of the tree. They decide which messages are
fresh, dispatch those to the machines of their round, and hand thresholds back to the player.
-/

namespace Novarand.Agreement

/-! ## Freshness -/

def voteStepFresh (descr : VoteOrigin) (mine vote : Step) : Except FreshErr Unit :=
  if vote ≤ next then pure ()
  else if late ≤ vote then pure ()
  else if mine ≠ 0 ∧ vote < mine - 1 then throw (.voteStaleStep descr mine vote)
  else if mine + 1 < vote then throw (.votePrematureStep descr mine vote)
  else pure ()

/-- `voteFresh`; the freshness data are the player's own fields. -/
def voteFresh (p : Player) (rv : RawVote) : Except FreshErr Unit :=
  if p.round ≠ rv.round ∧ p.round + 1 ≠ rv.round then throw (.voteBadRound p.round rv.round)
  else if p.round + 1 = rv.round then
    if 0 < rv.period then throw (.voteFuturePeriod p.round rv.round rv.period rv.step)
    else voteStepFresh .nextRound 0 rv.step
  else if rv.period = prevPeriod p.period then
    if p.period ≠ 0 then voteStepFresh .previousPeriod p.lastConcluding rv.step
    else throw (.voteBadPeriod p.period rv.period)
  else if rv.period = p.period then voteStepFresh .period p.step rv.step
  else if rv.period = nextPeriod p.period then voteStepFresh .nextPeriod soft rv.step
  else throw (.voteBadPeriod p.period rv.period)

def bundleFresh (p : Player) (b : UnauthenticatedBundle) : Except FreshErr Unit :=
  if p.round ≠ b.round then throw (.bundleBadRound p.round b.round)
  else if b.step = cert then pure ()
  else if p.period ≠ 0 ∧ b.period < p.period - 1 then throw (.bundleStale p.period b.period)
  else pure ()

def proposalFresh (p : Player) (rv : RawVote) : Except FreshErr Unit :=
  if rv.round = p.round then
    if p.period ≠ 0 ∧ rv.period < p.period - 1 then throw (.proposalStale p.period rv.period)
    else if nextPeriod p.period < rv.period then throw (.proposalPremature p.period rv.period)
    else pure ()
  else if rv.round = p.round + 1 then
    if rv.period ≠ 0 then throw (.proposalNextRoundPeriod rv.period) else pure ()
  else throw (.proposalBadRound p.round rv.round)

/-! ## The vote aggregator -/

/-- What the aggregator answers: a vote or bundle is malformed, filtered, or observed, possibly with
a threshold. -/
inductive VoteResult
  | malformed (err : SerErr)
  | filtered (err : SerErr)
  | observed (e : ThresholdEvent)

namespace RootRouter

variable (rt : RootRouter) (state : Player)

/-- `filterVote`: the error is `nil` if the vote is fresh and new. -/
def filterVote (rv : RawVote) : M (RootRouter × SerErr) :=
  match voteFresh state rv with
  | .error e => pure (rt, .voteAge e)
  | .ok () => do
    let (rt, dup) ← rt.toRound state rv.round fun rr =>
      rr.toPeriod state rv.period fun pr =>
        pr.toStep rv.step fun sr => pure (sr, sr.voteTracker.voteFilterRequest rv)
    if dup then pure (rt, .voteSenderSeen rv.sender rv.round rv.period rv.step)
    else pure (rt, .nil)

/-- Dispatch of a `voteAccepted` event to the round's vote machine. -/
def voteAccepted (cfg : Consensus) (rt : RootRouter) (state : Player) (v : Vote)
    (proto : ConsensusVersion) : M (RootRouter × ThresholdEvent) :=
  rt.toRound state v.r.round fun rr => rr.voteAccepted cfg state v proto

/-- Play the votes of a bundle, keeping the last threshold they cause. -/
def playVotes (cfg : Consensus) (state : Player) (proto : ConsensusVersion) :
    RootRouter → List Vote → ThresholdEvent → M (RootRouter × ThresholdEvent)
  | rt, [], te => pure (rt, te)
  | rt, v :: vs, te => do
    let (rt, e) ← rt.voteAccepted cfg state v proto
    playVotes cfg state proto rt vs (if e.t = .none then te else e)

/-- `voteAggregator.handle` of a vote which is not yet verified. -/
def votePresent (e : MessageEvent) : M (RootRouter × VoteResult) := do
  let rt := rt.update state 0
  if e.proto.err ≠ .nil then pure (rt, .filtered e.proto.err)
  else
    let (rt, err) ← rt.filterVote state e.input.unauthenticatedVote.r
    if err ≠ .nil then pure (rt, .filtered err) else pure (rt, .observed {})

/-- `voteAggregator.handle` of a `voteVerified` event. -/
def voteVerified (cfg : Consensus) (rt : RootRouter) (state : Player) (e : MessageEvent) :
    M (RootRouter × VoteResult) := do
  let rt := rt.update state 0
  if e.cancelled then pure (rt, .filtered e.err)
  else if e.proto.err ≠ .nil then pure (rt, .filtered e.err)
  else if e.err ≠ .nil then pure (rt, .malformed e.err)
  else
    let v := e.input.vote
    let (rt, err) ← rt.filterVote state v.r
    if err ≠ .nil then pure (rt, .filtered err)
    else
      let (rt, tE) ← rt.voteAccepted cfg state v e.proto.version
      if tE.t = .none then pure (rt, .observed tE)
      else if tE.round = state.round then pure (rt, .observed tE)
      else if tE.round = state.round + 1 then pure (rt, .observed {})
      else throw .log

/-- `voteAggregator.handle` of a bundle which is not yet verified. -/
def bundlePresent (e : MessageEvent) : M (RootRouter × VoteResult) :=
  let rt := rt.update state 0
  match bundleFresh state e.input.unauthenticatedBundle with
  | .error err => pure (rt, .filtered (.bundleAge err))
  | .ok () => pure (rt, .observed {})

/-- `voteAggregator.handle` of a `bundleVerified` event. -/
def bundleVerified (cfg : Consensus) (rt : RootRouter) (state : Player) (e : MessageEvent) :
    M (RootRouter × VoteResult) := do
  let rt := rt.update state 0
  if e.cancelled then pure (rt, .filtered e.err)
  else if e.proto.err ≠ .nil then pure (rt, .filtered e.err)
  else if e.err ≠ .nil then pure (rt, .malformed e.err)
  else
    let b := e.input.bundle
    match bundleFresh state b.u with
    | .error err => pure (rt, .filtered (.bundleAge err))
    | .ok () =>
      let (rt, te) ← playVotes cfg state e.proto.version rt b.allVotes {}
      if te.t = .none then
        pure (rt, .filtered (.bundleNoChange b.u.round b.u.period b.u.step b.u.proposal))
      else pure (rt, .observed te)

end RootRouter

/-! ## The proposal manager -/

/-- What the manager answers to a proposal-vote; `accepted` carries the payload if it is known. -/
inductive ProposalVoteResult
  | malformed (err : SerErr)
  | filtered (err : SerErr)
  | present
  | accepted (payload : Option Proposal)

/-- The precondition of the proposal manager on threshold events. -/
def proposalManagerPre (p : Player) (e : ThresholdEvent) : M Unit :=
  if p.round ≠ e.round then throw .precondition
  else if e.t ≠ .certThreshold ∧ e.period < p.period then throw .precondition
  else if e.t = .softThreshold ∧ e.proposal = bottom then throw .precondition
  else pure ()

namespace RootRouter

variable (rt : RootRouter) (state : Player)

/-- `filterProposalVote`: the error is `nil` if the proposal-vote is fresh and new. -/
def filterProposalVote (rv : RawVote) : M (RootRouter × SerErr) :=
  match proposalFresh state rv with
  | .error e => pure (rt, .proposalAge e)
  | .ok () => do
    let (rt, dup) ← rt.toRound state rv.round fun rr =>
      rr.toPeriod state rv.period fun pr => pr.proposalFilterRequest rv
    if dup then pure (rt, .proposalSenderSeen rv.sender rv.round rv.period) else pure (rt, .nil)

variable (e : MessageEvent)

/-- `proposalManager.handle` of a proposal-vote which is not yet verified. -/
def proposalVotePresent : M (RootRouter × ProposalVoteResult) := do
  let rt := rt.update state 0
  let (rt, err) ← rt.filterProposalVote state e.input.unauthenticatedVote.r
  if err ≠ .nil then pure (rt, .filtered err) else pure (rt, .present)

/-- `proposalManager.handle` of a verified proposal-vote. -/
def proposalVoteVerified : M (RootRouter × ProposalVoteResult) := do
  let rt := rt.update state 0
  if e.cancelled then pure (rt, .filtered e.err)
  else if e.err ≠ .nil then pure (rt, .malformed e.err)
  else
    let v := e.input.vote
    match proposalFresh state v.r with
    | .error err => pure (rt, .filtered (.proposalIgnoredAge err))
    | .ok () =>
      let (rt, res) ← rt.toRound state v.r.round fun rr => rr.voteVerified state v
      match res with
      | .error err => pure (rt, .filtered err)
      | .ok payload => pure (rt, .accepted payload)

/-- `proposalManager.handle` of a `payloadPresent` event. -/
def payloadPresent : M (RootRouter × PayloadResult) := do
  let rt := rt.update state 0
  let up := e.input.unauthenticatedProposal
  -- a payload of another round can only be for the next one
  let (r, p) := if state.round = up.round then (state.round, state.period) else (state.round + 1, 0)
  let (rt, res) ← rt.toRound state r fun rr => rr.payloadPresent state p up
  match res with
  | .pipelined _ vote period pinned proposal payload =>
    pure (rt, .pipelined r vote period pinned proposal payload)
  | res => pure (rt, res)

/-- `proposalManager.handle` of a `payloadVerified` event. -/
def payloadVerified : M (RootRouter × PayloadResult) := do
  let rt := rt.update state 0
  if e.cancelled then pure (rt, .rejected e.err)
  else if e.err ≠ .nil then pure (rt, .malformed e.err)
  else rt.toRound state state.round fun rr => rr.payloadVerified state e.input.proposal

def handleNewPeriod (e : ThresholdEvent) : M (RootRouter × Unit) :=
  let target := if e.t = .nextThreshold then nextPeriod e.period else e.period
  rt.toRound state e.round fun rr => rr.newPeriod state target e.proposal

/-- `proposalManager.handle` of a threshold event which the player addresses to round `r`; returns
the authenticator if the value is committable. -/
def threshold (r : Round) (e : ThresholdEvent) : M (RootRouter × Option Vote) := do
  let rt := rt.update state r
  proposalManagerPre state e
  match e.t with
  | .nextThreshold =>
    let (rt, _) ← rt.handleNewPeriod state e
    pure (rt, none)
  | .none => throw .precondition
  | _ =>
    let rt ← if state.period < e.period then
        do let (rt, _) ← rt.handleNewPeriod state e; pure rt
      else pure rt
    rt.toRound state e.round fun rr => rr.threshold state e

/-- `proposalManager.handle` of a `roundInterruption` event. -/
def handleNewRound (round : Round) : M (RootRouter × Option PayloadResult) :=
  (rt.update state round).toRound state round fun rr => rr.newRound state

end RootRouter

end Novarand.Agreement
