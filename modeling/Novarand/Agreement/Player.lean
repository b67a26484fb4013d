import Novarand.Agreement.Machines

/-!
# The player — the top-level state machine

`submitTop` delivers one event to the player. The player moves through rounds, periods and steps,
asks the proposal and vote machines of the router tree, and returns the actions the service has to
perform. Entering a round replays the freshest threshold already seen in it, which may conclude
that round too; `fuel` bounds the depth of that recursion.
-/

namespace Novarand.Agreement

/-- A player together with its router tree. -/
structure Machine where
  player : Player := {}
  router : RootRouter := {}

abbrev Out := M (Machine × List Action)

def Player.partitioned (p : Player) : Bool := decide (partitionStep ≤ p.step ∨ 3 ≤ p.period)

namespace Machine

/-! ## Queries -/

variable (m : Machine)

def stagedValue (r : Round) (p : Period) : M (Machine × StagingValue) := do
  let (rt, se) ← m.router.toRound m.player r fun rr => rr.readStaging m.player p
  pure ({ m with router := rt }, se)

def pinnedValue (r : Round) : M (Machine × PinnedValue) := do
  let (rt, se) ← m.router.toRound m.player r fun rr => rr.readPinned m.player
  pure ({ m with router := rt }, se)

def freshestBundle : M (Machine × VoteTrackerRound) := do
  let (rt, res) ← m.router.toRound m.player m.player.round fun rr => rr.freshestBundle m.player
  pure ({ m with router := rt }, res)

def nextThresholdStatus (p : Period) : M (Machine × NextThresholdStatus) := do
  let (rt, res) ← m.router.toRound m.player m.player.round fun rr =>
    rr.toPeriod m.player p PeriodRouter.nextThresholdStatus
  pure ({ m with router := rt }, res)

def proposalFrozen : M (Machine × ProposalValue) := do
  let (rt, res) ← m.router.toRound m.player m.player.round fun rr =>
    rr.toPeriod m.player m.player.period PeriodRouter.proposalFrozen
  pure ({ m with router := rt }, res)

def dumpVotes (s : Step) : M (Machine × List UnauthenticatedVote) := do
  let (rt, res) ← m.router.toRound m.player m.player.round fun rr =>
    rr.toPeriod m.player m.player.period fun pr =>
      pr.toStep s fun sr => pure (sr, sr.voteTracker.dumpVotes)
  pure ({ m with router := rt }, res)

/-! ## Partition recovery -/

/-- Relay the staged payload of a period, or else the pinned one. -/
def relayStaged (bundleRound : Round) (bundlePeriod : Period) : Out := do
  let (m, staged) ← m.stagedValue bundleRound bundlePeriod
  if staged.committable then pure (m, [.broadcast (.payload staged.payload.u {})])
  else
    let (m, pinned) ← m.pinnedValue bundleRound
    if pinned.payloadOK then pure (m, [.broadcast (.payload pinned.payload.u {})])
    else pure (m, [])

def partitionPolicy : Out := do
  if m.player.partitioned then
    let (m, res) ← m.freshestBundle
    let b := res.freshest.bundle
    let a0 := if res.ok then [Action.broadcast (.bundle b)] else []
    if res.ok ∧ b.proposal ≠ bottom then
      let (m, a1) ← m.relayStaged b.round b.period
      pure (m, a0 ++ a1)
    else if m.player.period = 0 then
      let (m, a1) ← m.relayStaged m.player.round m.player.period
      pure (m, a0 ++ a1)
    else pure (m, a0)
  else pure (m, [])

/-! ## Votes -/

/-- The value to soft-vote, given the frozen proposal and the next thresholds of the period before.
-/
def softVoteValue (p : Period) (frozen : ProposalValue) (st : NextThresholdStatus) :
    Option ProposalValue :=
  -- did not see bottom: vote for our starting value
  if 0 < p ∧ ¬ st.bottom ∧ st.proposal ≠ bottom then some st.proposal
  -- did not see anything: do not vote
  else if frozen = bottom then none
  -- leader sent reproposal: vote if we saw a quorum for that hash
  else if frozen.originalPeriod < p then
    if st.proposal ≠ bottom ∧ st.proposal = frozen then some frozen else none
  -- original proposal: vote for it
  else some frozen

def issueSoftVote : Out := do
  let (m, frozen) ← m.proposalFrozen
  let (m, st) ← m.nextThresholdStatus (prevPeriod m.player.period)
  let p := m.player
  let acts := match softVoteValue p.period frozen st with
    | some v => [Action.attest p.round p.period soft v]
    | none => []
  pure ({ m with player := { p with deadline := deadlineTimeout } }, acts)

def issueCertVote (v : ProposalValue) : Action :=
  .attest m.player.round m.player.period cert v

/-- The value to next-vote: the staged value if it is committable, otherwise the value of a
next-vote threshold of the previous period unless bottom had one too. -/
def nextVoteValue : M (Machine × (StagingValue × NextThresholdStatus)) := do
  let (m, answer) ← m.stagedValue m.player.round m.player.period
  if answer.committable then pure (m, (answer, {}))
  else
    let (m, st) ← m.nextThresholdStatus (prevPeriod m.player.period)
    pure (m, (answer, st))

def issueNextVote : Out := do
  let (m, actions) ← m.partitionPolicy
  let (m, (answer, st)) ← m.nextVoteValue
  let p := m.player
  let v := if answer.committable then answer.proposal
    else if st.bottom then bottom else st.proposal
  let upper := (nextVoteRanges p.step).2
  pure ({ m with player := { p with napping := false, deadline := upper } },
    actions ++ [.attest p.round p.period p.step v])

def issueFastVote : Out := do
  let (m, actions) ← m.partitionPolicy
  let (m, elate) ← m.dumpVotes late
  let (m, eredo) ← m.dumpVotes redo
  let (m, edown) ← m.dumpVotes down
  let (m, (answer, st)) ← m.nextVoteValue
  let p := m.player
  let (s, v) := if answer.committable then (late, answer.proposal)
    else if st.bottom then (down, bottom) else (redo, st.proposal)
  -- required if we entered the period via a soft threshold
  let s := if v = bottom then down else s
  pure (m, actions ++ [.broadcastVotes (elate ++ (eredo ++ edown)), .attest p.round p.period s v])

/-! ## Entering periods and rounds -/

variable (cfg : Consensus)

def enterPeriod (source : ThresholdEvent) (target : Period) : Out := do
  let (m, actions) ← m.partitionPolicy
  -- before the player changes, so that the old assemblers can be promoted
  let (rt, e) ← m.router.threshold m.player m.player.round source
  let p := { m.player with
    lastConcluding := m.player.step
    period := target
    step := soft
    napping := false
    fastRecoveryDeadline := 0
    deadline := filterTimeout cfg target source.proto }
  let m : Machine := { player := p, router := rt }
  let actions := actions ++ [.rezero p.round]
  match e with
  | some _ => pure (m, actions ++ [m.issueCertVote source.proposal])
  | none =>
    if source.t = .nextThreshold then
      if source.proposal = bottom then pure (m, actions ++ [.assemble p.round p.period])
      else pure (m, actions ++ [.repropose p.round p.period source.proposal])
    else pure (m, actions)

/-- A payload pipelined for the round just entered is verified now. -/
def verifyPipelined (r : Round) : Option PayloadResult → List Action
  | some (.pipelined _ _ period pinned _ payload) =>
    [.verifyPayload { messageHandle := some 0, unauthenticatedProposal := payload } r period pinned]
  | _ => []

/-- `enterRound`; `self` handles the freshest threshold already seen in the new round. -/
def enterRound (self : Machine → ThresholdEvent → Out) (m : Machine) (proto : ConsensusVersion)
    (target : Round) : Out := do
  let (rt, e) ← m.router.handleNewRound m.player target
  let p := { m.player with
    lastConcluding := m.player.step
    round := target
    period := 0
    step := soft
    napping := false
    fastRecoveryDeadline := 0
    deadline := filterTimeout cfg 0 proto }
  let m : Machine := { player := p, router := rt }
  let actions := [Action.rezero target, .assemble p.round 0] ++ verifyPipelined p.round e
  let (m, res) ← m.freshestBundle
  if res.ok then
    let (m, a4) ← self m res.freshest
    pure (m, actions ++ a4)
  else pure (m, actions)

/-- `player.handle` of a threshold event. -/
def handleThresholdEvent : ℕ → Machine → ThresholdEvent → Out
  | 0, _, _ => throw .fuel
  | fuel + 1, m, e =>
    match e.t with
    | .none => pure (m, [])
    | .certThreshold => do
      let (rt, _) ← m.router.threshold m.player 0 e
      let (m, res) ← { m with router := rt }.stagedValue e.round e.period
      if res.committable then
        let (m, as) ← m.enterRound cfg (handleThresholdEvent fuel) e.proto (m.player.round + 1)
        pure (m, .ensure res.payload e.bundle :: as)
      else if m.player.period < e.period then
        let (m, as) ← m.enterPeriod cfg e e.period
        pure (m, .stageDigest e.bundle :: as)
      else pure (m, [.stageDigest e.bundle])
    | .softThreshold =>
      if e.period < m.player.period then pure (m, [])
      else if m.player.period < e.period then m.enterPeriod cfg e e.period
      else do
        let (rt, ec) ← m.router.threshold m.player m.player.round e
        let m := { m with router := rt }
        if ec.isSome ∧ m.player.step ≤ cert then pure (m, [m.issueCertVote e.proposal])
        else pure (m, [])
    | .nextThreshold =>
      if e.period < m.player.period then pure (m, [])
      else m.enterPeriod cfg e (nextPeriod e.period)

/-! ## Messages -/

/-- A payload without a message handle comes from the node itself: relay it as the proposer. -/
def relayAsProposer (e : MessageEvent) (vote : Vote) : List Action :=
  if e.input.messageHandle = none then
    [relayAction e (.payload e.input.unauthenticatedProposal vote.u)]
  else []

section

variable (fuel : ℕ) (m : Machine) (e : MessageEvent)

/-- The end of `handleMessageEvent` for a valid payload: check it against a cert threshold seen
before, and otherwise cert-vote it if it is committable. -/
def checkCert (committable : Bool) (pv : ProposalValue) : Out := do
  let (m, fr) ← m.freshestBundle
  if fr.ok ∧ fr.freshest.t = .certThreshold ∧ fr.freshest.proposal = e.input.proposal.value then
    let (m, as) ← m.enterRound cfg (handleThresholdEvent cfg fuel) e.proto.version
      (fr.freshest.bundle.round + 1)
    pure (m, .ensure e.input.proposal fr.freshest.bundle :: as)
  else if committable ∧ m.player.step ≤ cert then pure (m, [m.issueCertVote pv])
  else pure (m, [])

/-- `handleMessageEvent` of a proposal payload. -/
def handlePayload : Out := do
  let (rt, ef) ← if e.t = .payloadPresent then m.router.payloadPresent m.player e
    else m.router.payloadVerified m.player e
  let m := { m with router := rt }
  match ef with
  | .malformed err => pure (m, [ignoreAction e (.invalid err)])
  | .rejected err => pure (m, [ignoreAction e err])
  | .pipelined round vote period pinned _ _ =>
    let ra := relayAction e (.payload e.input.unauthenticatedProposal vote.u)
    if round = m.player.round then pure (m, [verifyPayloadAction e round period pinned, ra])
    else pure (m, ra :: relayAsProposer e vote)
  | .accepted vote pv =>
    let (m, as) ← m.checkCert cfg fuel e false pv
    pure (m, relayAsProposer e vote ++ as)
  | .committable vote pv =>
    let (m, as) ← m.checkCert cfg fuel e true pv
    pure (m, relayAsProposer e vote ++ as)

/-- The payload which arrived with a proposal-vote is handled after the vote. -/
def handleTail (tail : Option TailEvent) (actions : List Action) : Out :=
  match tail with
  | none => pure (m, actions)
  | some ev => do
    let (m, suffix) ← m.handlePayload cfg fuel ev.toEvent
    pure (m, actions ++ suffix)

/-- `handleMessageEvent` of a proposal-vote which is not yet verified. -/
def handleProposalVotePresent : Out := do
  let (rt, res) ← m.router.proposalVotePresent m.player e
  let m := { m with router := rt }
  match res with
  | .malformed err => m.handleTail cfg fuel e.tail [disconnectAction e err]
  | .filtered err => m.handleTail cfg fuel e.tail [ignoreAction e err]
  | _ =>
    let (pending, seq) := m.player.pending.push e.tail
    let uv := e.input.unauthenticatedVote
    pure ({ m with player := { m.player with pending := pending } },
      [verifyVoteAction e uv.r.round uv.r.period seq])

/-- `handleMessageEvent` of a verified proposal-vote. -/
def handleProposalVoteVerified : Out := do
  let (rt, res) ← m.router.proposalVoteVerified m.player e
  let (pending, tail) := m.player.pending.pop e.taskIndex
  let m : Machine := { player := { m.player with pending := pending }, router := rt }
  let v := e.input.vote
  let a := match res with
    | .malformed err => disconnectAction e err
    | .filtered err => ignoreAction e err
    | .accepted (some payload) => .broadcast (.payload payload.u v.u)
    | _ => relayAction e (.vote v.u)
  m.handleTail cfg fuel tail [a]

/-- `handleMessageEvent` of a vote above step `propose`. -/
def handleVote : Out := do
  let (rt, ef) ← if e.t = .votePresent then m.router.votePresent m.player e
    else m.router.voteVerified cfg m.player e
  let m := { m with router := rt }
  match ef with
  | .malformed err => pure (m, [disconnectAction e (.invalid err)])
  | .filtered err => pure (m, [ignoreAction e err])
  | .observed te =>
    if e.t = .votePresent then
      let uv := e.input.unauthenticatedVote
      pure (m, [verifyVoteAction e uv.r.round uv.r.period 0])
    else
      let (m, a1) ← m.handleThresholdEvent cfg fuel te
      pure (m, relayAction e (.vote e.input.vote.u) :: a1)

/-- `handleMessageEvent` of a bundle. -/
def handleBundle : Out := do
  let (rt, ef) ← if e.t = .bundlePresent then m.router.bundlePresent m.player e
    else m.router.bundleVerified cfg m.player e
  let m := { m with router := rt }
  match ef with
  | .malformed err => pure (m, [disconnectAction e (.invalid err)])
  | .filtered err => pure (m, [ignoreAction e err])
  | .observed te =>
    if e.t = .bundlePresent then
      let ub := e.input.unauthenticatedBundle
      pure (m, [verifyBundleAction e ub.round ub.period ub.step])
    else
      let (m, a1) ← m.handleThresholdEvent cfg fuel te
      pure (m, relayAction e (.bundle te.bundle) :: a1)

def handleMessageEvent : Out :=
  match e.t with
  | .votePresent =>
    if e.input.unauthenticatedVote.r.step = propose then m.handleProposalVotePresent cfg fuel e
    else m.handleVote cfg fuel e
  | .voteVerified =>
    if e.input.unauthenticatedVote.r.step = propose then m.handleProposalVoteVerified cfg fuel e
    else m.handleVote cfg fuel e
  | .payloadPresent | .payloadVerified => m.handlePayload cfg fuel e
  | .bundlePresent | .bundleVerified => m.handleBundle cfg fuel e

end

/-! ## Timeouts -/

/-- `RandomEntropy % uint64(upper-lower)` as a duration. -/
def randomDelta (randomEntropy : ℕ) (lower upper : Duration) : M Duration :=
  let range := ((upper - lower) % 2 ^ 64).toNat
  if range = 0 then throw .divide else pure (int64 (randomEntropy % range))

def handleTimeout (randomEntropy : ℕ) : Out :=
  if m.player.step = soft then do
    let (m, actions) ← m.issueSoftVote
    pure ({ m with player := { m.player with step := cert } }, actions)
  else if m.player.step = cert then
    issueNextVote { m with player := { m.player with step := next } }
  else if m.player.napping then m.issueNextVote
  else do
    -- not napping, so we enter a new step
    let s := m.player.step + 1
    let (lower, upper) := nextVoteRanges s
    let delta ← randomDelta randomEntropy lower upper
    pure ({ m with player := { m.player with
      step := s, napping := true, deadline := int64 (lower + delta) } }, [])

def handleFastTimeout (randomEntropy : ℕ) (proto : ConsensusVersionView) : Out :=
  if proto.err ≠ .nil then pure (m, [])
  else
    let lambda := (cfg proto.version).fastRecoveryLambda
    if lambda = 0 then throw .divide
    else do
      let k := int64 (Int.tdiv (int64 (m.player.fastRecoveryDeadline + lambda - 1)) lambda)
      let lower := int64 (k * lambda)
      let upper := int64 ((k + 1) * lambda)
      let delta ← randomDelta randomEntropy lower upper
      if m.player.fastRecoveryDeadline = 0 then
        -- don't vote the first time
        pure ({ m with player := { m.player with
          fastRecoveryDeadline := int64 (lower + delta + lambda) } }, [])
      else
        issueFastVote { m with player := { m.player with
          fastRecoveryDeadline := int64 (lower + delta) } }

/-! ## The top level -/

/-- `player.handle` of an external event. -/
def handle (fuel : ℕ) (m : Machine) : Event → Out
  | .none => pure (m, [])
  | .message e => m.handleMessageEvent cfg fuel e
  | .timeout randomEntropy => m.handleTimeout randomEntropy
  | .fastTimeout randomEntropy proto => m.handleFastTimeout cfg randomEntropy proto
  | .roundInterruption round proto =>
    m.enterRound cfg (handleThresholdEvent cfg fuel) proto.version round
  | .checkpoint round period step err done => pure (m, [.checkpoint round period step err done])

def submitTop (fuel : ℕ) (m : Machine) (e : Event) : Out :=
  handle cfg fuel { m with router := m.router.update m.player 0 } e

end Machine

end Novarand.Agreement
