import Novarand.Agreement.Types

/-!
# Agreement events and actions

The events delivered to the player, the threshold events passed between the state machines, the
actions the player returns, and the ways a handler can panic. Error texts are kept as data: one
constructor per message, with the values the message prints.
-/

namespace Novarand.Agreement

/-! ## Panics -/

/-- The panics the state machine can raise. -/
inductive Panic
  /-- `Children[..]` was nil when an event was dispatched to it. -/
  | nilRouter
  /-- A `checkedListener` precondition failed. -/
  | precondition
  /-- A `checkedListener` postcondition failed. -/
  | postcondition
  /-- A `log.Panicf` inside a handler. -/
  | log
  /-- The `log.Panic` of a proposal store with too many assemblers for a new round. -/
  | assemblers
  /-- An index out of range. -/
  | index
  /-- An integer division by zero. -/
  | divide
  /-- `zeroAction` was asked for an action type it does not know. -/
  | badAction
  /-- The bound on nested round entries was reached; not a panic of the source. -/
  | fuel
deriving DecidableEq

/-- A handler's result. -/
abbrev M := Except Panic

/-! ## Errors -/

/-- Where a vote stands relative to the player: the `descr` of `voteStepFresh`. -/
inductive VoteOrigin
  | nextRound | previousPeriod | period | nextPeriod
deriving DecidableEq

/-- Why a message is not fresh. -/
inductive FreshErr
  | voteBadRound (playerRound voteRound : Round)
  | voteFuturePeriod (playerRound round : Round) (period : Period) (step : Step)
  | voteStaleStep (descr : VoteOrigin) (mine vote : Step)
  | votePrematureStep (descr : VoteOrigin) (mine vote : Step)
  | voteBadPeriod (playerPeriod votePeriod : Period)
  | bundleBadRound (playerRound bundleRound : Round)
  | bundleStale (playerPeriod bundlePeriod : Period)
  | proposalStale (playerPeriod votePeriod : Period)
  | proposalPremature (playerPeriod votePeriod : Period)
  | proposalNextRoundPeriod (votePeriod : Period)
  | proposalBadRound (playerRound voteRound : Round)
deriving DecidableEq

inductive SerErr
  /-- No error. -/
  | nil
  /-- An error attached to the event by the verifier or the ledger. -/
  | external (code : ℕ)
  | proposalAge (e : FreshErr)
  | proposalIgnoredAge (e : FreshErr)
  | proposalSenderSeen (sender : Address) (round : Round) (period : Period)
  | proposalTrackerSenderDup (sender : Address) (round : Round) (period : Period)
  | proposalTrackerStaged
  | proposalSeekerFrozen
  | proposalSeekerNotLess (newSender lowestSender : Address)
  | voteAge (e : FreshErr)
  | voteSenderSeen (sender : Address) (round : Round) (period : Period) (step : Step)
  | bundleAge (e : FreshErr)
  | bundleNoChange (round : Round) (period : Period) (step : Step) (proposal : ProposalValue)
  | noAssemblerOnPresent
  | noAssemblerOnVerified
  | alreadyAssembled
  | alreadyFilled
  /-- "rejected message since it was invalid: …" -/
  | invalid (sub : SerErr)
deriving DecidableEq

/-! ## Messages and external events -/

structure ConsensusVersionView where
  err : SerErr := .nil
  version : ConsensusVersion := 0
deriving DecidableEq

structure Message where
  messageHandle : Option ℕ := none
  vote : Vote := {}
  proposal : Proposal := {}
  bundle : Bundle := {}
  unauthenticatedVote : UnauthenticatedVote := {}
  unauthenticatedProposal : UnauthenticatedProposal := {}
  unauthenticatedBundle : UnauthenticatedBundle := {}
deriving DecidableEq

inductive MessageType
  | votePresent | payloadPresent | bundlePresent
  | voteVerified | payloadVerified | bundleVerified
deriving DecidableEq

/-- The `Tail` of a message event: the `payloadPresent` event of a payload that came with a
proposal-vote. -/
structure TailEvent where
  messageHandle : Option ℕ := none
  unauthenticatedProposal : UnauthenticatedProposal := {}
  proto : ConsensusVersionView := {}
deriving DecidableEq

structure MessageEvent where
  t : MessageType
  input : Message := {}
  err : SerErr := .nil
  taskIndex : ℕ := 0
  tail : Option TailEvent := none
  cancelled : Bool := false
  proto : ConsensusVersionView := {}
deriving DecidableEq

def TailEvent.toEvent (e : TailEvent) : MessageEvent where
  t := .payloadPresent
  input := { messageHandle := e.messageHandle
             unauthenticatedProposal := e.unauthenticatedProposal }
  proto := e.proto

/-- The events the demultiplexer hands to the player. -/
inductive Event
  | none
  | message (e : MessageEvent)
  | timeout (randomEntropy : ℕ)
  | fastTimeout (randomEntropy : ℕ) (proto : ConsensusVersionView)
  | roundInterruption (round : Round) (proto : ConsensusVersionView)
  | checkpoint (round : Round) (period : Period) (step : Step) (err : SerErr)
      (done : Option ℕ)
deriving DecidableEq

/-! ## Threshold events -/

inductive ThresholdType
  | none | softThreshold | certThreshold | nextThreshold
deriving DecidableEq

structure ThresholdEvent where
  t : ThresholdType := .none
  round : Round := 0
  period : Period := 0
  step : Step := 0
  proposal : ProposalValue := {}
  bundle : UnauthenticatedBundle := {}
  proto : ConsensusVersion := 0
deriving DecidableEq

/-- `fresherThan`, the order in which a round's vote machine reports thresholds. -/
def ThresholdEvent.fresherThan (e o : ThresholdEvent) : M Bool :=
  match e.t, o.t with
  | .none, .none => pure true
  | .none, _ => pure false
  | _, .none => pure true
  | et, ot =>
    if e.round ≠ o.round then throw .log
    else if ot = .certThreshold then pure false
    else match et with
      | .softThreshold => pure (decide (o.period < e.period))
      | .certThreshold => pure true
      | _ =>
        if o.period < e.period then pure true
        else if e.period < o.period then pure false
        else if ot = .softThreshold then pure true
        else pure (decide (e.proposal = bottom ∧ o.proposal ≠ bottom))

/-! ## Actions -/

/-- What a network action carries, by its tag. -/
inductive Content
  | vote (v : UnauthenticatedVote)
  | bundle (b : UnauthenticatedBundle)
  | payload (proposal : UnauthenticatedProposal) (vote : UnauthenticatedVote)
deriving DecidableEq

inductive Action
  | ignore (err : SerErr) (h : Option ℕ)
  | disconnect (err : SerErr) (h : Option ℕ)
  | broadcast (c : Content)
  | relay (h : Option ℕ) (c : Content)
  | broadcastVotes (votes : List UnauthenticatedVote)
  | verifyVote (m : Message) (round : Round) (period : Period) (taskIndex : ℕ)
  | verifyPayload (m : Message) (round : Round) (period : Period) (pinned : Bool)
  | verifyBundle (m : Message) (round : Round) (period : Period) (step : Step)
  | ensure (payload : Proposal) (certificate : UnauthenticatedBundle)
  | stageDigest (certificate : UnauthenticatedBundle)
  | rezero (round : Round)
  | attest (round : Round) (period : Period) (step : Step) (proposal : ProposalValue)
  | assemble (round : Round) (period : Period)
  | repropose (round : Round) (period : Period) (proposal : ProposalValue)
  | checkpoint (round : Round) (period : Period) (step : Step) (err : SerErr)
      (done : Option ℕ)
deriving DecidableEq

variable (e : MessageEvent)

def ignoreAction (err : SerErr) : Action :=
  .ignore err e.input.messageHandle

def disconnectAction (err : SerErr) : Action :=
  .disconnect err e.input.messageHandle

def relayAction (c : Content) : Action := .relay e.input.messageHandle c

def verifyVoteAction (r : Round) (p : Period) (taskIndex : ℕ) : Action :=
  .verifyVote e.input r p taskIndex

def verifyPayloadAction (r : Round) (p : Period) (pinned : Bool) : Action :=
  .verifyPayload e.input r p pinned

def verifyBundleAction (r : Round) (p : Period) (s : Step) : Action :=
  .verifyBundle e.input r p s

/-! ## The player's own state -/

/-- Proposals which wait for the vote they arrived with. -/
structure ProposalTable where
  pending : Dict ℕ (Option TailEvent) := ∅
  pendingNext : ℕ := 0

def ProposalTable.push (t : ProposalTable) (e : Option TailEvent) : ProposalTable × ℕ :=
  let n := t.pendingNext + 1
  ({ pending := t.pending.insert n e, pendingNext := n }, n)

def ProposalTable.pop (t : ProposalTable) (taskIndex : ℕ) : ProposalTable × Option TailEvent :=
  ({ t with pending := t.pending.erase taskIndex }, t.pending.getD taskIndex .none)

structure Player where
  round : Round := 0
  period : Period := 0
  step : Step := 0
  lastConcluding : Step := 0
  deadline : Duration := 0
  napping : Bool := false
  fastRecoveryDeadline : Duration := 0
  pending : ProposalTable := {}

end Novarand.Agreement
