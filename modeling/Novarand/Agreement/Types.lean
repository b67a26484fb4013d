import Novarand.Lib.Dict
import Novarand.Lib.Outcome

/-!
# Agreement types — rounds, votes, bundles, proposals and the clock

Rounds follow the ledger and steps the timeouts, one at a time, and are natural numbers; vote
weights are natural numbers too. A period is set by whatever bundle arrives, so its successor is that
of `uint64` (`nextPeriod`). Durations are `int64` nanoseconds and keep their wrap-around. A block enters
the state machine only through its round and the two digests of its proposal-value, so a proposal
payload is its round, its proposer and those digests.
-/

namespace Novarand.Agreement

abbrev Round := ℕ
abbrev Period := ℕ
abbrev Step := ℕ
abbrev Address := ℕ
abbrev Digest := ℕ
abbrev Signature := ℕ
abbrev ConsensusVersion := ℕ

/-! ## Steps -/

abbrev propose : Step := 0
abbrev soft : Step := 1
abbrev cert : Step := 2
abbrev next : Step := 3
abbrev late : Step := 253
abbrev redo : Step := 254
abbrev down : Step := 255

abbrev partitionStep : Step := next + 3

/-- The largest `uint64`. -/
abbrev lastPeriod : Period := 2 ^ 64 - 1

/-- `p - 1` on `uint64`: the period below 0 is the largest one. -/
def prevPeriod (p : Period) : Period := if p = 0 then lastPeriod else p - 1

/-- `p + 1` on `uint64`: the period above the largest one is 0. -/
def nextPeriod (p : Period) : Period := if p = lastPeriod then 0 else p + 1

/-! ## Consensus parameters and timeouts -/

/-- A `time.Duration`: nanoseconds in an `int64`. -/
abbrev Duration := ℤ

def int64 (x : ℤ) : Duration := Int.bmod x (2 ^ 64)

/-- The fields of `config.ConsensusParams` the agreement state machine reads. -/
structure ConsensusParams where
  softCommitteeThreshold : ℕ
  certCommitteeThreshold : ℕ
  nextCommitteeThreshold : ℕ
  lateCommitteeThreshold : ℕ
  redoCommitteeThreshold : ℕ
  downCommitteeThreshold : ℕ
  agreementFilterTimeout : Duration
  agreementFilterTimeoutPeriod0 : Duration
  fastRecoveryLambda : Duration

/-- The table `config.Consensus`. -/
abbrev Consensus := ConsensusVersion → ConsensusParams

def smallLambda : Duration := 2000000000
def bigLambda : Duration := 15000000000
def deadlineTimeout : Duration := bigLambda + smallLambda
def recoveryExtraTimeout : Duration := smallLambda

def filterTimeout (cfg : Consensus) (p : Period) (v : ConsensusVersion) : Duration :=
  if p = 0 then (cfg v).agreementFilterTimeoutPeriod0 else (cfg v).agreementFilterTimeout

/-- The loop of `nextVoteRanges`, run once for every step from `next` up to `s`. -/
def nextVoteRangesLoop : ℕ → Duration → Duration → Duration → Duration × Duration
  | 0, _, lower, upper => (lower, upper)
  | n + 1, extra, _, upper =>
    let extra' := int64 (extra * 2)
    nextVoteRangesLoop n extra' upper (int64 (upper + extra'))

def nextVoteRanges (s : Step) : Duration × Duration :=
  nextVoteRangesLoop (s - next) recoveryExtraTimeout deadlineTimeout
    (int64 (deadlineTimeout + recoveryExtraTimeout))

/-- `threshold` of a step above `propose`. -/
def threshold (s : Step) (proto : ConsensusParams) : ℕ :=
  if s = soft then proto.softCommitteeThreshold
  else if s = cert then proto.certCommitteeThreshold
  else if s = late then proto.lateCommitteeThreshold
  else if s = redo then proto.redoCommitteeThreshold
  else if s = down then proto.downCommitteeThreshold
  else proto.nextCommitteeThreshold

def reachesQuorum (s : Step) (proto : ConsensusParams) (weight : ℕ) : Bool :=
  if s = propose then false else decide (threshold s proto ≤ weight)

/-! ## Proposals -/

structure ProposalValue where
  originalPeriod : Period := 0
  originalProposer : Address := 0
  blockDigest : Digest := 0
  encodingDigest : Digest := 0
deriving DecidableEq

/-- The zero proposal-value. -/
def bottom : ProposalValue := {}

/-- An `unauthenticatedProposal`: a block with its proposer, reduced to what `Round()` and
`value()` return. -/
structure UnauthenticatedProposal where
  round : Round := 0
  originalPeriod : Period := 0
  originalProposer : Address := 0
  digest : Digest := 0
  encodingDigest : Digest := 0
deriving DecidableEq

def UnauthenticatedProposal.value (p : UnauthenticatedProposal) : ProposalValue where
  originalPeriod := p.originalPeriod
  originalProposer := p.originalProposer
  blockDigest := p.digest
  encodingDigest := p.encodingDigest

/-- A validated proposal. The cached `ValidatedBlock` is not read by the state machine. -/
structure Proposal where
  u : UnauthenticatedProposal := {}
deriving DecidableEq

def Proposal.value (p : Proposal) : ProposalValue := p.u.value

/-! ## Votes -/

structure RawVote where
  sender : Address := 0
  round : Round := 0
  period : Period := 0
  step : Step := 0
  proposal : ProposalValue := {}
deriving DecidableEq

/-- A verified credential: its VRF proof, its committee weight, and the hash that orders credentials.
-/
structure Credential where
  proof : ℕ := 0
  weight : ℕ := 0
  lowestOutput : ℕ := 0
deriving DecidableEq

def Credential.less (c other : Credential) : Bool := c.lowestOutput < other.lowestOutput

structure UnauthenticatedVote where
  r : RawVote := {}
  cred : ℕ := 0
  sig : Signature := 0
deriving DecidableEq

structure Vote where
  r : RawVote := {}
  cred : Credential := {}
  sig : Signature := 0
deriving DecidableEq

def Vote.u (v : Vote) : UnauthenticatedVote where
  r := v.r
  cred := v.cred.proof
  sig := v.sig

structure EquivocationVote where
  sender : Address := 0
  round : Round := 0
  period : Period := 0
  step : Step := 0
  cred : Credential := {}
  proposals : ProposalValue × ProposalValue := ({}, {})
  sigs : Signature × Signature := (0, 0)
deriving DecidableEq

namespace EquivocationVote

def v0 (pair : EquivocationVote) : Vote where
  r := { sender := pair.sender, round := pair.round, period := pair.period, step := pair.step,
         proposal := pair.proposals.1 }
  cred := pair.cred
  sig := pair.sigs.1

def v1 (pair : EquivocationVote) : Vote where
  r := { sender := pair.sender, round := pair.round, period := pair.period, step := pair.step,
         proposal := pair.proposals.2 }
  cred := pair.cred
  sig := pair.sigs.2

end EquivocationVote

/-! ## Bundles -/

structure VoteAuthenticator where
  sender : Address
  cred : ℕ
  sig : Signature
deriving DecidableEq

structure EquivocationVoteAuthenticator where
  sender : Address
  cred : ℕ
  sigs : Signature × Signature
  proposals : ProposalValue × ProposalValue
deriving DecidableEq

structure UnauthenticatedBundle where
  round : Round := 0
  period : Period := 0
  step : Step := 0
  proposal : ProposalValue := {}
  votes : List VoteAuthenticator := []
  equivocationVotes : List EquivocationVoteAuthenticator := []
deriving DecidableEq

structure Bundle where
  u : UnauthenticatedBundle := {}
  votes : List Vote := []
  equivocationVotes : List EquivocationVote := []
deriving DecidableEq

/-- The single list of votes a verified bundle is played as. -/
def Bundle.allVotes (b : Bundle) : List Vote :=
  b.votes ++ b.equivocationVotes.flatMap fun pair => [pair.v0, pair.v1]

end Novarand.Agreement
