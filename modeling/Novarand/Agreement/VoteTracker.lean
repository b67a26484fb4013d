import Novarand.Agreement.Events

/-!
# The vote tracker — counting the votes of one step

`voteTracker` de-duplicates the votes of one step, counts their weights by proposal-value, treats
the weight of an equivocator as a vote for every value, and emits a threshold event with a bundle
the first time some value goes over the step's threshold.
-/

namespace Novarand.Agreement

structure ProposalVoteCounter where
  count : ℕ := 0
  votes : Dict Address Vote := ∅

structure VoteTracker where
  voters : Dict Address Vote := ∅
  counts : Dict ProposalValue ProposalVoteCounter := ∅
  equivocators : Dict Address EquivocationVote := ∅
  equivocatorsCount : ℕ := 0

/-! ## Bundles -/

/-- Take items from the front until the accumulated weight reaches a quorum. -/
def packQuorum {α : Type} (s : Step) (proto : ConsensusParams) (weight : α → ℕ) :
    ℕ → List α → List α × ℕ
  | packed, [] => ([], packed)
  | packed, a :: as =>
    if reachesQuorum s proto packed then ([], packed)
    else
      let rest := packQuorum s proto weight (packed + weight a) as
      (a :: rest.1, rest.2)

/-- The order in which votes are packed: by weight, then by sender, both descending. -/
def packsBefore (w₁ : ℕ) (a₁ : Address) (w₂ : ℕ) (a₂ : Address) : Prop :=
  w₂ < w₁ ∨ (w₁ = w₂ ∧ a₂ ≤ a₁)

instance (w₁ : ℕ) (a₁ : Address) (w₂ : ℕ) (a₂ : Address) : Decidable (packsBefore w₁ a₁ w₂ a₂) :=
  inferInstanceAs (Decidable (_ ∨ _))

def sortVotes (votes : List Vote) : List Vote :=
  votes.insertionSort fun a b => packsBefore a.cred.weight a.r.sender b.cred.weight b.r.sender

def sortEquivocations (pairs : List EquivocationVote) : List EquivocationVote :=
  pairs.insertionSort fun a b => packsBefore a.cred.weight a.sender b.cred.weight b.sender

def voteAuthenticator (v : Vote) : VoteAuthenticator where
  sender := v.r.sender
  cred := v.u.cred
  sig := v.sig

def equivocationVoteAuthenticator (ev : EquivocationVote) : EquivocationVoteAuthenticator where
  sender := ev.sender
  cred := ev.cred.proof
  sigs := ev.sigs
  proposals := ev.proposals

def makeBundle (proto : ConsensusParams) (targetProposal : ProposalValue) (votes : List Vote)
    (equivocationVotes : List EquivocationVote) : M UnauthenticatedBundle :=
  match votes with
  | [] => throw .log
  | v0 :: _ =>
    if votes.any (fun v => v.r.proposal ≠ targetProposal) then throw .log
    else
      let certVotes := packQuorum v0.r.step proto (fun v : Vote => v.cred.weight) 0 votes
      let certEquiVotes := packQuorum v0.r.step proto
        (fun ev : EquivocationVote => ev.cred.weight) certVotes.2 equivocationVotes
      if reachesQuorum v0.r.step proto certEquiVotes.2 then
        pure { round := v0.r.round, period := v0.r.period, step := v0.r.step
               proposal := targetProposal
               votes := certVotes.1.map voteAuthenticator
               equivocationVotes := certEquiVotes.1.map equivocationVoteAuthenticator }
      else throw .log

namespace VoteTracker

variable (t : VoteTracker)

/-- The weight which vouches for a proposal: direct votes and equivocators. -/
def count (proposal : ProposalValue) : ℕ :=
  (t.counts.getD proposal {}).count + t.equivocatorsCount

def genBundle (proto : ConsensusParams) (proposalVotes : ProposalVoteCounter) :
    M UnauthenticatedBundle :=
  match sortVotes proposalVotes.votes.values with
  | [] => throw .index
  | v :: vs =>
    let packed := packQuorum v.r.step proto (fun v : Vote => v.cred.weight) 0 (v :: vs)
    match packed.1 with
    | [] => throw .index
    | v0 :: _ =>
      let pairs := packQuorum v0.r.step proto (fun ev : EquivocationVote => ev.cred.weight)
        packed.2 (sortEquivocations t.equivocators.values)
      makeBundle proto v0.r.proposal packed.1 pairs.1

/-- The value over the threshold, if there is one; two of them are a panic. -/
def overThreshold (proto : ConsensusParams) (s : Step) : M (Option ProposalValue) :=
  match t.counts.keys.filter fun proposal => reachesQuorum s proto (t.count proposal) with
  | [] => pure none
  | [proposal] => pure (some proposal)
  | _ => throw .log

/-- Record the first vote of a sender. -/
def addVote (v : Vote) : VoteTracker :=
  let proposalVote := t.counts.getD v.r.proposal {}
  { t with
    voters := t.voters.insert v.r.sender v
    counts := t.counts.insert v.r.proposal
      { count := proposalVote.count + v.cred.weight
        votes := proposalVote.votes.insert v.r.sender v } }

/-- Turn the recorded vote `old` of a sender, who now votes `v`, into an equivocation. -/
def addEquivocator (old v : Vote) : VoteTracker :=
  let proposalVote := t.counts.getD old.r.proposal {}
  { voters := t.voters.erase v.r.sender
    counts :=
      -- the sender's is the only vote for this proposal
      if proposalVote.count ≤ old.cred.weight then t.counts.erase old.r.proposal
      else t.counts.insert old.r.proposal
        { count := proposalVote.count - old.cred.weight
          votes := proposalVote.votes.erase v.r.sender }
    equivocators := t.equivocators.insert v.r.sender
      { sender := old.r.sender, round := old.r.round, period := old.r.period, step := old.r.step
        cred := old.cred
        proposals := (old.r.proposal, v.r.proposal)
        sigs := (old.sig, v.sig) }
    equivocatorsCount := t.equivocatorsCount + v.cred.weight }

def thresholdType (s : Step) : ThresholdType :=
  if s = soft then .softThreshold else if s = cert then .certThreshold else .nextThreshold

/-- Emit a threshold event if the vote `v` brought some value over the threshold. -/
def report (cfg : Consensus) (t : VoteTracker) (overBefore : Bool) (v : Vote)
    (proto : ConsensusVersion) : M (VoteTracker × ThresholdEvent) := do
  match ← t.overThreshold (cfg proto) v.r.step with
  | none => pure (t, {})
  | some prop =>
    if overBefore then pure (t, {})
    else
      let b ← t.genBundle (cfg proto) (t.counts.getD prop {})
      pure (t, { t := thresholdType v.r.step, round := v.r.round, period := v.r.period
                 step := v.r.step, proposal := prop, bundle := b, proto := proto })

/-- `voteTracker.handle` of a `voteAccepted` event. -/
def voteAccepted (cfg : Consensus) (t : VoteTracker) (v : Vote) (proto : ConsensusVersion) :
    M (VoteTracker × ThresholdEvent) :=
  match t.equivocators.lookup v.r.sender with
  | some _ => pure (t, {})
  | none => do
    let before ← t.overThreshold (cfg proto) v.r.step
    match t.voters.lookup v.r.sender with
    | none => (t.addVote v).report cfg before.isSome v proto
    | some old =>
      if old.r.proposal = v.r.proposal then pure (t, {})
      else
        let t' := t.addEquivocator old v
        if reachesQuorum v.r.step (cfg proto) t'.equivocatorsCount then throw .log
        else if t'.voters.keys = [] then pure (t', {})
        else t'.report cfg before.isSome v proto

/-- `voteTracker.handle` of a `voteFilterRequest` event: is the vote a duplicate? -/
def voteFilterRequest (rv : RawVote) : Bool :=
  (t.equivocators.lookup rv.sender).isSome ||
    (t.voters.lookup rv.sender).any fun v => rv.proposal = v.r.proposal

/-- `voteTracker.handle` of a `dumpVotesRequest` event. -/
def dumpVotes : List UnauthenticatedVote :=
  t.voters.values.map Vote.u ++ t.equivocators.values.flatMap fun ev => [ev.v0.u, ev.v1.u]

end VoteTracker

/-! ## The contract of the vote tracker -/

structure VoteTrackerContract where
  step : Step := 0
  stepOk : Bool := false
  emitted : Bool := false

namespace VoteTrackerContract

def pre (c : VoteTrackerContract) (s : Step) : M VoteTrackerContract :=
  if s = propose then throw .precondition
  else if c.stepOk then
    if c.step = s then pure c else throw .precondition
  else pure { c with stepOk := true, step := s }

/-- The outgoing event has the type of the incoming step. -/
def typeOk (s : Step) : ThresholdType → Prop
  | .none => True
  | .softThreshold => s = soft
  | .certThreshold => s = cert
  | .nextThreshold => cert < s

instance (s : Step) : (t : ThresholdType) → Decidable (typeOk s t)
  | .none => isTrue trivial
  | .softThreshold => inferInstanceAs (Decidable (s = soft))
  | .certThreshold => inferInstanceAs (Decidable (s = cert))
  | .nextThreshold => inferInstanceAs (Decidable (cert < s))

def post (c : VoteTrackerContract) (s : Step) (out : ThresholdEvent) : M VoteTrackerContract :=
  if ¬ typeOk s out.t then throw .postcondition
  else if out.t ≠ .none ∧ c.emitted then throw .postcondition
  else if (out.t = .softThreshold ∨ out.t = .certThreshold) ∧ out.proposal = bottom then
    throw .postcondition
  else if decide (out.t = .none) ≠ out.bundle.votes.isEmpty then throw .postcondition
  else if out.t ≠ .none ∧ out.proposal = bottom ∧ out.step < next then throw .postcondition
  else pure { c with emitted := c.emitted || out.t ≠ .none }

end VoteTrackerContract

/-! ## The step router -/

structure StepRouter where
  voteTracker : VoteTracker := {}
  voteTrackerContract : VoteTrackerContract := {}

/-- The vote tracker behind its contract. -/
def StepRouter.voteAccepted (cfg : Consensus) (sr : StepRouter) (v : Vote)
    (proto : ConsensusVersion) : M (StepRouter × ThresholdEvent) := do
  let c ← sr.voteTrackerContract.pre v.r.step
  let (t, out) ← sr.voteTracker.voteAccepted cfg v proto
  let c ← c.post v.r.step out
  pure ({ voteTracker := t, voteTrackerContract := c }, out)

end Novarand.Agreement
