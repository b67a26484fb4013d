import Novarand.Agreement.Thresholds

/-!
# Verifying a bundle

`unauthenticatedBundle.verifyAsync` checks the size of a bundle and that its senders differ, has
every vote and every pair verified, adds up the weights of the answers as they come, and checks
that they are a quorum. A bundle which a vote tracker generates passes these checks, and its votes,
delivered to an empty tracker in any order, emit the same threshold again.

A vote is verified against the ledger by its signature and its credential (`VoteVerifier`).
-/

namespace Novarand.Agreement

open List

structure UnauthenticatedEquivocationVote where
  sender : Address
  round : Round
  period : Period
  step : Step
  cred : ℕ
  proposals : ProposalValue × ProposalValue
  sigs : Signature × Signature

/-- What the verification of votes takes from the ledger and from cryptography. -/
structure VoteVerifier where
  /-- The sender is a member of the committee, its voting key is valid in the round, and the
  signature is the key's signature of the vote. -/
  signed : RawVote → Signature → Bool
  /-- `UnauthenticatedCredential.Verify` for the committee of a round, period and step. -/
  credential : Address → Round → Period → Step → ℕ → Option Credential

def UnauthenticatedVote.verify (vf : VoteVerifier) (uv : UnauthenticatedVote) : Option Vote :=
  let rv := uv.r
  if rv.step = propose ∧ rv.period = rv.proposal.originalPeriod ∧
      rv.sender ≠ rv.proposal.originalProposer then none
  else if rv.step = propose ∧ rv.period < rv.proposal.originalPeriod then none
  else if rv.step ≤ cert ∧ rv.proposal = bottom then none
  else if ¬vf.signed rv uv.sig then none
  else (vf.credential rv.sender rv.round rv.period rv.step uv.cred).map fun cred =>
    { r := rv, cred := cred, sig := uv.sig }

namespace UnauthenticatedEquivocationVote

def uv0 (pair : UnauthenticatedEquivocationVote) : UnauthenticatedVote where
  r := { sender := pair.sender, round := pair.round, period := pair.period, step := pair.step,
         proposal := pair.proposals.1 }
  cred := pair.cred
  sig := pair.sigs.1

def uv1 (pair : UnauthenticatedEquivocationVote) : UnauthenticatedVote where
  r := { sender := pair.sender, round := pair.round, period := pair.period, step := pair.step,
         proposal := pair.proposals.2 }
  cred := pair.cred
  sig := pair.sigs.2

def verify (vf : VoteVerifier) (pair : UnauthenticatedEquivocationVote) :
    Option EquivocationVote := do
  if pair.proposals.1 = pair.proposals.2 then none
  let v0 ← pair.uv0.verify vf
  let _ ← pair.uv1.verify vf
  return { sender := pair.sender, round := pair.round, period := pair.period, step := pair.step
           cred := v0.cred, proposals := pair.proposals, sigs := pair.sigs }

end UnauthenticatedEquivocationVote

open UnauthenticatedEquivocationVote

/-! ## `verifyAsync` -/

inductive BundleError
  | propose
  | noParams (round : Round)
  | tooLarge (votes equivocationVotes threshold : ℕ)
  | duplicateVote (v : VoteAuthenticator)
  | duplicatePair (ev : EquivocationVoteAuthenticator)
  | invalid
  | notEnough (weight : ℕ)
deriving DecidableEq

def paramsRound (r : Round) : Round := r - 2

/-- The answer to a verification request; `none` is an error. -/
abbrev Response := Option (Vote ⊕ EquivocationVote)

namespace UnauthenticatedBundle

def requestVote (b : UnauthenticatedBundle) (auth : VoteAuthenticator) : UnauthenticatedVote where
  r := { sender := auth.sender, round := b.round, period := b.period, step := b.step,
         proposal := b.proposal }
  cred := auth.cred
  sig := auth.sig

def requestPair (b : UnauthenticatedBundle) (auth : EquivocationVoteAuthenticator) :
    UnauthenticatedEquivocationVote where
  sender := auth.sender
  round := b.round
  period := b.period
  step := b.step
  cred := auth.cred
  proposals := auth.proposals
  sigs := auth.sigs

/-- The answers of the vote verifier, in the order of the requests. -/
def responses (vf : VoteVerifier) (b : UnauthenticatedBundle) : List Response :=
  (b.votes.map fun auth => ((b.requestVote auth).verify vf).map Sum.inl) ++
    b.equivocationVotes.map fun auth => ((b.requestPair auth).verify vf).map Sum.inr

/-- Mark the senders of the votes; the second vote of a sender is an error. -/
def checkVotes (voters : List Address) : List VoteAuthenticator → Except BundleError (List Address)
  | [] => pure voters
  | v :: vs => if v.sender ∈ voters then throw (.duplicateVote v) else checkVotes (v.sender :: voters) vs

def checkPairs (voters : List Address) :
    List EquivocationVoteAuthenticator → Except BundleError (List Address)
  | [] => pure voters
  | ev :: evs =>
    if ev.sender ∈ voters then throw (.duplicatePair ev) else checkPairs (ev.sender :: voters) evs

/-- Read the answers as they come. -/
def collect (weight : ℕ) (votes : List Vote) (eqVotes : List EquivocationVote) :
    List Response → Except BundleError (ℕ × List Vote × List EquivocationVote)
  | [] => pure (weight, votes, eqVotes)
  | none :: _ => throw .invalid
  | some (.inl v) :: rs => collect (weight + v.cred.weight) (votes ++ [v]) eqVotes rs
  | some (.inr ev) :: rs => collect (weight + ev.cred.weight) votes (eqVotes ++ [ev]) rs

/-- `verifyAsync`, given the consensus parameters the ledger has for a round and the answers of the
vote verifier in the order in which they arrive. -/
def verifyAsync (consensusParams : Round → Option ConsensusParams) (b : UnauthenticatedBundle)
    (results : List Response) : Except BundleError Bundle :=
  if b.step = propose then throw .propose
  else match consensusParams (paramsRound b.round) with
    | none => throw (.noParams (paramsRound b.round))
    | some proto =>
      let numVotes := b.votes.length
      let numEquivocationVotes := b.equivocationVotes.length
      if threshold b.step proto < numVotes ∨ threshold b.step proto < numEquivocationVotes ∨
          threshold b.step proto < numVotes + numEquivocationVotes then
        throw (.tooLarge numVotes numEquivocationVotes (threshold b.step proto))
      else do
        let voters ← checkVotes [] b.votes
        let _ ← checkPairs voters b.equivocationVotes
        let (weight, votes, eqVotes) ← collect 0 [] [] results
        if reachesQuorum b.step proto weight then
          pure { u := b, votes := votes, equivocationVotes := eqVotes }
        else throw (.notEnough weight)

end UnauthenticatedBundle

/-! ## Verified votes verify again -/

variable {vf : VoteVerifier} {w : Address → ℕ} {r : Round} {p : Period} {s : Step}
  {x y : ProposalValue} {v old : Vote}

/-- A vote as the verifier returned it. -/
def Vote.VerifiedBy (vf : VoteVerifier) (v : Vote) : Prop := v.u.verify vf = some v

instance (vf : VoteVerifier) (v : Vote) : Decidable (v.VerifiedBy vf) :=
  inferInstanceAs (Decidable (_ = _))

/-- The checks of a vote which look at its contents and its signature. -/
def Signed (vf : VoteVerifier) (rv : RawVote) (sig : Signature) : Prop :=
  ¬(rv.step = propose ∧ rv.period = rv.proposal.originalPeriod ∧
      rv.sender ≠ rv.proposal.originalProposer) ∧
    ¬(rv.step = propose ∧ rv.period < rv.proposal.originalPeriod) ∧
    ¬(rv.step ≤ cert ∧ rv.proposal = bottom) ∧ vf.signed rv sig = true

theorem verify_eq_some {uv : UnauthenticatedVote} :
    uv.verify vf = some v ↔ Signed vf uv.r uv.sig ∧
      vf.credential uv.r.sender uv.r.round uv.r.period uv.r.step uv.cred = some v.cred ∧
      v.r = uv.r ∧ v.sig = uv.sig := by
  obtain ⟨_, cred, sig⟩ := v
  unfold UnauthenticatedVote.verify Signed
  simp only
  split_ifs with h1 h2 h3 h4
  · simp [h1]
  · simp [h2]
  · simp [h3]
  · simp only [h1, h2, h3, h4, not_false_eq_true, true_and, and_self, Option.map_eq_some_iff,
      Vote.mk.injEq]
    constructor
    · rintro ⟨c, hc, rfl, rfl, rfl⟩
      exact ⟨hc, rfl, rfl⟩
    · rintro ⟨hc, rfl, rfl⟩
      exact ⟨cred, hc, rfl, rfl, rfl⟩
  · simp [h4]

variable {b : UnauthenticatedBundle}

theorem requestVote_verify (hv : VerifiedAt w b.round b.period b.step v) (hf : v.VerifiedBy vf)
    (hx : v.r.proposal = b.proposal) :
    (b.requestVote (voteAuthenticator v)).verify vf = some v := by
  have hr : b.requestVote (voteAuthenticator v) = v.u := by
    obtain ⟨⟨_, round, period, step, proposal⟩, _, _⟩ := v
    obtain ⟨h1, h2, h3, -, -⟩ := hv
    subst h1 h2 h3 hx
    rfl
  rw [hr]
  exact hf

/-- The second vote of a pair is verified with the credential of the first. -/
theorem requestPair_verify (ho : VerifiedAt w b.round b.period b.step old)
    (hv : VerifiedAt w b.round b.period b.step v) (hf0 : old.VerifiedBy vf) (hf1 : v.VerifiedBy vf)
    (hs : old.r.sender = v.r.sender) (hn : old.r.proposal ≠ v.r.proposal) :
    (b.requestPair (equivocationVoteAuthenticator (equivocationPair old v))).verify vf =
      some (equivocationPair old v) := by
  obtain ⟨_, hc0, -, -⟩ := verify_eq_some.mp hf0
  obtain ⟨hs1, -, -, -⟩ := verify_eq_some.mp hf1
  have hr0 : (b.requestPair (equivocationVoteAuthenticator (equivocationPair old v))).uv0 =
      old.u := by
    simp [UnauthenticatedBundle.requestPair, uv0, equivocationVoteAuthenticator, equivocationPair,
      Vote.u, ← ho.round, ← ho.period, ← ho.step]
  have hr1 : (b.requestPair (equivocationVoteAuthenticator (equivocationPair old v))).uv1 =
      { r := v.r, cred := old.cred.proof, sig := v.sig } := by
    simp [UnauthenticatedBundle.requestPair, uv1, equivocationVoteAuthenticator, equivocationPair,
      ← hv.round, ← hv.period, ← hv.step, hs]
  have hv1 : ({ r := v.r, cred := old.cred.proof, sig := v.sig } : UnauthenticatedVote).verify vf =
      some { r := v.r, cred := old.cred, sig := v.sig } := by
    refine verify_eq_some.mpr ⟨hs1, ?_, rfl, rfl⟩
    simpa only [Vote.u, ho.round, ho.period, ho.step, hv.round, hv.period, hv.step, hs] using hc0
  have hv0 : old.u.verify vf = some old := hf0
  simp only [verify, hr0, hr1, hv0, hv1]
  simp [UnauthenticatedBundle.requestPair, equivocationVoteAuthenticator, equivocationPair, hn,
    ho.round, ho.period, ho.step]

/-! ## A generated bundle passes -/

variable {rest voters : List Address} {a : Address}

namespace UnauthenticatedBundle

theorem nodup_marked (h : (voters ++ a :: rest).Nodup) :
    a ∉ voters ∧ (a :: voters ++ rest).Nodup := by
  have hn := perm_middle.nodup_iff.mp h
  exact ⟨fun hm => (nodup_cons.mp hn).1 (mem_append_left _ hm), hn⟩

theorem checkVotes_ok {auths : List VoteAuthenticator}
    (h : (voters ++ auths.map VoteAuthenticator.sender).Nodup) :
    ∃ voters', checkVotes voters auths = .ok voters' ∧
      voters'.Perm (voters ++ auths.map VoteAuthenticator.sender) := by
  induction auths generalizing voters with
  | nil => exact ⟨voters, rfl, by simp⟩
  | cons v _ ih =>
    obtain ⟨hn, hd⟩ := nodup_marked h
    obtain ⟨voters', ho, hp⟩ := ih hd
    exact ⟨voters', by rw [checkVotes, if_neg hn, ho], hp.trans perm_middle.symm⟩

theorem checkPairs_ok {auths : List EquivocationVoteAuthenticator}
    (h : (voters ++ auths.map EquivocationVoteAuthenticator.sender).Nodup) :
    ∃ voters', checkPairs voters auths = .ok voters' := by
  induction auths generalizing voters with
  | nil => exact ⟨voters, rfl⟩
  | cons _ _ ih =>
    obtain ⟨hn, hd⟩ := nodup_marked h
    obtain ⟨voters', ho⟩ := ih hd
    exact ⟨voters', by rw [checkPairs, if_neg hn, ho]⟩

/-- The weight an answer adds. -/
def answerWeight : Vote ⊕ EquivocationVote → ℕ
  | .inl v => v.cred.weight
  | .inr ev => ev.cred.weight

theorem collect_some (weight : ℕ) (votes : List Vote) (eqVotes : List EquivocationVote)
    (xs : List (Vote ⊕ EquivocationVote)) :
    collect weight votes eqVotes (xs.map some) = .ok (weight + (xs.map answerWeight).sum,
      votes ++ xs.filterMap Sum.getLeft?, eqVotes ++ xs.filterMap Sum.getRight?) := by
  induction xs generalizing weight votes eqVotes with
  | nil => simp [collect, pure, Except.pure]
  | cons a xs ih =>
    cases a with
    | inl | inr => simp [collect, ih, answerWeight, Nat.add_assoc, filterMap_cons]

end UnauthenticatedBundle

open UnauthenticatedBundle

namespace VoteTracker

open Novarand.Tally

variable {P : Vote → Prop} {B : Finset (Address × ProposalValue)} {t : VoteTracker}
  {votes : List Vote} {pairs : List EquivocationVote} {proto : ConsensusParams}

/-- The bundle of the given votes and pairs. -/
def bundleOf (r : Round) (p : Period) (s : Step) (x : ProposalValue) (votes : List Vote)
    (pairs : List EquivocationVote) : UnauthenticatedBundle where
  round := r
  period := p
  step := s
  proposal := x
  votes := votes.map voteAuthenticator
  equivocationVotes := pairs.map equivocationVoteAuthenticator

theorem Packs.senders_nodup (hp : Packs proto s t x votes pairs) (h : Tracks w P B t) :
    (votes.map (fun v => v.r.sender) ++ pairs.map fun e => e.sender).Nodup := by
  refine nodup_append.mpr ⟨hp.nodup, hp.nodupPairs, fun a ha b hb h1 => ?_⟩
  obtain ⟨v, hv, rfl⟩ := mem_map.mp ha
  obtain ⟨e, he, rfl⟩ := mem_map.mp hb
  refine h.disjoint v.r.sender ⟨?_, ?_⟩
  · rw [← AList.lookup_isSome, (hp.ofVoters v hv).1]
    rfl
  · rw [← AList.lookup_isSome, h1, hp.ofEquivocators e he]
    rfl

section

variable (hp : Packs proto s t x votes pairs) (h : Tracks w P B t)
  (hP : ∀ v, P v → VerifiedAt w r p s v ∧ v.VerifiedBy vf)
include hp h hP

/-- The vote verifier accepts every vote and pair of the bundle. -/
theorem Packs.responses_eq :
    (bundleOf r p s x votes pairs).responses vf =
      (votes.map Sum.inl ++ pairs.map Sum.inr).map some := by
  rw [responses, map_append]
  congr 1
  · rw [show (bundleOf r p s x votes pairs).votes = votes.map voteAuthenticator from rfl,
      map_map, map_map]
    refine map_congr_left fun v hv => ?_
    obtain ⟨ht, hx⟩ := hp.ofVoters v hv
    obtain ⟨ha, hf⟩ := hP v (h.voter ht).1
    have hk := requestVote_verify (b := bundleOf r p s x votes pairs) ha hf hx
    simp [hk]
  · rw [show (bundleOf r p s x votes pairs).equivocationVotes =
      pairs.map equivocationVoteAuthenticator from rfl, map_map, map_map]
    refine map_congr_left fun e he => ?_
    obtain ⟨-, old, v, ho, hv, hs0, hs1, hn, rfl⟩ := h.pair (hp.ofEquivocators e he)
    obtain ⟨ha0, hv0⟩ := hP old ho
    obtain ⟨ha1, hv1⟩ := hP v hv
    have hk := requestPair_verify (b := bundleOf r p s x votes pairs) ha0 ha1 hv0 hv1
      (hs0.trans hs1.symm) hn
    simp [hk]

/-- **A packed quorum passes the checks of `verifyAsync`**, in whatever order the answers of the
vote verifier arrive. -/
theorem Packs.verifyAsync_ok {consensusParams : Round → Option ConsensusParams}
    (ha : consensusParams (paramsRound r) = some proto) {results : List Response}
    (hr : results.Perm ((bundleOf r p s x votes pairs).responses vf)) :
    ∃ b, (bundleOf r p s x votes pairs).verifyAsync consensusParams results = .ok b ∧
      b.votes.Perm votes ∧ b.equivocationVotes.Perm pairs := by
  have hs : s ≠ propose := (reachesQuorum_iff.mp hp.quorum).1
  have hz := hp.size
  have hn := hp.senders_nodup h
  obtain ⟨vt, hv, h1⟩ := @checkVotes_ok []
    (votes.map voteAuthenticator) (by
      rw [map_map]
      exact hp.nodup)
  have hn' : (vt ++ (pairs.map equivocationVoteAuthenticator).map
      EquivocationVoteAuthenticator.sender).Nodup := by
    rw [map_map] at h1
    rw [map_map]
    exact (h1.append_right _).nodup_iff.mpr hn
  obtain ⟨_, h2⟩ := checkPairs_ok hn'
  rw [hp.responses_eq h hP] at hr
  obtain ⟨xs, rfl, hx⟩ : ∃ xs : List (Vote ⊕ EquivocationVote), results = xs.map some ∧
      xs.Perm (votes.map Sum.inl ++ pairs.map Sum.inr) := by
    have hm := eq_map_comp_perm (some : Vote ⊕ EquivocationVote → Response)
    have he := congrFun (congrFun hm results) (votes.map Sum.inl ++ pairs.map Sum.inr)
    exact he.mpr hr
  have hw : (xs.map answerWeight).sum =
      (votes.map fun v => v.cred.weight).sum + (pairs.map fun e => e.cred.weight).sum := by
    rw [(hx.map _).sum_eq, map_append, map_map, map_map, sum_append]
    rfl
  have hc := collect_some 0 [] [] xs
  rw [Nat.zero_add, hw] at hc
  have hl : ¬(threshold s proto < votes.length ∨ threshold s proto < pairs.length ∨
      threshold s proto < votes.length + pairs.length) := by omega
  refine ⟨{ u := bundleOf r p s x votes pairs, votes := xs.filterMap Sum.getLeft?
            equivocationVotes := xs.filterMap Sum.getRight? }, ?_, ?_, ?_⟩
  · simp only [verifyAsync, bundleOf, if_neg hs, ha, length_map,
      if_neg hl, hv, h2, hc, bind, Except.bind]
    exact if_pos hp.quorum
  · have := hx.filterMap Sum.getLeft?
    simpa [filterMap_map, Function.comp_def] using this
  · have := hx.filterMap Sum.getRight?
    simpa [filterMap_map, Function.comp_def] using this

end

/-! ## Its votes reach the threshold again -/

/-- The votes of the bundle, pairs split up. -/
def playedVotes (votes : List Vote) (pairs : List EquivocationVote) : List Vote :=
  votes ++ pairs.flatMap fun pair => [pair.v0, pair.v1]

theorem mem_playedVotes : v ∈ playedVotes votes pairs ↔
    v ∈ votes ∨ ∃ e ∈ pairs, v = e.v0 ∨ v = e.v1 := by simp [playedVotes]

/-- The two votes of a recorded pair are votes of its step. -/
theorem Tracks.pair_verified (h : Tracks w P B t) (hP : ∀ v, P v → VerifiedAt w r p s v)
    {e : EquivocationVote} (he : t.equivocators.lookup e.sender = some e) :
    VerifiedAt w r p s e.v0 ∧ VerifiedAt w r p s e.v1 ∧ e.proposals.1 ≠ e.proposals.2 := by
  obtain ⟨-, old, v, ho, -, -, -, hn, rfl⟩ := h.pair he
  have ha := hP old ho
  exact ⟨{ ha with }, { ha with }, hn⟩

section

variable (hp : Packs proto s t x votes pairs) (h : Tracks w P B t)
  (hP : ∀ v, P v → VerifiedAt w r p s v)
include hp h hP

theorem Packs.played_verified : ∀ v ∈ playedVotes votes pairs, VerifiedAt w r p s v := by
  intro v hv
  rcases mem_playedVotes.mp hv with hv | ⟨e, he, rfl | rfl⟩
  · exact hP v (h.voter (hp.ofVoters v hv).1).1
  · exact (h.pair_verified hP (hp.ofEquivocators e he)).1
  · exact (h.pair_verified hP (hp.ofEquivocators e he)).2.1

/-- The senders of the pairs equivocate in the bundle, and nobody else does. -/
theorem Packs.equivocates_iff :
    Equivocates (ballots (playedVotes votes pairs)) a ↔ ∃ e ∈ pairs, e.sender = a := by
  constructor
  · intro hq
    obtain ⟨y, z, hy, hz, hn⟩ := Tally.equivocates_iff.mp hq
    obtain ⟨v, hv, rfl, rfl⟩ := mem_ballots.mp hy
    obtain ⟨u, hu, hs, rfl⟩ := mem_ballots.mp hz
    rcases mem_playedVotes.mp hv with hv | ⟨e, he, rfl | rfl⟩
    · rcases mem_playedVotes.mp hu with hu | ⟨e, he, rfl | rfl⟩
      · exact absurd ((hp.ofVoters v hv).2.trans (hp.ofVoters u hu).2.symm) hn
      · exact ⟨e, he, hs⟩
      · exact ⟨e, he, hs⟩
    · exact ⟨e, he, rfl⟩
    · exact ⟨e, he, rfl⟩
  · rintro ⟨e, he, rfl⟩
    refine Tally.equivocates_iff.mpr ⟨e.proposals.1, e.proposals.2, mem_ballots.mpr
      ⟨e.v0, mem_playedVotes.mpr (.inr ⟨e, he, .inl rfl⟩), rfl, rfl⟩, mem_ballots.mpr
      ⟨e.v1, mem_playedVotes.mpr (.inr ⟨e, he, .inr rfl⟩), rfl, rfl⟩,
      (h.pair_verified hP (hp.ofEquivocators e he)).2.2⟩

theorem Packs.mem_supporters_iff :
    a ∈ supporters (ballots (playedVotes votes pairs)) y ↔
      y = x ∧ ∃ v ∈ votes, v.r.sender = a := by
  rw [mem_supporters, hp.equivocates_iff h hP]
  constructor
  · rintro ⟨hy, hn⟩
    obtain ⟨v, hv, rfl, rfl⟩ := mem_ballots.mp hy
    rcases mem_playedVotes.mp hv with hv | ⟨e, he, rfl | rfl⟩
    · exact ⟨(hp.ofVoters v hv).2, v, hv, rfl⟩
    · exact absurd ⟨e, he, rfl⟩ hn
    · exact absurd ⟨e, he, rfl⟩ hn
  · rintro ⟨rfl, v, hv, rfl⟩
    refine ⟨mem_ballots.mpr ⟨v, mem_playedVotes.mpr (.inl hv), rfl, (hp.ofVoters v hv).2⟩, ?_⟩
    rintro ⟨e, he, hs⟩
    have hd := (nodup_append.mp (hp.senders_nodup h)).2.2
    exact hd v.r.sender (mem_map_of_mem hv) e.sender (mem_map_of_mem he) hs.symm

theorem Packs.sum_supporters :
    ∑ a ∈ supporters (ballots (playedVotes votes pairs)) x, w a =
      (votes.map fun v => v.cred.weight).sum := by
  have hs : supporters (ballots (playedVotes votes pairs)) x =
      (votes.map fun v => v.r.sender).toFinset := by
    ext a
    simp [hp.mem_supporters_iff h hP]
  rw [hs, sum_toFinset w hp.nodup, map_map]
  refine congrArg List.sum (map_congr_left fun v hv => ?_)
  exact (hP v (h.voter (hp.ofVoters v hv).1).1).weight.symm

theorem Packs.sum_equivocators :
    ∑ a ∈ Tally.equivocators (ballots (playedVotes votes pairs)), w a =
      (pairs.map fun e => e.cred.weight).sum := by
  have hs : Tally.equivocators (ballots (playedVotes votes pairs)) =
      (pairs.map fun e => e.sender).toFinset := by
    ext a
    simp [mem_equivocators, hp.equivocates_iff h hP]
  rw [hs, sum_toFinset w hp.nodupPairs, map_map]
  refine congrArg List.sum (map_congr_left fun e he => ?_)
  exact ((h.pair_verified hP (hp.ofEquivocators e he)).1).weight.symm

/-- The pairs of the bundle weigh no more than the tracker's equivocators. -/
theorem Packs.pairs_le : (pairs.map fun e => e.cred.weight).sum ≤ t.equivocatorsCount := by
  rw [← hp.sum_equivocators h hP, h.equivocatorsCount]
  refine Finset.sum_le_sum_of_subset fun a ha => ?_
  obtain ⟨e, he, rfl⟩ := (hp.equivocates_iff h hP).mp (mem_equivocators.mp ha)
  exact mem_equivocators.mpr (h.pair (hp.ofEquivocators e he)).1

/-- Of the votes of the bundle only the value `x` has a quorum. -/
theorem Packs.winner_iff (hc : Calm proto s t) (h0 : ¬reachesQuorum s proto 0 = true)
    (y : ProposalValue) :
    reachesQuorum s proto (tally w (ballots (playedVotes votes pairs)) y) = true ↔ y = x := by
  constructor
  · intro hq
    by_contra hne
    have he : supporters (ballots (playedVotes votes pairs)) y = ∅ :=
      Finset.eq_empty_iff_forall_notMem.mpr fun a ha =>
        hne ((hp.mem_supporters_iff h hP).mp ha).1
    rw [tally, he, Finset.sum_empty, Nat.zero_add, hp.sum_equivocators h hP] at hq
    have hq' := reachesQuorum_mono hq (hp.pairs_le h hP)
    rcases hc with hz | hn
    · exact h0 (hz ▸ hq')
    · exact hn hq'
  · rintro rfl
    rw [tally, hp.sum_supporters h hP, hp.sum_equivocators h hP]
    exact hp.quorum

end

/-- **A generated bundle is good.** In every state of a tracker which has emitted a threshold, the
bundle generated for its value passes the checks of `verifyAsync`, in whatever order the votes are
verified, and the verified votes and pairs, delivered in any order to an empty tracker, emit one
threshold, for the same value. -/
theorem genBundle_verifies (cfg : Consensus) (proto : ConsensusVersion) (vf : VoteVerifier)
    (consensusParams : Round → Option ConsensusParams) {w : Address → ℕ} {r : Round} {p : Period}
    {s : Step} (hparams : consensusParams (paramsRound r) = some (cfg proto)) {votes : List Vote}
    (hv : ∀ v ∈ votes, VerifiedAt w r p s v ∧ v.VerifiedBy vf) {t : VoteTracker}
    {es : List ThresholdEvent} (hrun : run cfg proto {} votes = .ok (t, es))
    {e : ThresholdEvent} (he : e ∈ es) :
    ∃ b, t.genBundle (cfg proto) (t.counts.getD e.proposal {}) = .ok b ∧
      ∀ results, results.Perm (b.responses vf) →
        ∃ bundle, b.verifyAsync consensusParams results = .ok bundle ∧
          ∀ delivered, delivered.Perm bundle.allVotes → ∃ t' e',
            run cfg proto {} delivered = .ok (t', [e']) ∧
              e'.proposal = e.proposal := by
  have hP : ∀ v, (VerifiedAt w r p s v ∧ v.VerifiedBy vf) → VerifiedAt w r p s v := fun _ h => h.1
  have hr := ran_of_run hP hv hrun
  obtain ⟨hk, hq, h0⟩ := hr.reached e he
  obtain ⟨pc, pr, hc, hg⟩ := hr.tracks.genBundle_ok hP hk hq h0
  refine ⟨_, hg, fun results h3 => ?_⟩
  obtain ⟨bundle, hok, ht, ha⟩ :=
    hc.verifyAsync_ok hr.tracks (fun _ h => h) hparams h3
  refine ⟨bundle, hok, fun delivered hd => ?_⟩
  -- the delivered votes are those of the packed quorum
  have h1 : delivered.Perm (playedVotes pc pr) :=
    hd.trans (ht.append (ha.flatMap_right _))
  have h2 : ∀ v ∈ delivered, VerifiedAt w r p s v := fun v hm =>
    hc.played_verified hr.tracks hP v (h1.subset hm)
  have hb : ballots delivered = ballots (playedVotes pc pr) := by
    ext ⟨a, x⟩
    simp [mem_ballots, h1.mem_iff]
  have hw := hc.winner_iff hr.tracks hP hr.calm h0
  rw [← hb] at hw
  have ho : OneWinner (cfg proto) s w (ballots delivered) := fun x y hx hy =>
    ((hw x).mp hx).trans ((hw y).mp hy).symm
  obtain ⟨⟨t', es'⟩, hu'⟩ := tracks_empty.run_ok (fun _ h => h) h2
    (show OneWinner (cfg proto) s w (∅ ∪ ballots delivered) by rwa [Finset.empty_union])
  have hr' := ran_of_run (fun _ h => h) h2 hu'
  have hn := (hr'.emits_iff ho).mpr ⟨e.proposal, (hw _).mpr rfl⟩
  obtain ⟨e', rfl⟩ : ∃ e', es' = [e'] := by
    have := hr'.once
    rw [← length_eq_one_iff]
    have := length_pos_iff_ne_nil.mpr hn
    omega
  refine ⟨t', e', hu', (hw _).mp ?_⟩
  rw [← hr'.tracks.count_eq]
  exact (hr'.reached e' mem_cons_self).2.1

/-- A verifier which takes every signature and weighs a sender by its address. -/
def lenientVerifier : VoteVerifier where
  signed _ _ := true
  credential a _ _ _ proof := some { proof := proof, weight := a }

/-- The bundle of the equivocating run verifies, and its votes reach the threshold again. -/
theorem genBundle_verifies_split :
    ∃ (t : VoteTracker) (e : ProposalValue) (b : UnauthenticatedBundle),
    t.genBundle (threeConsensus 0) (t.counts.getD e {}) = .ok b ∧ b.equivocationVotes ≠ [] ∧
      ∃ bundle, b.verifyAsync (fun _ => some (threeConsensus 0)) (b.responses lenientVerifier) =
          .ok bundle ∧
        ∃ t' e', run threeConsensus 0 {} bundle.allVotes.reverse = .ok (t', [e']) ∧
          e'.proposal = e := by
  have hv : ∀ v ∈ splitVotes, VerifiedAt id 0 0 soft v ∧ v.VerifiedBy lenientVerifier := by
    intro v hv
    simp only [splitVotes, mem_cons, not_mem_nil, or_false] at hv
    rcases hv with rfl | rfl | rfl <;> exact ⟨⟨rfl, rfl, rfl, rfl, by decide⟩, by decide⟩
  have hc : (run threeConsensus 0 {} splitVotes).toOption.map (fun res =>
      res.2.length == 1 && res.2.all fun e =>
        (res.1.genBundle (threeConsensus 0) (res.1.counts.getD e.proposal {})).toOption.any
          fun b => b.equivocationVotes ≠ []) = some true := by decide +kernel
  obtain ⟨⟨t, es⟩, hr, he⟩ := exists_ok_of_toOption hc
  rw [Bool.and_eq_true, beq_iff_eq, length_eq_one_iff] at he
  obtain ⟨⟨e, rfl⟩, he⟩ := he
  obtain ⟨b, hg, h1⟩ := genBundle_verifies threeConsensus 0 lenientVerifier
    (fun _ => some (threeConsensus 0)) rfl hv hr mem_cons_self
  obtain ⟨bundle, ho, hd⟩ := h1 _ (List.Perm.refl _)
  simp only [all_cons, all_nil, Bool.and_true, hg, Except.toOption, Option.any_some,
    decide_eq_true_eq] at he
  exact ⟨t, e.proposal, b, hg, he, bundle, ho, hd _ (reverse_perm _)⟩

end VoteTracker

end Novarand.Agreement
