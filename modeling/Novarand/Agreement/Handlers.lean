import Novarand.Agreement.Simulation

/-!
# One event of the player is a run of the flat machine

The message and timeout handlers, one after the other, and the theorem about `submitTop`: from
related states, an event that is handled without a panic is a run of the flat machine with the same
actions, which ends in related states with nothing pending.
-/

namespace Novarand.Agreement

open Flat List Machine RootRouter

variable {cfg : Consensus} {D : State → Input → Prop} {m m' m1 : Machine} {s s' : State}
  {acts : List Action}

/-! ## Votes and bundles -/

variable {pl : Player} {rv : RawVote} {rt rt' rt1 : RootRouter} {fuel entropy : ℕ}
  {as : List Action} {e : MessageEvent} {ef ef1 : VoteResult}

theorem voteFresh_round (h : voteFresh pl rv = .ok ()) :
    rv.round = pl.round ∨ rv.round = pl.round + 1 ∧ rv.period = 0 := by
  unfold voteFresh at h
  split_ifs at h with h1 h2 h3 <;> lia

theorem RouterRel.filterVote {rounds : Round → RoundState} {err : SerErr}
    (h : RouterRel pl rt rounds) (hf : rt.filterVote pl rv = .ok (rt', err)) :
    RouterRel pl rt' rounds ∧ (err = .nil → voteFresh pl rv = .ok ()) := by
  unfold RootRouter.filterVote at hf
  cases h1 : voteFresh pl rv with
  | error e =>
    simp only [h1, pure_pair] at hf
    obtain ⟨rfl, rfl⟩ := hf
    exact ⟨h, by simp⟩
  | ok u =>
    simp only [h1, bind_ok, Prod.exists] at hf
    obtain ⟨_, _, hq, hf⟩ := hf
    have hr := (h.query hq (Q := fun _ => True) fun rr rr' h2 hf => ⟨h2.stepQuery hf, trivial⟩).1
    split_ifs at hf <;>
    · simp only [pure_pair] at hf
      rw [← hf.1]
      exact ⟨hr, fun _ => rfl⟩

/-- What the player sees of a counted vote. -/
def Reported (s s₁ : State) (v : Vote) (out : ThresholdEvent) : Prop :=
  (out.t = .none ∧ s₁.pending = s.pending) ∨
    (out.t ≠ .none ∧ out.round = v.r.round ∧
      s₁.pending = if v.r.round = s.player.round then some out else s.pending)

variable {out te : ThresholdEvent} {proto : ConsensusVersion}

/-- Counting a vote is one move of the flat machine. -/
theorem Rel.voteAccepted {v : Vote} (h : Rel m s) (hw : Wf s) (hD : D s (.vote v proto))
    (hv : v.r.round = s.player.round ∨ v.r.round = s.player.round + 1 ∧ v.r.period = 0)
    (hf : m.router.voteAccepted cfg m.player v proto = .ok (rt, out)) :
    ∃ s1, Move cfg D s [.saw v proto] s1 ∧ Rel { m with router := rt } s1 ∧
      s1.player = s.player ∧ Reported s s1 v out := by
  rw [h.player] at hf
  obtain ⟨_, _, _, h3, ha, hb⟩ := h.router.toRound hf
  have hz : s.player.round < v.r.round → v.r.period = 0 := by
    intro hl
    rcases hv with hv | hv
    · exact absurd (hv ▸ hl) (lt_irrefl _)
    · exact hv.2
  obtain ⟨hk, sr, te, hc, h4⟩ := h3.voteAccepted hz ha
  have hd : Deliverable s.player v.r := hv.imp_left fun hr => ⟨hr, hk⟩
  rcases h4 with ⟨hs, rfl, h1⟩ | ⟨h2, h5, rfl, h1⟩
  · exact ⟨_, .count s v proto sr te hD hd hc hs, ⟨h.player, hb _ h1⟩, rfl,
      .inl ⟨rfl, rfl⟩⟩
  · have hm : Move cfg D s [.saw v proto] _ := .reach s v proto sr out hD hd hc h2 h5
    refine ⟨_, hm, ⟨h.player, hb _ h1⟩, rfl, .inr ⟨h2, ?_, rfl⟩⟩
    obtain ⟨-, ht, -⟩ := StepRouter.voteAccepted_ok hc
    rcases (VoteTracker.voteAccepted_holds (hw.held _ _ _) ⟨rfl, rfl, rfl⟩ ht).2 with
      rfl | ⟨h6, -⟩
    · exact absurd rfl h2
    · exact h6.round

/-- The threshold an answer of the vote machines reports, if any, is the pending one. -/
def VoteResult.Reports (pend : Option ThresholdEvent) : VoteResult → Prop
  | .observed te => te.t = .none ∧ pend = none ∨ te.t ≠ .none ∧ pend = some te
  | _ => pend = none

/-- Playing the votes of a bundle of the current round. -/
theorem Rel.playVotes {votes : List Vote} (h : Rel m s) (hw : Wf s)
    (hD : ∀ s', ∀ v ∈ votes, D s' (.vote v proto)) (hn : ∀ v ∈ votes, v.r.round = s.player.round)
    (hpe : (VoteResult.observed te).Reports s.pending)
    (hf : playVotes cfg m.player proto m.router votes te = .ok (rt, out)) :
    ∃ obs s1, Steps (Move cfg D) s obs s1 ∧ actions obs = [] ∧ Rel { m with router := rt } s1 ∧
      Wf s1 ∧ (VoteResult.observed out).Reports s1.pending := by
  induction votes generalizing m s te with
  | nil =>
    obtain ⟨rfl, rfl⟩ := hf
    exact ⟨[], s, .refl s, rfl, h, hw, hpe⟩
  | cons v _ ih =>
    simp only [playVotes, bind_ok, Prod.exists] at hf
    obtain ⟨_, e, ha, hf⟩ := hf
    have hv := hn v mem_cons_self
    obtain ⟨s1, hm, hr, hl, h1⟩ := h.voteAccepted hw (hD s v mem_cons_self) (.inl hv) ha
    have hp1 : (VoteResult.observed (if e.t = .none then te else e)).Reports s1.pending := by
      rcases h1 with ⟨he, hp⟩ | ⟨he, -, hp⟩
      · rw [if_pos he, hp]
        exact hpe
      · rw [if_neg he, hp, if_pos hv]
        exact .inr ⟨he, rfl⟩
    obtain ⟨obs, s2, hu, ho, hr2, hw2, h2⟩ := ih hr (hm.wf hw)
      (fun s' w hw => hD s' w (mem_cons_of_mem _ hw))
      (fun w hw => by rw [hl]; exact hn w (mem_cons_of_mem _ hw)) hp1 hf
    exact ⟨[.saw v proto] ++ obs, s2, Steps.head hm hu, by simp [ho], hr2, hw2, h2⟩

/-- An empty event is not handled. -/
theorem Machine.handleThresholdEvent_none {e : ThresholdEvent} (he : e.t = .none)
    (hf : m.handleThresholdEvent cfg fuel e = .ok (m', acts)) : m' = m ∧ acts = [] := by
  cases fuel with
  | zero => cases hf
  | succ fuel =>
    simp only [handleThresholdEvent, he, pure_pair] at hf
    exact ⟨hf.1.symm, hf.2.symm⟩

/-- The threshold a counted vote or bundle left behind is handled, if there is one. -/
theorem Rel.handleReported {e : ThresholdEvent} (h : Rel m s) (hw : Wf s)
    (hpe : (VoteResult.observed e).Reports s.pending)
    (hf : m.handleThresholdEvent cfg fuel e = .ok (m', acts)) : Performs cfg D s m' acts := by
  rcases hpe with ⟨he, hp⟩ | ⟨-, hp⟩
  · obtain ⟨rfl, rfl⟩ := handleThresholdEvent_none he hf
    exact .refl h hp
  · exact h.handleThresholdEvent fuel hw hp hf

/-- A message event whose verification succeeded. -/
structure Verified (e : MessageEvent) : Prop where
  cancelled : e.cancelled = false
  proto : e.proto.err = .nil
  err : e.err = .nil

/-- The votes a message event delivers to the vote machines. -/
def DeliveredBy (e : MessageEvent) (v : Vote) (proto : ConsensusVersion) : Prop :=
  Verified e ∧ proto = e.proto.version ∧
    (e.t = .voteVerified ∧ v = e.input.vote ∨ e.t = .bundleVerified ∧ v ∈ e.input.bundle.allVotes)

/-- A verified bundle holds votes of its own round, period and step. -/
def Coherent (b : Bundle) : Prop :=
  ∀ v ∈ b.allVotes, v.r.round = b.u.round ∧ v.r.period = b.u.period ∧ v.r.step = b.u.step

theorem Rel.quiet (h : Rel m s) (hpe : s.pending = none) (hr : RouterRel s.player rt s.rounds)
    (ha : ∀ a ∈ as, Quiet a) : Performs cfg D s { m with router := rt } as := by
  have hn : Performs cfg D s { m with router := rt } [] := .refl ⟨h.player, hr⟩ hpe
  simpa using hn.emit as ha

theorem Rel.votePresent (h : Rel m s) (hpe : s.pending = none) (he : e.t = .votePresent)
    (hf : m.handleVote cfg fuel e = .ok (m', acts)) : Performs cfg D s m' acts := by
  simp only [handleVote, he, if_true, bind_ok, Prod.exists, RootRouter.votePresent] at hf
  obtain ⟨rt, ef, hp, hf⟩ := hf
  rw [h.player] at hp
  have ht : RouterRel s.player rt s.rounds := by
    split_ifs at hp with h1
    · simp only [pure_pair] at hp
      rw [← hp.1]
      exact h.router.update 0
    · simp only [bind_ok, Prod.exists] at hp
      obtain ⟨_, _, hi, hp⟩ := hp
      have hr := ((h.router.update 0).filterVote hi).1
      split_ifs at hp <;>
      · simp only [pure_pair] at hp
        rw [← hp.1]
        exact hr
  cases ef with
  | malformed | filtered | observed =>
    obtain ⟨rfl, rfl⟩ := pure_pair.mp hf
    exact h.quiet hpe ht (by simp [Quiet, disconnectAction, ignoreAction, verifyVoteAction])

/-- The answer of the vote machines to a verified vote or bundle, after a run without actions. -/
def Answers (cfg : Consensus) (D : State → Input → Prop) (m : Machine) (s : State)
    (rt : RootRouter) (ef : VoteResult) : Prop :=
  ∃ obs s₁, Steps (Move cfg D) s obs s₁ ∧ actions obs = [] ∧ Rel { m with router := rt } s₁ ∧
    Wf s₁ ∧ ef.Reports s₁.pending

theorem Answers.nothing (h : Rel m s) (hw : Wf s) (hpe : s.pending = none)
    (hr : RouterRel s.player rt1 s.rounds) (hf : ∀ te, ef1 ≠ .observed te)
    (hv : pure (rt1, ef1) = Except.ok (ε := Panic) (rt, ef)) : Answers cfg D m s rt ef := by
  obtain ⟨rfl, rfl⟩ := pure_pair.mp hv
  refine ⟨[], s, .refl s, rfl, ⟨h.player, hr⟩, hw, ?_⟩
  cases ef1 with
  | observed te => exact absurd rfl (hf te)
  | malformed | filtered => exact hpe

/-- The answer to a message that is not verified changes nothing, whatever comes after the checks. -/
theorem Answers.verified {body : M (RootRouter × VoteResult)} (h : Rel m s) (hw : Wf s)
    (hpe : s.pending = none)
    (hv : (let rt := m.router.update m.player 0
      if e.cancelled then pure (rt, .filtered e.err)
      else if e.proto.err ≠ .nil then pure (rt, .filtered e.err)
      else if e.err ≠ .nil then pure (rt, .malformed e.err)
      else body) = .ok (rt, ef))
    (hb : Verified e → RouterRel s.player (m.router.update m.player 0) s.rounds →
      body = .ok (rt, ef) → Answers cfg D m s rt ef) : Answers cfg D m s rt ef := by
  have hu : RouterRel s.player (m.router.update m.player 0) s.rounds := by
    rw [h.player]
    exact h.router.update 0
  split_ifs at hv with hc hp hr
  · exact .nothing h hw hpe hu (by simp) hv
  · exact .nothing h hw hpe hu (by simp) hv
  · exact .nothing h hw hpe hu (by simp) hv
  · exact hb ⟨by simpa using hc, by simpa using hp, by simpa using hr⟩ hu hv

/-- The run of the counted votes comes first, without actions. -/
theorem Answers.first (h : Answers cfg D m s rt ef)
    (hn : ∀ s1, Rel { m with router := rt } s1 → Wf s1 → ef.Reports s1.pending →
      Performs cfg D s1 m' acts) : Performs cfg D s m' acts := by
  obtain ⟨_, s1, hr, ho, h1, hw, hf⟩ := h
  exact (hn s1 h1 hw hf).after hr ho

theorem Answers.unanswered (h : Answers cfg D m s rt ef) (hf : ∀ te, ef ≠ .observed te)
    (ha : ∀ a ∈ as, Quiet a) : Performs cfg D s { m with router := rt } as := by
  refine h.first fun s1 hr _ hp => hr.quiet ?_ hr.router ha
  cases ef with
  | observed te => exact absurd rfl (hf te)
  | malformed | filtered => exact hp

/-- What was counted is relayed, and then the threshold it reports is handled. -/
theorem Answers.relayed {a : Action} (h : Answers cfg D m s rt (.observed te)) (ha : Quiet a)
    (hf : handleThresholdEvent cfg fuel { m with router := rt } te = .ok (m', acts)) :
    Performs cfg D s m' (a :: acts) :=
  h.first fun _ hr hw ht => (hr.handleReported hw ht hf).emit [a] (by simpa using ha)

section

variable (h : Rel m s) (hw : Wf s) (hpe : s.pending = none) (he : e.t = .voteVerified)
  (hD : ∀ s' v proto, DeliveredBy e v proto → D s' (.vote v proto))
include h hw hpe he hD

/-- The vote aggregator counts a verified vote that is fresh and new. -/
theorem Rel.answersVote (h1 : m.router.voteVerified cfg m.player e = .ok (rt, ef)) :
    Answers cfg D m s rt ef := by
  refine .verified h hw hpe h1 fun hv hu h1 => ?_
  simp only [bind_ok, Prod.exists] at h1
  obtain ⟨rt1, _, hf, h1⟩ := h1
  rw [h.player] at hf hu
  obtain ⟨ht1, h2⟩ := hu.filterVote hf
  split_ifs at h1 with hd
  · exact .nothing h hw hpe ht1 (by simp) h1
  · simp only [bind_ok, Prod.exists] at h1
    obtain ⟨rt2, tE, ha, h1⟩ := h1
    have h3 : DeliveredBy e e.input.vote e.proto.version := ⟨hv, rfl, .inl ⟨he, rfl⟩⟩
    have hr1 : Rel { m with router := rt1 } s := ⟨h.player, ht1⟩
    obtain ⟨s1, hm, hr2, _, h4⟩ := hr1.voteAccepted hw (hD s _ _ h3)
      (voteFresh_round (h2 (by simpa using hd))) ha
    -- the threshold handed to the player is the pending one
    have ho : ∃ te, rt = rt2 ∧ ef = .observed te ∧ ef.Reports s1.pending := by
      rw [h.player] at h1
      rcases h4 with ⟨ht, hp⟩ | ⟨ht, hr, hp⟩
      · rw [if_pos ht, pure_pair] at h1
        exact ⟨tE, h1.1.symm, h1.2.symm, h1.2 ▸ .inl ⟨ht, hp.trans hpe⟩⟩
      · rw [if_neg ht, hr] at h1
        split_ifs at h1 hp with hc hn
        · rw [pure_pair] at h1
          exact ⟨tE, h1.1.symm, h1.2.symm, h1.2 ▸ .inr ⟨ht, hp⟩⟩
        · rw [pure_pair] at h1
          exact ⟨{}, h1.1.symm, h1.2.symm, h1.2 ▸ .inl ⟨rfl, hp.trans hpe⟩⟩
    obtain ⟨te, rfl, rfl, h5⟩ := ho
    exact ⟨_, s1, .single hm, rfl, hr2, hm.wf hw, h5⟩

theorem Rel.voteVerified (hf : m.handleVote cfg fuel e = .ok (m', acts)) :
    Performs cfg D s m' acts := by
  simp only [handleVote, he, reduceCtorEq, if_false, bind_ok, Prod.exists] at hf
  obtain ⟨_, ef, hv, hf⟩ := hf
  have ha := h.answersVote hw hpe he hD hv
  cases ef with
  | observed _ =>
    simp only [bind_ok, Prod.exists, pure_pair] at hf
    obtain ⟨_, _, ht, rfl, rfl⟩ := hf
    exact ha.relayed trivial ht
  | malformed | filtered =>
    obtain ⟨rfl, rfl⟩ := pure_pair.mp hf
    exact ha.unanswered (by simp) (by simp [Quiet, disconnectAction, ignoreAction])

end

theorem Rel.bundlePresent (h : Rel m s) (hpe : s.pending = none) (he : e.t = .bundlePresent)
    (hf : m.handleBundle cfg fuel e = .ok (m', acts)) : Performs cfg D s m' acts := by
  simp only [handleBundle, he, if_true, bind_ok, Prod.exists, RootRouter.bundlePresent] at hf
  obtain ⟨rt, ef, hp, hf⟩ := hf
  rw [h.player] at hp
  have hr : RouterRel s.player rt s.rounds := by
    split at hp <;>
    · simp only [pure_pair] at hp
      rw [← hp.1]
      exact h.router.update 0
  cases ef with
  | malformed | filtered | observed =>
    obtain ⟨rfl, rfl⟩ := pure_pair.mp hf
    exact h.quiet hpe hr (by simp [Quiet, disconnectAction, ignoreAction, verifyBundleAction])

theorem bundleFresh_round {b : UnauthenticatedBundle} (h : bundleFresh pl b = .ok ()) :
    b.round = pl.round := by
  unfold bundleFresh at h
  by_contra hn
  rw [if_pos (Ne.symm hn)] at h
  cases h

section

variable (h : Rel m s) (hw : Wf s) (hpe : s.pending = none) (he : e.t = .bundleVerified)
  (hcoh : Verified e → Coherent e.input.bundle)
  (hD : ∀ s' v proto, DeliveredBy e v proto → D s' (.vote v proto))
include h hw hpe he hcoh hD

/-- The vote aggregator plays the votes of a verified bundle that is fresh. -/
theorem Rel.answersBundle (h1 : m.router.bundleVerified cfg m.player e = .ok (rt, ef)) :
    Answers cfg D m s rt ef := by
  refine .verified h hw hpe h1 fun hv hu h1 => ?_
  cases hf : bundleFresh m.player e.input.bundle.u with
  | error _ =>
    simp only [hf] at h1
    exact .nothing h hw hpe hu (by simp) h1
  | ok u =>
    simp only [hf, bind_ok, Prod.exists] at h1
    obtain ⟨_, _, hl, h1⟩ := h1
    have h2 : e.input.bundle.u.round = s.player.round := by
      rw [← h.player]
      exact bundleFresh_round hf
    have hr1 : Rel { m with router := m.router.update m.player 0 } s := ⟨h.player, hu⟩
    have hd : ∀ s', ∀ v ∈ e.input.bundle.allVotes, D s' (.vote v e.proto.version) :=
      fun s' v hm => hD s' v _ ⟨hv, rfl, .inr ⟨he, hm⟩⟩
    obtain ⟨obs, s1, hr, hb, hr2, hw2, ho⟩ :=
      hr1.playVotes hw hd (fun v hm => (hcoh hv v hm).1.trans h2) (.inl ⟨rfl, hpe⟩) hl
    refine ⟨obs, s1, hr, hb, ?_⟩
    split_ifs at h1 with hn
    · obtain ⟨rfl, rfl⟩ := pure_pair.mp h1
      refine ⟨hr2, hw2, ?_⟩
      rcases ho with ⟨-, hp⟩ | ⟨hne, -⟩
      · exact hp
      · exact absurd hn hne
    · obtain ⟨rfl, rfl⟩ := pure_pair.mp h1
      exact ⟨hr2, hw2, ho⟩

theorem Rel.bundleVerified (hf : m.handleBundle cfg fuel e = .ok (m', acts)) :
    Performs cfg D s m' acts := by
  simp only [handleBundle, he, reduceCtorEq, if_false, bind_ok, Prod.exists] at hf
  obtain ⟨_, ef, hv, hf⟩ := hf
  have ha := h.answersBundle hw hpe he hcoh hD hv
  cases ef with
  | observed _ =>
    simp only [bind_ok, Prod.exists, pure_pair] at hf
    obtain ⟨_, _, ht, rfl, rfl⟩ := hf
    exact ha.relayed trivial ht
  | malformed | filtered =>
    obtain ⟨rfl, rfl⟩ := pure_pair.mp hf
    exact ha.unanswered (by simp) (by simp [Quiet, disconnectAction, ignoreAction])

end

/-! ## Payloads -/

theorem ProposalStore.bindPayload_ok {st : ProposalStore} {pp : Proposal} {ea : BlockAssembler}
    (h : (st.bindPayload pp).2 = .ok ea) :
    ((st.bindPayload pp).1.assembler pp.value).assembled = true ∧
      ((st.bindPayload pp).1.assembler pp.value).payload = pp := by
  unfold bindPayload at h ⊢
  cases hl : st.assemblers.lookup pp.value with
  | none => simp [hl] at h
  | some ea' =>
    simp only [hl] at h ⊢
    rw [assembler_insert]
    cases ha : ea'.assembled with
    | true => simp [BlockAssembler.bind, ha] at h
    | false => simp [BlockAssembler.bind, ha]

/-- The store pipelines or rejects an unverified payload. -/
theorem ProposalStore.payloadPresent_result (st : ProposalStore) (p : Player)
    (up : UnauthenticatedProposal) :
    (∃ err, (st.payloadPresent p up).2 = .rejected err) ∨
      ∃ vote per pin, (st.payloadPresent p up).2 = .pipelined 0 vote per pin up.value up := by
  cases hl : st.assemblers.lookup up.value with
  | none => exact .inl ⟨.noAssemblerOnPresent, by simp [payloadPresent, hl]⟩
  | some _ =>
    simp only [payloadPresent, hl]
    split_ifs
    · exact .inl ⟨_, rfl⟩
    · exact .inr ⟨_, _, _, rfl⟩

theorem Machine.relayAsProposer_quiet (e : MessageEvent) (vote : Vote) :
    ∀ a ∈ relayAsProposer e vote, Quiet a := by
  unfold relayAsProposer
  split_ifs <;> simp [Quiet, relayAction]

theorem RootRouter.toRound_ok {α : Type} {r : Round} {f : RoundRouter → M (RoundRouter × α)} {a : α}
    (h : rt.toRound pl r f = .ok (rt', a)) : ∃ rr rr', f rr = .ok (rr', a) := by
  simp only [toRound] at h
  split at h
  · cases h
  · simp only [bind_ok, Prod.exists, pure_pair] at h
    obtain ⟨rr', _, hf, -, rfl⟩ := h
    exact ⟨_, rr', hf⟩

/-- An unverified payload is pipelined or rejected. -/
theorem RootRouter.payloadPresent_kind {ef : PayloadResult} (h : rt.payloadPresent pl e = .ok (rt', ef)) :
    (∃ err, ef = .rejected err) ∨ ∃ r vote per pin pv up, ef = .pipelined r vote per pin pv up := by
  simp only [payloadPresent, bind_ok, Prod.exists] at h
  obtain ⟨_, _, hn, h⟩ := h
  obtain ⟨rr, _, hr⟩ := toRound_ok hn
  simp only [RoundRouter.payloadPresent, pure_pair] at hr
  rcases ProposalStore.payloadPresent_result (rr.update pl _).proposalStore pl
    e.input.unauthenticatedProposal with ⟨err, hk⟩ | ⟨vote, per, pin, hk⟩
  · rw [← hr.2, hk] at h
    simp only [pure_pair] at h
    exact .inl ⟨err, h.2.symm⟩
  · rw [← hr.2, hk] at h
    simp only [pure_pair] at h
    exact .inr ⟨_, _, _, _, _, _, h.2.symm⟩

theorem Rel.payloadPresent (h : Rel m s) (hpe : s.pending = none) (he : e.t = .payloadPresent)
    (hf : m.handlePayload cfg fuel e = .ok (m', acts)) : Performs cfg D s m' acts := by
  simp only [handlePayload, he, if_true, bind_ok, Prod.exists] at hf
  obtain ⟨rt, ef, hv, hf⟩ := hf
  have hk := payloadPresent_kind hv
  simp only [RootRouter.payloadPresent, bind_ok, Prod.exists] at hv
  obtain ⟨rt1, res, hn, h1⟩ := hv
  rw [h.player] at hn
  set rp : Round × Period := if s.player.round = e.input.unauthenticatedProposal.round then
    (s.player.round, s.player.period) else (s.player.round + 1, 0) with h2
  have hr : rp.1 = s.player.round ∨ rp.1 = s.player.round + 1 := by
    rw [h2]
    split_ifs
    · exact .inl rfl
    · exact .inr rfl
  obtain ⟨_, _, _, h3, hp, hb⟩ := (h.router.update 0).toRound hn
  have hm : Move cfg D s [] _ := .pipeline s rp.1 e.input.unauthenticatedProposal hr
  have ht : rt1 = rt := by
    cases res <;> simp only [pure_pair] at h1 <;> exact h1.1
  subst ht
  have hl : Rel { m with router := rt1 } (s.setRound rp.1 { s.rounds rp.1 with
      store := ((s.rounds rp.1).store.payloadPresent s.player
        e.input.unauthenticatedProposal).1 }) := ⟨h.player, hb _ (h3.payloadPresent hp).2⟩
  suffices ha : ∃ as, m' = { m with router := rt1 } ∧ acts = as ∧ ∀ a ∈ as, Quiet a by
    obtain ⟨as, rfl, rfl, ha⟩ := ha
    exact (hl.quiet hpe hl.router ha).step hm rfl
  rcases hk with ⟨err, rfl⟩ | ⟨r, vote, per, pin, pv, up, rfl⟩
  · obtain ⟨rfl, rfl⟩ := pure_pair.mp hf
    exact ⟨_, rfl, rfl, by simp [Quiet, ignoreAction]⟩
  · simp only at hf
    split_ifs at hf
    · obtain ⟨rfl, rfl⟩ := pure_pair.mp hf
      exact ⟨_, rfl, rfl, by simp [Quiet, relayAction, verifyPayloadAction]⟩
    · obtain ⟨rfl, rfl⟩ := pure_pair.mp hf
      refine ⟨_, rfl, rfl, List.forall_mem_cons.mpr ⟨trivial, relayAsProposer_quiet e vote⟩⟩

/-- A valid payload of the current round: commit, cert-vote or wait. -/
theorem Rel.checkCert {committable : Bool} (h : Rel m s) (hw : Wf s) (hpe : s.pending = none)
    (ha : s.cur.assembled e.input.proposal.value = true)
    (h4 : (s.cur.store.assembler e.input.proposal.value).payload = e.input.proposal)
    (ho : committable = true → s.cur.staging s.player.period = e.input.proposal.value)
    (hf : m.checkCert cfg fuel e committable e.input.proposal.value = .ok (m', acts)) :
    Performs cfg D s m' acts := by
  simp only [Machine.checkCert, bind_ok, Prod.exists] at hf
  obtain ⟨m1, _, h5, hf⟩ := hf
  obtain ⟨h1, rfl⟩ := h.freshestBundle h5
  split_ifs at hf with hc hv
  · simp only [bind_ok, Prod.exists, pure_pair] at hf
    obtain ⟨_, _, h2, rfl, rfl⟩ := hf
    have hn : s.cur.fresh.freshest.bundle.round = s.player.round :=
      (hw.fresh s.player.round hc.1).bundleRound
    rw [hn] at h2
    have h3 : Move cfg D s _ _ := .commit s _ e.input.proposal.value
      (filterTimeout cfg 0 e.proto.version) hc ha h4
    exact (h1.startRound (Nat.lt_succ_self _) (fun m1 e' m' acts hr hp hs =>
      hr.handleThresholdEvent fuel (h3.wf hw) hp hs) h2).act (by trivial) h3
  · obtain ⟨rfl, rfl⟩ := pure_pair.mp hf
    rw [h1.player] at hv
    have hm : Move cfg D s [.act (.attest s.player.round s.player.period cert
        e.input.proposal.value)] s :=
      .certVote s _ hpe (ho hv.1) ha hv.2 hc
    have h6 : m1.issueCertVote e.input.proposal.value =
        .attest s.player.round s.player.period cert e.input.proposal.value := by
      rw [issueCertVote, h1.player]
    rw [h6]
    exact .vote hm h1 hpe
  · obtain ⟨rfl, rfl⟩ := pure_pair.mp hf
    exact .refl h1 hpe

variable (cfg D) in
/-- A verified payload is rejected, or bound to its assembler. -/
theorem Rel.payloadVerified_state {ef : PayloadResult} (h : Rel m s)
    (hf : m.router.payloadVerified m.player e = .ok (rt, ef)) :
    ∃ s1, Steps (Move cfg D) s [] s1 ∧ s1.pending = s.pending ∧ Rel { m with router := rt } s1 ∧
      ((∃ err, ef = .rejected err ∨ ef = .malformed err) ∨
        s1.cur.assembled e.input.proposal.value = true ∧
        (s1.cur.store.assembler e.input.proposal.value).payload = e.input.proposal ∧
        ∃ vt, ef = if s1.cur.staging s1.player.period = e.input.proposal.value then
          .committable vt e.input.proposal.value else .accepted vt e.input.proposal.value) := by
  rw [h.player] at hf
  unfold RootRouter.payloadVerified at hf
  split_ifs at hf
  case pos | pos =>
    obtain ⟨rfl, rfl⟩ := pure_pair.mp hf
    exact ⟨s, .refl _, rfl, ⟨h.player, h.router.update 0⟩, .inl ⟨e.err, by simp⟩⟩
  · obtain ⟨_, _, _, h3, hp, hb⟩ := (h.router.update 0).toRound hf
    obtain ⟨hr', hr⟩ := h3.payloadVerified hp
    have hm : Move cfg D s [] _ := .bind s e.input.proposal
    refine ⟨_, .single hm, rfl, ⟨h.player, hb _ hr'⟩, ?_⟩
    rcases hr with ⟨err, rfl⟩ | ⟨vt, _, hn, rfl⟩
    · exact .inl ⟨err, .inl rfl⟩
    · simp only [State.cur, State.setRound, Function.update_self]
      exact .inr ⟨(ProposalStore.bindPayload_ok hn).1, (ProposalStore.bindPayload_ok hn).2, vt, rfl⟩

theorem Rel.payloadVerified (h : Rel m s) (hw : Wf s) (hpe : s.pending = none)
    (he : e.t = .payloadVerified) (hf : m.handlePayload cfg fuel e = .ok (m', acts)) :
    Performs cfg D s m' acts := by
  simp only [handlePayload, he, reduceCtorEq, if_false, bind_ok, Prod.exists] at hf
  obtain ⟨rt, _, hv, hf⟩ := hf
  obtain ⟨s1, hm, hp, h1, ⟨_, rfl | rfl⟩ | ⟨ha, h2, vt, rfl⟩⟩ := h.payloadVerified_state cfg D hv
  case inl.inl | inl.inr =>
    obtain ⟨rfl, rfl⟩ := pure_pair.mp hf
    exact (h1.quiet (hp.trans hpe) h1.router (by simp [Quiet, ignoreAction])).after hm rfl
  · split_ifs at hf with hs
    all_goals
      simp only [bind_ok, Prod.exists, pure_pair] at hf
      obtain ⟨m2, as, hh, rfl, rfl⟩ := hf
      have hw1 : Wf s1 := hm.invariant (fun _ _ _ hP h => h.wf hP) hw
      refine ((h1.checkCert hw1 (hp.trans hpe) ha h2 ?_ hh).emit _
        (relayAsProposer_quiet e vt)).after hm rfl
    · exact fun _ => hs
    · simp

/-! ## Proposal-votes -/

/-- Adding a suffix of actions at the end of a run. -/
theorem Performs.append (h : Performs cfg D s m1 as) (h1 : ∀ a ∈ as, Quiet a)
    (hn : ∀ s1, Rel m1 s1 → s1.pending = none → Performs cfg D s1 m' acts) :
    Performs cfg D s m' (as ++ acts) := by
  obtain ⟨⟨_, s1, hr, rfl, h2, hpe⟩, -⟩ := h
  obtain ⟨hs, hu⟩ := hn s1 h2 hpe
  exact ⟨hs.steps hr, hu.append fun a ha => (h1 a ha).plain⟩

variable {tail : Option TailEvent}

theorem Performs.handleTail (h : Performs cfg D s m1 as) (ha : ∀ a ∈ as, Quiet a)
    (hf : m1.handleTail cfg fuel tail as = .ok (m', acts)) : Performs cfg D s m' acts := by
  unfold Machine.handleTail at hf
  cases tail with
  | none =>
    obtain ⟨rfl, rfl⟩ := pure_pair.mp hf
    exact h
  | some _ =>
    simp only [bind_ok, Prod.exists, pure_pair] at hf
    obtain ⟨_, _, hp, rfl, rfl⟩ := hf
    exact h.append ha fun s1 hr hpe => hr.payloadPresent hpe rfl hp

theorem proposalFresh_round (h : proposalFresh pl rv = .ok ()) :
    rv.round = pl.round ∨ rv.round = pl.round + 1 ∧ rv.period = 0 := by
  unfold proposalFresh at h
  split_ifs at h with h1 h2 h3 h4 h5 <;> lia

variable {pending : ProposalTable}

/-- The player's table of waiting payloads does not matter to the flat machine. -/
theorem Rel.withPending (h : Rel m s) (hpe : s.pending = none) (ht : RouterRel s.player rt s.rounds)
    (ha : ∀ a ∈ as, Quiet a) :
    Performs cfg D s { player := { m.player with pending := pending }, router := rt } as := by
  have hm : Move cfg D s (as.map .act) _ :=
    .idle s { s.player with pending := pending } as ⟨rfl, rfl, rfl, rfl⟩ fun a h => (ha a h).inert
  rw [h.player]
  have hn : Simulates cfg D { s with player := { s.player with pending := pending } }
      { player := { s.player with pending := pending }, router := rt } [] := .refl ⟨rfl, ht⟩ hpe
  have hr := hn.steps (.single hm)
  rw [actions_map_act, append_nil] at hr
  exact ⟨hr, unmixed_of_plain fun a h => (ha a h).plain⟩

theorem Rel.proposalVotePresent (h : Rel m s) (hpe : s.pending = none)
    (hf : m.handleProposalVotePresent cfg fuel e = .ok (m', acts)) : Performs cfg D s m' acts := by
  simp only [handleProposalVotePresent, bind_ok, Prod.exists,
    RootRouter.proposalVotePresent, RootRouter.filterProposalVote] at hf
  obtain ⟨_, _, ⟨rt1, err, hi, hr⟩, hf⟩ := hf
  rw [h.player] at hi
  have hr1 : RouterRel s.player rt1 s.rounds := by
    split at hi
    · simp only [pure_pair] at hi
      rw [← hi.1]
      exact h.router.update 0
    · simp only [bind_ok, Prod.exists] at hi
      obtain ⟨_, _, hq, hi⟩ := hi
      have hq' := (h.router.update 0).query hq (Q := fun _ => True) fun rr rr' h1 hf =>
        ⟨(h1.query hf (Q := fun _ => True) fun pr pr' h2 hp => by
          simp only [PeriodRouter.proposalFilterRequest, pure_pair] at hp
          rw [← hp.1]
          exact ⟨PeriodRouter.state_update _ _, trivial⟩).2.1, trivial⟩
      split_ifs at hi <;>
      · simp only [pure_pair] at hi
        rw [← hi.1]
        exact hq'.1
  split_ifs at hr with h3
  · obtain ⟨rfl, rfl⟩ := pure_pair.mp hr
    have ht : ∀ a ∈ [ignoreAction e err], Quiet a := by simp [Quiet, ignoreAction]
    exact (h.quiet hpe hr1 ht).handleTail ht hf
  · obtain ⟨rfl, rfl⟩ := pure_pair.mp hr
    obtain ⟨rfl, rfl⟩ := pure_pair.mp hf
    exact h.withPending hpe hr1 (by simp [Quiet, verifyVoteAction])

/-- The end of a handler of proposal-votes: one inert action, then the waiting payload. -/
theorem Rel.proposalTail {a : Action} (hp : m.player = s.player) (hpe : s.pending = none)
    (ht : RouterRel s.player rt s.rounds) (ha : Quiet a) (hf : handleTail cfg fuel
      { player := { m.player with pending := pending }, router := rt } tail [a] =
        .ok (m', acts)) : Performs cfg D s m' acts := by
  have hr : Rel { player := s.player, router := rt } s := ⟨rfl, ht⟩
  rw [hp] at hf
  have hq : ∀ b ∈ [a], Quiet b := by simpa using ha
  exact (hr.withPending hpe ht hq).handleTail hq hf

theorem Rel.proposalVoteVerified (h : Rel m s) (hpe : s.pending = none)
    (hD : e.cancelled = false → e.err = .nil → D s (.proposal e.input.vote))
    (hf : m.handleProposalVoteVerified cfg fuel e = .ok (m', acts)) : Performs cfg D s m' acts := by
  simp only [handleProposalVoteVerified, bind_ok, Prod.exists] at hf
  obtain ⟨rt, _, hv, hf⟩ := hf
  rw [h.player] at hv
  -- the flat machine takes the proposal-vote, if it gets as far as the tracker
  have h4 : ∃ obs s1, Steps (Move cfg D) s obs s1 ∧ actions obs = [] ∧
      s1.player = s.player ∧ s1.pending = none ∧ RouterRel s.player rt s1.rounds := by
    have h3 : RouterRel s.player rt s.rounds → ∃ obs s1, Steps (Move cfg D) s obs s1 ∧
        actions obs = [] ∧ s1.player = s.player ∧ s1.pending = none ∧
          RouterRel s.player rt s1.rounds :=
      fun h1 => ⟨[], s, .refl s, rfl, rfl, hpe, h1⟩
    unfold RootRouter.proposalVoteVerified at hv
    split_ifs at hv with h5 h6
    · simp only [pure_pair] at hv
      exact h3 (hv.1 ▸ h.router.update 0)
    · simp only [pure_pair] at hv
      exact h3 (hv.1 ▸ h.router.update 0)
    · cases h2 : proposalFresh s.player e.input.vote.r with
      | error err =>
        simp only [h2, pure_pair] at hv
        exact h3 (hv.1 ▸ h.router.update 0)
      | ok u =>
        simp only [h2, bind_ok, Prod.exists] at hv
        obtain ⟨rt1, out, hn, hv⟩ := hv
        have h1 : rt = rt1 := by
          cases out <;> simp only [pure_pair] at hv <;> exact hv.1.symm
        subst h1
        obtain ⟨_, _, _, h7, h8, hb⟩ := (h.router.update 0).toRound hn
        have hz : s.player.round < e.input.vote.r.round → e.input.vote.r.period = 0 := by
          intro hlt
          rcases proposalFresh_round h2 with hr | hr
          · exact absurd (hr ▸ hlt) (lt_irrefl _)
          · exact hr.2
        obtain ⟨hk, t, err, c, ht, hc, h9⟩ := h7.voteVerified hz h8
        have hm : Move cfg D s [] _ :=
          .proposalVote s e.input.vote t err c _
            (hD (by simpa using h5) (by simpa using h6)) h2 rfl ht hc hk
        exact ⟨[], _, .single hm, rfl, rfl, hpe, hb _ h9⟩
  obtain ⟨obs, s1, hu, ho, hl, hp, h1⟩ := h4
  have hac : ∀ a, Quiet a → handleTail cfg fuel
      { player := { m.player with pending := (m.player.pending.pop e.taskIndex).1 },
        router := rt } (m.player.pending.pop e.taskIndex).2 [a] = .ok (m', acts) →
      Performs cfg D s m' acts := by
    intro a ha htl
    have hs : Performs cfg D s1 m' acts :=
      proposalTail (h.player.trans hl.symm) hp (hl ▸ h1) ha htl
    exact hs.after hu ho
  refine hac _ ?_ hf
  split <;> simp [Quiet, disconnectAction, ignoreAction, relayAction]

/-! ## Timeouts -/

section

variable (h : Rel m s)
include h

theorem Rel.issueSoftVote (hpe : s.pending = none) (hs : s.player.step = soft)
    (hf : m.issueSoftVote = .ok (m', acts)) :
    Performs cfg D s { m' with player := { m'.player with step := cert } } acts := by
  simp only [Machine.issueSoftVote, bind_ok, Prod.exists, pure_pair, proposalFrozen] at hf
  obtain ⟨_, _, ⟨rt, _, h1, rfl, rfl⟩, m2, st, ht, rfl, rfl⟩ := hf
  rw [h.player] at h1
  obtain ⟨_, _, _, h2, hp, hb⟩ := h.router.toRound h1
  obtain ⟨c, h3, h4, rfl, hr⟩ := h2.proposalFrozen (lt_irrefl _) hp
  set P : PeriodState := { s.cur.period s.player.period with
    tracker := (s.cur.period s.player.period).tracker.proposalFrozen.1, contract := c }
  set s1 := s.setRound s.player.round (s.cur.setPeriod s.player.period P)
  have hr1 : Rel { m with router := rt } s1 := ⟨h.player, hb _ hr⟩
  obtain ⟨hr2, hc⟩ := hr1.nextThresholdStatus ht
  have hs' : st = (s.cur.period (prevPeriod s.player.period)).cached := by
    rw [hc, h.player, State.cur, State.setRound_player, State.setRound_rounds, if_pos rfl,
      RoundState.setPeriod_period]
    split_ifs with hq
    · rw [hq]
    · rfl
  have hl : m2.player = s.player := hr2.player
  have hm : Move cfg D s _ _ := .softTimeout s
    { s.player with deadline := deadlineTimeout, step := cert } c hpe hs h3 h4
    ⟨rfl, rfl, rfl, rfl⟩
  have hn : Rel { m2 with player := { m2.player with deadline := deadlineTimeout, step := cert } }
      { s1 with player := { s.player with deadline := deadlineTimeout, step := cert } } :=
    ⟨by rw [hl], hr2.router⟩
  rw [hl] at hn ⊢
  rw [hs']
  unfold State.cur at hm ⊢
  cases hv : softVoteValue s.player.period
      ((s.rounds s.player.round).period s.player.period).tracker.freezer.lowest.r.proposal
      ((s.rounds s.player.round).period (prevPeriod s.player.period)).cached with
  | some v =>
    rw [hv] at hm
    exact .vote hm hn hpe
  | none =>
    rw [hv] at hm
    exact (Performs.refl hn hpe).step hm rfl

theorem Rel.nextVoteValue {answer : StagingValue} {st : NextThresholdStatus}
    (hf : m.nextVoteValue = .ok (m', (answer, st))) :
    Rel m' s ∧ s.player.period ≠ lastPeriod ∧
      answer.committable = s.cur.assembled (s.cur.staging s.player.period) ∧
      s.cur.nextVoteValue s.player.period = if answer.committable then answer.proposal
        else if st.bottom then bottom else st.proposal := by
  simp only [Machine.nextVoteValue, bind_ok, Prod.exists] at hf
  obtain ⟨_, _, hs, hf⟩ := hf
  rw [h.player] at hs
  obtain ⟨h1, hk, rfl⟩ := h.stagedValue hs
  rw [h.player, keepsPeriod_self] at hk
  have hm : (s.cur.store.readStaging (s.cur.staging s.player.period)).committable =
    s.cur.assembled (s.cur.staging s.player.period) := rfl
  split_ifs at hf with hc
  · obtain ⟨rfl, rfl, rfl⟩ := pure_pair.mp hf
    refine ⟨h1, hk, hm, ?_⟩
    rw [if_pos hc, RoundState.nextVoteValue, if_pos (hm ▸ hc)]
    rfl
  · simp only [bind_ok, Prod.exists, pure_pair] at hf
    obtain ⟨_, _, ht, rfl, rfl, rfl⟩ := hf
    obtain ⟨h2, rfl⟩ := h1.nextThresholdStatus ht
    refine ⟨h2, hk, hm, ?_⟩
    rw [if_neg hc, RoundState.nextVoteValue, if_neg (hm ▸ hc), h1.player]

/-- A next-vote: the actions, and the state left behind. -/
theorem Rel.issueNextVote (hf : m.issueNextVote = .ok (m', acts)) :
    ∃ pol p, s.player.period ≠ lastPeriod ∧ (∀ a ∈ pol, Quiet a) ∧
      SamePosition p { s.player with napping := false } ∧
      acts = pol ++ [.attest s.player.round s.player.period s.player.step
        (s.cur.nextVoteValue s.player.period)] ∧ Rel m' { s with player := p } := by
  simp only [Machine.issueNextVote, bind_ok, Prod.exists, pure_pair] at hf
  obtain ⟨_, pol, hp, _, _, _, ha, rfl, rfl⟩ := hf
  obtain ⟨h1, hq⟩ := h.partitionPolicy hp
  obtain ⟨h2, hk, -, hv⟩ := h1.nextVoteValue ha
  refine ⟨pol, { s.player with napping := false, deadline := (nextVoteRanges s.player.step).2 },
    hk, hq, ⟨rfl, rfl, rfl, rfl⟩, ?_, ?_, h2.router⟩
  · rw [hv, h2.player]
  · rw [h2.player]

theorem Rel.issueFastVote (hf : m.issueFastVote = .ok (m', acts)) :
    ∃ pol, s.player.period ≠ lastPeriod ∧ (∀ a ∈ pol, Quiet a) ∧
      acts = pol ++ [.attest s.player.round s.player.period (s.cur.fastVoteStep s.player.period)
        (s.cur.nextVoteValue s.player.period)] ∧ Rel m' s := by
  simp only [Machine.issueFastVote, bind_ok, Prod.exists, pure_pair] at hf
  obtain ⟨_, pol, hp, _, el, hl, _, er, hr, _, ed, hd, _, an, st, ha, rfl, rfl⟩ := hf
  obtain ⟨h1, hq⟩ := h.partitionPolicy hp
  have h4 := ((h1.dumpVotes hl).dumpVotes hr).dumpVotes hd
  obtain ⟨h5, hk, hc, hv⟩ := h4.nextVoteValue ha
  refine ⟨pol ++ [.broadcastVotes (el ++ (er ++ ed))], hk, ?_, ?_, h5⟩
  · exact forall_mem_append.mpr ⟨hq, forall_mem_singleton.mpr trivial⟩
  · rw [RoundState.fastVoteStep, hv, ← hc, h5.player]
    -- the step is `down` exactly for bottom, whichever way bottom was chosen
    cases an.committable <;> cases st.bottom <;> simp

theorem Rel.handleTimeout (hpe : s.pending = none) (hf : m.handleTimeout entropy = .ok (m', acts)) :
    Performs cfg D s m' acts := by
  unfold Machine.handleTimeout at hf
  rw [h.player] at hf
  split_ifs at hf with hs hc hn
  · simp only [bind_ok, Prod.exists, pure_pair] at hf
    obtain ⟨_, _, hv, rfl, rfl⟩ := hf
    exact h.issueSoftVote hpe hs hv
  · have hr : Rel { m with player := { s.player with step := next } }
        { s with player := { s.player with step := next } } := ⟨rfl, h.router⟩
    obtain ⟨pol, p, hk, hq, hp, rfl, h1⟩ := hr.issueNextVote hf
    have hm : Move cfg D s _ _ := .certTimeout s p hpe hc hk hp
    exact (Performs.vote hm h1 hpe).emit pol hq
  · obtain ⟨pol, p, hk, hq, hp, rfl, h1⟩ := h.issueNextVote hf
    have hm : Move cfg D s _ _ := .nextVote s p hpe hs hc hn hk hp
    exact (Performs.vote hm h1 hpe).emit pol hq
  · simp only [bind_ok, pure_pair] at hf
    obtain ⟨dl, -, rfl, rfl⟩ := hf
    have hm : Move cfg D s [] _ := .nap s
      { s.player with
        step := s.player.step + 1, napping := true
        deadline := int64 ((nextVoteRanges (s.player.step + 1)).1 + dl) }
      hpe hs hc (Bool.eq_false_iff.mpr hn) ⟨rfl, rfl, rfl, rfl⟩
    refine Performs.step hm rfl (.refl ?_ hpe)
    exact ⟨rfl, h.router⟩

theorem Rel.handleFastTimeout {proto : ConsensusVersionView} (hpe : s.pending = none)
    (hD : ∀ s', s'.player.step = s.player.step → D s' .fast)
    (hf : m.handleFastTimeout cfg entropy proto = .ok (m', acts)) : Performs cfg D s m' acts := by
  unfold Machine.handleFastTimeout at hf
  rw [h.player] at hf
  by_cases h1 : proto.err ≠ .nil
  · rw [if_pos h1] at hf
    obtain ⟨rfl, rfl⟩ := hf
    exact .refl h hpe
  · rw [if_neg h1] at hf
    by_cases hi : (cfg proto.version).fastRecoveryLambda = 0
    · simp only [hi, if_true] at hf
      cases hf
    simp only [hi, if_false, bind_ok] at hf
    obtain ⟨_, -, hf⟩ := hf
    -- the deadline is set first, whatever it is, and does not matter afterwards
    have h2 : ∀ d : Duration, Move cfg D s []
        { s with player := { s.player with fastRecoveryDeadline := d } } :=
      fun d => .idle s { s.player with fastRecoveryDeadline := d } [] ⟨rfl, rfl, rfl, rfl⟩ (by simp)
    have hc : ∀ d : Duration, Rel
        { m with player := { s.player with fastRecoveryDeadline := d } }
        { s with player := { s.player with fastRecoveryDeadline := d } } :=
      fun d => ⟨rfl, h.router⟩
    have hr : ∀ d : Duration, Performs cfg D s
        { m with player := { s.player with fastRecoveryDeadline := d } } [] :=
      fun d => (Performs.refl (hc d) hpe).step (h2 d) rfl
    have hv : ∀ d : Duration, Machine.issueFastVote
        { m with player := { s.player with fastRecoveryDeadline := d } } = .ok (m', acts) →
        Performs cfg D s m' acts := by
      intro d hd
      obtain ⟨pol, hk, hq, rfl, hn⟩ := (hc d).issueFastVote hd
      have hm : Move cfg D { s with player := { s.player with fastRecoveryDeadline := d } } _ _ :=
        .fastVote _ { s.player with fastRecoveryDeadline := d } (hD _ rfl) hpe hk
          ⟨rfl, rfl, rfl, rfl⟩
      exact ((Performs.vote hm hn hpe).emit pol hq).step (h2 d) rfl
    split_ifs at hf with hz
    · obtain ⟨rfl, rfl⟩ := pure_pair.mp hf
      exact hr _
    · exact hv _ hf

end

/-! ## The top level -/

/-- What the environment guarantees of the events it delivers: a verified bundle is coherent, and
the ledger only concludes rounds the player is still in. -/
def EventOk (pl : Player) : Event → Prop
  | .message e => e.t = .bundleVerified → Verified e → Coherent e.input.bundle
  | .roundInterruption r _ => pl.round < r
  | _ => True

/-- What an event, delivered in state `s`, feeds to the flat machine in the states it runs
through. -/
def Feeds (e : Event) (s s' : State) : Input → Prop
  | .vote v proto => ∃ me, e = .message me ∧ DeliveredBy me v proto
  | .proposal v => s' = s ∧ ∃ me, e = .message me ∧ me.t = .voteVerified ∧
      me.input.unauthenticatedVote.r.step = propose ∧ me.cancelled = false ∧ me.err = .nil ∧
      v = me.input.vote
  | .fast => s'.player.step = s.player.step ∧ ∃ entropy proto, e = .fastTimeout entropy proto

theorem Rel.handleMessageEvent (h : Rel m s) (hw : Wf s) (hpe : s.pending = none)
    (he : EventOk s.player (.message e)) (hf : m.handleMessageEvent cfg fuel e = .ok (m', acts)) :
    Performs cfg (Feeds (.message e) s) s m' acts := by
  unfold Machine.handleMessageEvent at hf
  have hv : ∀ s' v proto, DeliveredBy e v proto → Feeds (.message e) s s' (.vote v proto) :=
    fun _ _ _ hD => ⟨e, rfl, hD⟩
  cases ht : e.t with
  | votePresent =>
    simp only [ht] at hf
    split_ifs at hf
    · exact h.proposalVotePresent hpe hf
    · exact h.votePresent hpe ht hf
  | voteVerified =>
    simp only [ht] at hf
    split_ifs at hf with hs
    · exact h.proposalVoteVerified hpe
        (fun hc hr => ⟨rfl, e, rfl, ht, hs, hc, hr, rfl⟩) hf
    · exact h.voteVerified hw hpe ht hv hf
  | payloadPresent =>
    simp only [ht] at hf
    exact h.payloadPresent hpe ht hf
  | payloadVerified =>
    simp only [ht] at hf
    exact h.payloadVerified hw hpe ht hf
  | bundlePresent =>
    simp only [ht] at hf
    exact h.bundlePresent hpe ht hf
  | bundleVerified =>
    simp only [ht] at hf
    exact h.bundleVerified hw hpe ht (he ht) hv hf

section

variable {e : Event} (h : Rel m s) (hw : Wf s) (hpe : s.pending = none) (he : EventOk m.player e)
include h hw hpe he

theorem Rel.performs (hn : ∀ r p q err done, e ≠ .checkpoint r p q err done)
    (hf : m.submitTop cfg fuel e = .ok (m', acts)) : Performs cfg (Feeds e s) s m' acts := by
  rw [h.player] at he
  have h0 : Rel { m with router := m.router.update m.player 0 } s :=
    ⟨h.player, h.player ▸ h.router.update 0⟩
  cases e with
  | none =>
    obtain ⟨rfl, rfl⟩ := hf
    exact .refl h0 hpe
  | message e => exact h0.handleMessageEvent hw hpe he hf
  | timeout en => exact h0.handleTimeout hpe hf
  | fastTimeout en pr =>
    exact h0.handleFastTimeout hpe (fun s' hs => ⟨hs, en, pr, rfl⟩) hf
  | roundInterruption r pr =>
    have hm : Move cfg (Feeds (.roundInterruption r pr) s) s [] _ :=
      .interrupt s r (filterTimeout cfg 0 pr.version) hpe he
    exact (h0.startRound he (fun m1 e' m' acts hr hp hs =>
      hr.handleThresholdEvent fuel (hm.wf hw) hp hs) hf).step hm rfl
  | checkpoint r p q err done => exact absurd rfl (hn r p q err done)

/-- **One event of the player is a run of the flat machine.** -/
theorem Rel.submitTop (hf : m.submitTop cfg fuel e = .ok (m', acts)) :
    Simulates cfg (Feeds e s) s m' acts := by
  by_cases hc : ∃ r p q err dn, e = .checkpoint r p q err dn
  · obtain ⟨r, p, q, err, dn, rfl⟩ := hc
    obtain ⟨rfl, rfl⟩ := pure_pair.mp hf
    have hm : Move cfg (Feeds (.checkpoint r p q err dn) s) s _ s :=
      .idle s s.player [.checkpoint r p q err dn] ⟨rfl, rfl, rfl, rfl⟩ (by simp [Inert])
    exact .steps (.single hm) (.refl ⟨h.player, h.player ▸ h.router.update 0⟩ hpe)
  · exact (h.performs hw hpe he (by simpa using hc) hf).1

/-- **No event makes the player both vote and stage a digest**, and only a checkpoint event makes it
report one. The service writes its actions to the crash database whenever they contain a vote, but a
staged digest cannot be read back: `zeroAction` does not know it. -/
theorem Rel.submitTop_unmixed (hn : ∀ r p q err done, e ≠ .checkpoint r p q err done)
    (hf : m.submitTop cfg fuel e = .ok (m', acts)) : Unmixed acts :=
  (h.performs hw hpe he hn hf).2

end

end Novarand.Agreement
