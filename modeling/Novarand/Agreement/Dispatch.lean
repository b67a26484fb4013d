import Novarand.Agreement.Simulation

/-!
# Dispatches that reach their router

A dispatch creates the child it is addressed to and then collects garbage; if the collector drops
that very child, the dispatch dereferences nil. Which rounds and periods are dropped depends on the
player alone, so a handler is safe when every message it passes on is for a round not yet left and a
period the collector keeps. The freshness filters guarantee this for votes, proposal-votes and
payloads, as long as no period in sight is the last one, whose successor wraps.
-/

namespace Novarand.Agreement

open Dict ProposalTrackerContract VoteTrackerContract

/-- The panics that are looked at: a nil router, as far as `ok` holds, and too many assemblers. -/
@[simp] def Unsafe (ok : Prop) : Panic → Prop
  | .nilRouter => ok
  | .assemblers => True
  | _ => False

/-- Every dispatch of the computation finds its router, as far as `ok` holds, and no round is entered
with too many assemblers. -/
abbrev Reaches (ok : Prop) {α : Type} (x : M α) : Prop := Avoids (Unsafe ok) x

variable {ok : Prop}

/-! ## The vote and proposal machines do not dispatch further -/

variable (c : VoteTrackerContract)

theorem VoteTrackerContract.pre_reaches (q : Step) : Reaches ok (c.pre q) := by
  unfold pre
  split_ifs <;> simp

theorem VoteTrackerContract.post_reaches (q : Step) (out : ThresholdEvent) :
    Reaches ok (c.post q out) := by
  unfold post
  split_ifs <;> simp

theorem makeBundle_reaches (proto : ConsensusParams) (pv : ProposalValue) (votes : List Vote)
    (pairs : List EquivocationVote) : Reaches ok (makeBundle proto pv votes pairs) := by
  unfold makeBundle
  cases votes with
  | nil => simp
  | cons _ _ =>
    dsimp only
    split_ifs <;> simp

variable (cfg : Consensus) (v : Vote)

namespace VoteTracker

variable (t : VoteTracker) (proto : ConsensusParams)

theorem overThreshold_reaches (q : Step) : Reaches ok (t.overThreshold proto q) := by
  unfold overThreshold
  split <;> simp

theorem genBundle_reaches (c : ProposalVoteCounter) : Reaches ok (t.genBundle proto c) := by
  unfold genBundle
  split
  · simp
  · dsimp only
    split
    · simp
    · exact makeBundle_reaches _ _ _ _

theorem report_reaches (before : Bool) (v : Vote) (proto : ConsensusVersion) :
    Reaches ok (t.report cfg before v proto) := by
  refine (t.overThreshold_reaches _ _).bind fun wn _ => ?_
  cases wn with
  | none => simp
  | some _ =>
    split_ifs
    · simp
    · exact (t.genBundle_reaches _ _).bind_pure

theorem voteAccepted_reaches (proto : ConsensusVersion) : Reaches ok (t.voteAccepted cfg v proto) := by
  unfold voteAccepted
  split
  · simp
  · refine (t.overThreshold_reaches _ _).bind fun _ _ => ?_
    split
    · exact report_reaches _ _ _ _ _
    · dsimp only
      split_ifs
      · simp
      · simp
      · simp
      · exact report_reaches _ _ _ _ _

end VoteTracker

theorem StepRouter.voteAccepted_reaches (sr : StepRouter) (v : Vote) (proto : ConsensusVersion) :
    Reaches ok (sr.voteAccepted cfg v proto) := by
  refine (pre_reaches _ _).bind fun _ _ => ?_
  refine (VoteTracker.voteAccepted_reaches _ _ _ _).bind fun _ _ => ?_
  exact (post_reaches _ _ _).bind_pure

variable (proto : ConsensusVersion) (e : ThresholdEvent)

namespace PeriodRouter

variable (pr : PeriodRouter)

/-- Steps are never collected. -/
theorem toStep_reaches {α : Type} (q : Step) {f : StepRouter → M (StepRouter × α)}
    (hf : ∀ sr, Reaches ok (f sr)) : Reaches ok (pr.toStep q f) := by
  simp only [toStep, update, lookup_touch, if_true]
  exact (hf _).bind_pure

theorem voteVerified_reaches : Reaches ok (pr.voteVerified v) := by
  apply Avoids.bind_pure
  unfold postVoteVerified
  dsimp only
  split_ifs <;> simp

theorem proposalFrozen_reaches : Reaches ok pr.proposalFrozen := by
  refine Avoids.bind ?_ fun _ _ => Avoids.bind_pure ?_
  · unfold preProposalFrozen
    split_ifs <;> simp
  · unfold postProposalFrozen
    split_ifs <;> simp

theorem stage_reaches : Reaches ok (pr.stage e) := by
  apply Avoids.bind_pure
  unfold preThreshold
  split_ifs <;> simp

theorem cacheThreshold_reaches : Reaches ok (pr.cacheThreshold e) := by
  unfold cacheThreshold
  split
  · split_ifs <;> simp
  · simp

theorem voteAccepted_reaches :
    Reaches ok (pr.voteAccepted cfg v proto) := by
  refine (toStep_reaches _ _ fun sr => sr.voteAccepted_reaches cfg v proto).bind fun _ _ => ?_
  dsimp only
  split_ifs
  · exact (cacheThreshold_reaches _ _).bind_pure
  · simp

end PeriodRouter

theorem ThresholdEvent.fresherThan_reaches (e o : ThresholdEvent) : Reaches ok (e.fresherThan o) := by
  unfold fresherThan
  cases e.t <;> cases o.t <;> dsimp only <;> (try split_ifs) <;> simp

/-! ## Dispatches below a round and below the root -/

theorem keepsPeriod_own {p : Period} (h : p + 1 < lastPeriod) : keepsPeriod p p = true :=
  keepsPeriod_self.mpr (by lia)

variable {e : ThresholdEvent} {p : Period} {v : Vote}

namespace RoundRouter

variable {pl : Player} (rr : RoundRouter) {α : Type}

/-- The router of a period which the collector drops is nil. -/
theorem toPeriod_dropped (f : PeriodRouter → M (PeriodRouter × α))
    (hk : keepsPeriod pl.period p = false) : rr.toPeriod pl p f = .error .nilRouter := by
  simp only [toPeriod, update, lookup_filterKeys, hk, Bool.false_eq_true, if_false]
  rfl

theorem toPeriod_reaches {f : PeriodRouter → M (PeriodRouter × α)}
    (hk : ok → keepsPeriod pl.period p = true) (hf : ∀ pr, Reaches ok (f pr)) :
    Reaches ok (rr.toPeriod pl p f) := by
  cases hp : keepsPeriod pl.period p with
  | false =>
    rw [toPeriod_dropped rr f hp]
    refine avoids_throw_iff.mpr fun ho => ?_
    rw [hk ho] at hp
    cases hp
  | true =>
    simp only [toPeriod, update, lookup_filterKeys, hp, lookup_touch, if_true]
    exact (hf _).bind_pure

theorem voteAccepted_reaches (hk : ok → keepsPeriod pl.period v.r.period = true) :
    Reaches ok (rr.voteAccepted cfg pl v proto) := by
  refine (toPeriod_reaches _ hk fun pr => pr.voteAccepted_reaches cfg v proto).bind fun x _ => ?_
  obtain ⟨_, e⟩ := x
  dsimp only
  split_ifs
  · refine (e.fresherThan_reaches _).bind fun _ _ => ?_
    split_ifs <;> simp
  · simp

theorem voteVerified_reaches (hk : ok → keepsPeriod pl.period v.r.period = true) :
    Reaches ok (rr.voteVerified pl v) := by
  refine (toPeriod_reaches _ hk fun pr => pr.voteVerified_reaches v).bind fun _ _ => ?_
  dsimp only
  split_ifs <;> simp

theorem readStaging_reaches (hk : ok → keepsPeriod pl.period p = true) :
    Reaches ok (rr.readStaging pl p) := by
  exact (toPeriod_reaches _ hk fun pr => avoids_pure _ _).bind_pure

section

variable (hok : ok → pl.period + 1 < lastPeriod)
include hok

theorem payloadVerified_reaches (pp : Proposal) : Reaches ok (rr.payloadVerified pl pp) := by
  unfold payloadVerified
  dsimp only
  split
  · simp
  · refine (readStaging_reaches _ fun ho => keepsPeriod_own (hok ho)).bind fun _ _ => ?_
    split_ifs <;> simp

theorem newPeriod_reaches (target : Period) (starting : ProposalValue) :
    Reaches ok (rr.newPeriod pl target starting) :=
  (readStaging_reaches _ fun ho => keepsPeriod_own (hok ho)).bind_pure

end

theorem threshold_reaches (hk : ok → keepsPeriod pl.period e.period = true) :
    Reaches ok (rr.threshold pl e) := by
  exact (toPeriod_reaches _ hk fun pr => pr.stage_reaches e).bind_pure

end RoundRouter

/-- A message of round `r` and period `p` finds its routers while the player is in `pl`. -/
def Kept (ok : Prop) (pl : Player) (r : Round) (p : Period) : Prop :=
  pl.round ≤ r ∧ (ok → keepsPeriod pl.period p = true)

section

variable {pl : Player} (hok : ok → pl.period + 1 < lastPeriod) {rv : RawVote}
include hok

theorem voteFresh_kept (h : voteFresh pl rv = .ok ()) : Kept ok pl rv.round rv.period := by
  unfold voteFresh prevPeriod at h
  simp only [Kept, keepsPeriod, nextPeriod, Bool.or_eq_true, decide_eq_true_eq] at h ⊢
  split_ifs at h ⊢ <;> lia

theorem proposalFresh_kept (h : proposalFresh pl rv = .ok ()) : Kept ok pl rv.round rv.period := by
  unfold proposalFresh at h
  simp only [Kept, keepsPeriod, nextPeriod, Bool.or_eq_true, decide_eq_true_eq] at h ⊢
  split_ifs at h ⊢ <;> lia

end

namespace RootRouter

variable {pl : Player} (rt : RootRouter) {r : Round} {α : Type}
  {f : RoundRouter → M (RoundRouter × α)}

theorem toRound_reaches (hr : pl.round ≤ r) (hf : ∀ rr, Reaches ok (f rr)) :
    Reaches ok (rt.toRound pl r f) := by
  simp only [toRound, update, lookup_filterKeys, hr, decide_true, lookup_touch, if_true]
  exact (hf _).bind_pure

section

variable (hok : ok → pl.period + 1 < lastPeriod)
include hok

theorem filterVote_reaches (rv : RawVote) : Reaches ok (rt.filterVote pl rv) := by
  unfold filterVote
  cases hf : voteFresh pl rv with
  | error _ => simp
  | ok u =>
    obtain ⟨hr, hk⟩ := voteFresh_kept hok hf
    dsimp only
    refine (rt.toRound_reaches hr fun rr => rr.toPeriod_reaches hk fun pr =>
      pr.toStep_reaches _ fun sr => avoids_pure _ _).bind fun _ _ => ?_
    split_ifs <;> simp

end

variable (cfg : Consensus) (proto : ConsensusVersion)

theorem voteAccepted_reaches (hk : Kept ok pl v.r.round v.r.period) :
    Reaches ok (rt.voteAccepted cfg pl v proto) :=
  rt.toRound_reaches hk.1 fun rr => rr.voteAccepted_reaches cfg proto hk.2

theorem playVotes_reaches {votes : List Vote} (hk : ∀ v ∈ votes, Kept ok pl v.r.round v.r.period)
    (te : ThresholdEvent) : Reaches ok (playVotes cfg pl proto rt votes te) := by
  induction votes generalizing rt te with
  | nil => exact avoids_pure _ _
  | cons v _ ih =>
    refine (rt.voteAccepted_reaches cfg proto (hk v List.mem_cons_self)).bind fun _ _ => ?_
    exact ih _ (fun w hw => hk w (List.mem_cons_of_mem _ hw)) _

section

variable (e : MessageEvent)

theorem bundlePresent_reaches : Reaches ok (rt.bundlePresent pl e) := by
  unfold bundlePresent
  split <;> simp

theorem payloadPresent_reaches : Reaches ok (rt.payloadPresent pl e) := by
  unfold payloadPresent
  dsimp only
  refine (toRound_reaches _ ?_ fun rr => avoids_pure _ _).bind fun x _ => ?_
  · split_ifs
    · exact le_rfl
    · exact Nat.le_succ _
  · obtain ⟨_, res⟩ := x
    cases res <;> simp

variable (hok : ok → pl.period + 1 < lastPeriod)
include hok

theorem votePresent_reaches : Reaches ok (rt.votePresent pl e) := by
  unfold votePresent
  split_ifs
  · simp
  · refine (filterVote_reaches _ hok _).bind fun _ _ => ?_
    dsimp only
    split_ifs <;> simp

theorem voteVerified_reaches : Reaches ok (rt.voteVerified cfg pl e) := by
  unfold voteVerified
  split_ifs
  · simp
  · simp
  · simp
  · refine (filterVote_reaches _ hok _).bind fun x hx => ?_
    obtain ⟨_, _⟩ := x
    dsimp only
    split_ifs with hd
    · simp
    · -- a vote that passes the filter is fresh
      have hf : voteFresh pl e.input.vote.r = .ok () := by
        unfold filterVote at hx
        cases hv : voteFresh pl e.input.vote.r with
        | error _ =>
          simp only [hv, pure_pair] at hx
          exact absurd hx.2 (by rw [not_not.mp hd]; simp)
        | ok u => rfl
      refine (voteAccepted_reaches _ cfg _ (voteFresh_kept hok hf)).bind fun _ _ => ?_
      split_ifs <;> simp

theorem proposalVotePresent_reaches : Reaches ok (rt.proposalVotePresent pl e) := by
  refine Avoids.bind ?_ fun _ _ => ?_
  · unfold filterProposalVote
    cases hf : proposalFresh pl e.input.unauthenticatedVote.r with
    | error _ => simp
    | ok u =>
      obtain ⟨hr, hk⟩ := proposalFresh_kept hok hf
      dsimp only
      refine (toRound_reaches _ hr fun rr => rr.toPeriod_reaches hk fun pr =>
        avoids_pure _ _).bind fun _ _ => ?_
      split_ifs <;> simp
  · dsimp only
    split_ifs <;> simp

theorem proposalVoteVerified_reaches : Reaches ok (rt.proposalVoteVerified pl e) := by
  unfold proposalVoteVerified
  split_ifs
  · simp
  · simp
  · cases hf : proposalFresh pl e.input.vote.r with
    | error _ => simp [hf]
    | ok u =>
      obtain ⟨hr, hk⟩ := proposalFresh_kept hok hf
      simp only [hf]
      refine (toRound_reaches _ hr fun rr => rr.voteVerified_reaches hk).bind fun x _ => ?_
      split <;> simp

theorem payloadVerified_reaches : Reaches ok (rt.payloadVerified pl e) := by
  unfold payloadVerified
  split_ifs
  · simp
  · simp
  · exact toRound_reaches _ le_rfl fun rr => rr.payloadVerified_reaches hok _

end

section

variable (hok : ok → pl.period + 1 < lastPeriod)
include hok

theorem handleNewPeriod_reaches (hr : e.round = pl.round) : Reaches ok (rt.handleNewPeriod pl e) :=
  toRound_reaches _ hr.ge fun rr => rr.newPeriod_reaches hok _ _

/-- The proposal machines take a threshold of a kept period. -/
theorem threshold_reaches (hk : ok → keepsPeriod pl.period e.period = true) :
    Reaches ok (rt.threshold pl r e) := by
  refine Avoids.bind ?_ fun _ hp => ?_
  · unfold proposalManagerPre
    split_ifs <;> simp
  have hr := proposalManagerPre_round hp
  have hs : ∀ rt1 : RootRouter,
      Reaches ok (rt1.toRound pl e.round fun rr => rr.threshold pl e) :=
    fun rt1 => rt1.toRound_reaches hr.ge fun rr => rr.threshold_reaches hk
  cases e.t with
  | none => simp
  | nextThreshold => exact (handleNewPeriod_reaches _ hok hr).bind_pure
  | softThreshold | certThreshold =>
    split_ifs
    · exact (handleNewPeriod_reaches _ hok hr).bind fun _ _ => hs _
    · exact hs _

end

end RootRouter

end Novarand.Agreement
