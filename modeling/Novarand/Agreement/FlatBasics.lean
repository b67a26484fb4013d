import Novarand.Agreement.Counting
import Novarand.Agreement.Flat

/-!
# Basic facts of the flat machine

Votes are counted by two kinds of step only, and every other step leaves the vote machines alone.
From this: a tracker only holds votes of its own round, period and step, and the freshest threshold
of a round is a threshold of that round whose bundle has the same coordinates.
-/

namespace Novarand.Agreement.Flat

open RoundState VoteTracker

/-! ## Reading an effect -/

section Effects

variable (R : RoundState) (pl : Player) (e : ThresholdEvent) (p q : Period) (P : PeriodState)

@[simp] theorem RoundState.newPeriod_period (target : Period) (v : ProposalValue) :
    (R.newPeriod pl target v).period = R.period := rfl

theorem RoundState.setPeriod_period :
    (R.setPeriod p P).period q = if q = p then P else R.period q := by
  simp [setPeriod, Function.update_apply]

@[simp] theorem RoundState.threshold_fresh : (R.threshold pl e).fresh = R.fresh := by
  unfold threshold
  split_ifs <;> rfl

theorem RoundState.threshold_period :
    (R.threshold pl e).period q = if q = e.period then (R.period e.period).stage e
      else R.period q := by
  unfold threshold
  split_ifs with hl hq hq <;> simp [setPeriod_period, hq]

@[simp] theorem RoundState.threshold_staging : (R.threshold pl e).staging e.period = e.proposal := by
  rw [staging, threshold_period, if_pos rfl]
  rfl

@[simp] theorem State.setRound_player (s : State) (r : Round) :
    (s.setRound r R).player = s.player := rfl

theorem State.setRound_rounds (s : State) (r r' : Round) :
    (s.setRound r R).rounds r' = if r' = r then R else s.rounds r' := by
  simp [setRound, Function.update_apply]

end Effects

/-! ## The vote machines -/

/-- The vote machines of two states agree. -/
def SameVotes (s s' : State) : Prop :=
  ∀ r, (s'.rounds r).fresh = (s.rounds r).fresh ∧ ∀ p,
    ((s'.rounds r).period p).step = ((s.rounds r).period p).step ∧
    ((s'.rounds r).period p).cached = ((s.rounds r).period p).cached

variable {cfg : Consensus} {D : State → Input → Prop} {s s' : State} {obs : List Obs}

variable {R : RoundState} {e te : ThresholdEvent}

/-- The player's round after a step that changes only this one. -/
theorem State.cur_update (hr : s'.rounds = Function.update s.rounds s.player.round R)
    (ho : s'.player.round = s.player.round) : s'.cur = R := by
  rw [cur, ho, hr, Function.update_self]

section

variable {r₀ : Round} (hs' : s'.rounds = Function.update s.rounds r₀ R)
  (hfr : R.fresh = (s.rounds r₀).fresh)
include hs' hfr

theorem SameVotes.update (hp : ∀ p, (R.period p).step = ((s.rounds r₀).period p).step ∧
      (R.period p).cached = ((s.rounds r₀).period p).cached) : SameVotes s s' := by
  intro r
  rw [hs', Function.update_apply]
  split_ifs with h
  · subst h
    exact ⟨hfr, hp⟩
  · exact ⟨rfl, fun p => ⟨rfl, rfl⟩⟩

/-- One period of one round changes, and keeps its vote machines. -/
theorem SameVotes.setPeriod {p0 : Period} {P : PeriodState}
    (he : ∀ p, R.period p = if p = p0 then P else (s.rounds r₀).period p)
    (hs : P.step = ((s.rounds r₀).period p0).step)
    (hc : P.cached = ((s.rounds r₀).period p0).cached) : SameVotes s s' := by
  refine .update hs' hfr fun p => ?_
  rw [he]
  split_ifs with hp
  · rw [hp]
    exact ⟨hs, hc⟩
  · exact ⟨rfl, rfl⟩

end

/-- The proposal machines of two states agree. -/
def SameProposals (s s' : State) : Prop :=
  ∀ r, (s'.rounds r).store = (s.rounds r).store ∧ ∀ p,
    ((s'.rounds r).period p).tracker = ((s.rounds r).period p).tracker ∧
    ((s'.rounds r).period p).contract = ((s.rounds r).period p).contract

/-- A vote was counted: the effect on the vote machines, and nothing else. -/
structure Counted (cfg : Consensus) (D : State → Input → Prop) (s s' : State)
    (v : Vote) (proto : ConsensusVersion) (sr : StepRouter) (te : ThresholdEvent) : Prop where
  delivered : D s (.vote v proto)
  deliverable : Deliverable s.player v.r
  count : (((s.rounds v.r.round).period v.r.period).step v.r.step).voteAccepted cfg v proto
    = .ok (sr, te)
  player : s'.player = s.player
  proposals : SameProposals s s'
  recorded : ((s'.rounds v.r.round).period v.r.period).step =
    Function.update ((s.rounds v.r.round).period v.r.period).step v.r.step sr
  cached : ((s'.rounds v.r.round).period v.r.period).cached =
    if te.t ≠ .none ∧ next ≤ te.step then
      cacheNext ((s.rounds v.r.round).period v.r.period).cached te.proposal
    else ((s.rounds v.r.round).period v.r.period).cached
  others : ∀ r p, (r, p) ≠ (v.r.round, v.r.period) →
    ((s'.rounds r).period p) = ((s.rounds r).period p)
  fresh : ∀ r, (s'.rounds r).fresh = (s.rounds r).fresh ∧
      (r = v.r.round → te.t = .none ∨ te.fresherThan (s.rounds r).fresh.freshest = .ok false) ∨
    r = v.r.round ∧ te.t ≠ .none ∧ te.fresherThan (s.rounds r).fresh.freshest = .ok true ∧
      (s'.rounds r).fresh = { freshest := te, ok := true }
  pending : s'.pending = s.pending ∨
    v.r.round = s.player.round ∧ s'.pending = some te ∧
      (s'.rounds s.player.round).fresh = { freshest := te, ok := true }

variable {proto : ConsensusVersion} {sr : StepRouter} {v : Vote}

/-- The vote machines of the vote's period record it, and the rest of the round stays. -/
theorem Counted.record (hD : D s (.vote v proto)) (hv : Deliverable s.player v.r)
    (hc : (((s.rounds v.r.round).period v.r.period).step v.r.step).voteAccepted cfg v proto
      = .ok (sr, te)) (hl : s'.player = s.player)
    (ho : s'.rounds = Function.update s.rounds v.r.round R)
    (hs : R.store = (s.rounds v.r.round).store)
    (he : R.period = ((s.rounds v.r.round).setPeriod v.r.period
      (((s.rounds v.r.round).period v.r.period).recordVote v.r.step sr te)).period)
    (hfr : R.fresh = (s.rounds v.r.round).fresh ∧
        (te.t = .none ∨ te.fresherThan (s.rounds v.r.round).fresh.freshest = .ok false) ∨
      te.t ≠ .none ∧ te.fresherThan (s.rounds v.r.round).fresh.freshest = .ok true ∧
        R.fresh = { freshest := te, ok := true })
    (h2 : s'.pending = s.pending ∨ v.r.round = s.player.round ∧ s'.pending = some te ∧
      (s'.rounds s.player.round).fresh = { freshest := te, ok := true }) :
    Counted cfg D s s' v proto sr te := by
  have hn : ∀ r, s'.rounds r = if r = v.r.round then R else s.rounds r := fun r => by
    rw [ho, Function.update_apply]
  have h1 : ∀ p, R.period p = if p = v.r.period then
      ((s.rounds v.r.round).period v.r.period).recordVote v.r.step sr te
      else (s.rounds v.r.round).period p := fun p => by rw [he, setPeriod_period]
  refine ⟨hD, hv, hc, hl, fun r => ?_, ?_, ?_, fun r p hne => ?_, fun r => ?_, h2⟩
  · rw [hn]
    split_ifs with hr
    · subst hr
      refine ⟨hs, fun p => ?_⟩
      rw [h1]
      split_ifs with hp
      · rw [hp]
        exact ⟨rfl, rfl⟩
      · exact ⟨rfl, rfl⟩
    · exact ⟨rfl, fun p => ⟨rfl, rfl⟩⟩
  · rw [hn, if_pos rfl, h1, if_pos rfl]
    rfl
  · rw [hn, if_pos rfl, h1, if_pos rfl]
    rfl
  · rw [hn]
    split_ifs with hr
    · subst hr
      rw [h1, if_neg fun hp => hne (by rw [hp])]
    · rfl
  · rw [hn]
    split_ifs with hr
    · subst hr
      exact hfr.imp (fun h => ⟨h.1, fun _ => h.2⟩) fun h => ⟨rfl, h⟩
    · exact .inl ⟨rfl, fun h => absurd h hr⟩

/-- Every step either counts one vote or leaves the vote machines alone. -/
theorem Move.votes (h : Move cfg D s obs s') :
    (SameVotes s s' ∧ ∀ v proto, .saw v proto ∉ obs) ∨
      ∃ v proto sr te, obs = [.saw v proto] ∧ Counted cfg D s s' v proto sr te := by
  cases h with
  | idle p _ hp ha =>
    refine .inl ⟨fun r => ⟨rfl, fun p => ⟨rfl, rfl⟩⟩, ?_⟩
    intro v proto hm
    obtain ⟨a, -, ha⟩ := List.mem_map.mp hm
    cases ha
  | proposalVote v t _ c P hD hfr hP _ hc =>
    subst hP
    exact .inl ⟨.setPeriod rfl rfl (fun p => setPeriod_period _ _ p _) rfl rfl, by simp⟩
  | pipeline | bind | advance => exact .inl ⟨.update rfl rfl fun p => ⟨rfl, rfl⟩, by simp⟩
  | count v proto sr te hD hv hn hs =>
    exact .inr ⟨v, proto, sr, te, rfl, .record hD hv hn rfl rfl rfl rfl (.inl ⟨rfl, hs⟩) (.inl rfl)⟩
  | reach v proto sr te hD hv hn he hfr =>
    refine .inr ⟨v, proto, sr, te, rfl, .record hD hv hn rfl rfl rfl rfl (.inr ⟨he, hfr, rfl⟩) ?_⟩
    simp only [State.setRound_rounds]
    by_cases hr : v.r.round = s.player.round
    · exact .inr ⟨hr, by rw [if_pos hr], by rw [if_pos hr.symm]⟩
    · exact .inl (by rw [if_neg hr])
  | stage e | forward e =>
    exact .inl ⟨.setPeriod rfl (threshold_fresh _ _ _)
      (fun p => threshold_period _ _ e p) rfl rfl, by simp⟩
  | softTimeout p c _ _ _ hc hp =>
    refine .inl ⟨.setPeriod rfl rfl (fun p => setPeriod_period _ _ p _) rfl rfl, ?_⟩
    split <;> simp
  | ignore | await | certVote | commit | interrupt | certTimeout | nap | nextVote | fastVote =>
    exact .inl ⟨fun r => ⟨rfl, fun p => ⟨rfl, rfl⟩⟩, by simp⟩

/-! ## Well-formed states -/

/-- Votes of one round, period and step. -/
def At (r : Round) (p : Period) (q : Step) (v : Vote) : Prop :=
  v.r.round = r ∧ v.r.period = p ∧ v.r.step = q

/-- A threshold of round `r`, with a bundle for the same period and value. -/
structure IsThreshold (r : Round) (e : ThresholdEvent) : Prop where
  t : e.t = thresholdType e.step
  step : e.step ≠ propose
  round : e.round = r
  bundleRound : e.bundle.round = r
  bundlePeriod : e.bundle.period = e.period
  bundleProposal : e.bundle.proposal = e.proposal
  value : e.t = .softThreshold ∨ e.t = .certThreshold → e.proposal ≠ bottom

theorem IsThreshold.ne_none {r : Round} (h : IsThreshold r e) : e.t ≠ .none := by
  rw [h.t]
  exact thresholdType_ne_none _

/-- A pending threshold is the freshest of the player's round, and of a period still kept. -/
structure PendingOk (s : State) (e : ThresholdEvent) : Prop where
  fresh : s.cur.fresh = { freshest := e, ok := true }
  kept : keepsPeriod s.player.period e.period = true

/-- Trackers hold votes of their own step, and the freshest threshold of a round is one of that
round. -/
structure Wf (s : State) : Prop where
  held : ∀ r p q, (((s.rounds r).period p).step q).voteTracker.Holds (At r p q)
  fresh : ∀ r, (s.rounds r).fresh.ok = true → IsThreshold r (s.rounds r).fresh.freshest
  stale : ∀ r, (s.rounds r).fresh.ok = false → (s.rounds r).fresh.freshest.t = .none
  pendingOk : ∀ e, s.pending = some e → PendingOk s e

theorem Wf.pending (hw : Wf s) (e : ThresholdEvent) (he : s.pending = some e) :
    s.cur.fresh = { freshest := e, ok := true } := (hw.pendingOk e he).fresh

/-- A pending threshold is one of the player's round. -/
theorem Wf.isThreshold (hw : Wf s) (he : s.pending = some e) : IsThreshold s.player.round e := by
  have hfr : (s.rounds s.player.round).fresh = _ := hw.pending e he
  have ht := hw.fresh s.player.round (by rw [hfr])
  rwa [hfr] at ht

theorem Wf.initial (pl : Player) : Wf { player := pl } where
  held _ _ _ := holds_empty
  fresh _ h := by cases h
  stale _ _ := rfl
  pendingOk _ h := by cases h

theorem State.startRound_pending {target : Round} {deadline : Duration}
    (he : (s.startRound target deadline).pending = some e) :
    PendingOk (s.startRound target deadline) e := by
  have hp : (s.startRound target deadline).pending =
      if (s.startRound target deadline).cur.fresh.ok then
        some (s.startRound target deadline).cur.fresh.freshest else none := rfl
  rw [hp] at he
  split_ifs at he with ho
  rw [Option.some.injEq] at he
  exact ⟨by rw [← he, ← ho], by simp [State.startRound, State.enterRound, keepsPeriod]⟩

theorem Wf.startRound (hw : Wf s) (target : Round) (deadline : Duration) :
    Wf (s.startRound target deadline) where
  held := hw.held
  fresh := hw.fresh
  stale := hw.stale
  pendingOk _ he := State.startRound_pending he

/-- A threshold which a well-formed state emits on a vote of its own. -/
theorem Counted.isThreshold (h : Counted cfg D s s' v proto sr te)
    (hh : (((s.rounds v.r.round).period v.r.period).step v.r.step).voteTracker.Holds
      (At v.r.round v.r.period v.r.step)) :
    sr.voteTracker.Holds (At v.r.round v.r.period v.r.step) ∧
      (te.t ≠ .none → IsThreshold v.r.round te ∧ te.period = v.r.period ∧ te.step = v.r.step) := by
  obtain ⟨hs, ha, -, -, hv⟩ := StepRouter.voteAccepted_ok h.count
  obtain ⟨hh', rfl | ⟨hr, -⟩⟩ := voteAccepted_holds hh ⟨rfl, rfl, rfl⟩ ha
  · exact ⟨hh', fun h => absurd rfl h⟩
  · refine ⟨hh', fun _ => ⟨?_, hr.period, hr.step⟩⟩
    obtain ⟨w, ⟨hw₁, hw2, -⟩, hb1, hb2, -⟩ := hr.bundle
    exact
      { t := by rw [hr.step]; exact hr.t
        step := by rw [hr.step]; exact hs
        round := hr.round
        bundleRound := hb1.trans hw₁
        bundlePeriod := by rw [hb2, hw2, hr.period]
        bundleProposal := hr.proposal
        value := hv }

theorem Move.pending (h : Move cfg D s obs s') (hs : Wf s) :
    ∀ e, s'.pending = some e → PendingOk s' e := by
  have h1 : ∀ {e : ThresholdEvent} (r : Round) (R : RoundState),
      s.pending = some e → R.fresh = (s.rounds r).fresh → PendingOk (s.setRound r R) e := by
    intro e r R he hR
    refine ⟨?_, (hs.pendingOk e he).kept⟩
    rw [← hs.pending e he]
    simp only [State.cur, State.setRound_rounds, State.setRound_player]
    split_ifs with h
    · rw [hR, ← h]
    · rfl
  intro e he
  cases h with
  | idle p _ hp _ =>
    obtain ⟨hf, hk⟩ := hs.pendingOk e he
    exact ⟨by simpa only [State.cur, hp.round] using hf, by simpa only [hp.period] using hk⟩
  | proposalVote | pipeline | bind | count => exact h1 _ _ he rfl
  | reach v proto sr te hD hv hn ht hfr =>
    by_cases hr : v.r.round = s.player.round
    · rw [if_pos hr, Option.some.injEq] at he
      subst he
      refine ⟨by simp [State.cur, State.setRound_rounds, if_pos hr.symm], ?_⟩
      obtain ⟨-, ha, -⟩ := StepRouter.voteAccepted_ok hn
      rcases (voteAccepted_holds (hs.held _ _ _) ⟨rfl, rfl, rfl⟩ ha).2 with rfl | ⟨hp, -⟩
      · exact absurd rfl ht
      · rw [hp.period]
        rcases hv with hv | ⟨hv, -⟩
        · exact hv.2
        · lia
    · rw [if_neg hr] at he
      obtain ⟨hf, hk⟩ := hs.pendingOk e he
      refine ⟨?_, hk⟩
      simpa only [State.cur, State.setRound_rounds, State.setRound_player, if_neg (Ne.symm hr)]
        using hf
  | stage _ hn _ _ _ _ =>
    split_ifs at he with hf
    obtain ⟨h2, h3⟩ := h1 s.player.round (s.cur.threshold s.player _) he (threshold_fresh _ _ _)
    exact ⟨h2, h3⟩
  | ignore | forward | await | advance => cases he
  | certVote v hn _ _ _ _ => exact hs.pendingOk e he
  | commit | interrupt => exact State.startRound_pending he
  | softTimeout p c hn | certTimeout p hn | nap p hn | nextVote p hn
  | fastVote p hD hn => exact absurd (hn.symm.trans he) (by simp)

/-- **Well-formedness is preserved** by every step. -/
theorem Move.wf (h : Move cfg D s obs s') (hs : Wf s) : Wf s' := by
  rcases h.votes with ⟨hm, -⟩ | ⟨v, _, _, _, -, hc⟩
  · refine ⟨fun r p q => ?_, fun r hr => ?_, fun r hr => ?_, h.pending hs⟩
    · rw [((hm r).2 p).1]
      exact hs.held r p q
    · rw [(hm r).1] at hr ⊢
      exact hs.fresh r hr
    · rw [(hm r).1] at hr ⊢
      exact hs.stale r hr
  · obtain ⟨hh, ht⟩ := hc.isThreshold (hs.held _ _ _)
    refine ⟨fun r p q => ?_, fun r hr => ?_, fun r hr => ?_, h.pending hs⟩
    · by_cases hp : (r, p) = (v.r.round, v.r.period)
      · obtain ⟨rfl, rfl⟩ := Prod.mk.inj hp
        rw [hc.recorded, Function.update_apply]
        split_ifs with hq
        · subst hq
          exact hh
        · exact hs.held _ _ q
      · rw [hc.others r p hp]
        exact hs.held r p q
    · rcases hc.fresh r with ⟨he, -⟩ | ⟨rfl, hn, -, he⟩
      · rw [he] at hr ⊢
        exact hs.fresh r hr
      · rw [he]
        exact (ht hn).1
    · rcases hc.fresh r with ⟨he, -⟩ | ⟨rfl, hn, -, he⟩
      · rw [he] at hr ⊢
        exact hs.stale r hr
      · rw [he] at hr
        cases hr

end Novarand.Agreement.Flat
