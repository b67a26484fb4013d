import Novarand.Agreement.Dispatch
import Novarand.Agreement.Position

/-!
# Which events make a dispatch hit nil

The freshest threshold of the round is of a period the collector keeps, so whatever the player does on
its own — timeouts, thresholds, entering periods and rounds — finds its routers. The filters do the
same for messages, with one exception: a bundle may be fresh in a period whose router is collected as
soon as it is created, a cert bundle in any old period and every bundle in the last one. All this is
below the last period, where the successor of the player's own period wraps. No round is entered with
too many assemblers in its store, at any time.
-/

namespace Novarand.Agreement

open Flat Machine RootRouter

/-! ## The freshest threshold is of a kept period -/

namespace Flat

variable {cfg : Consensus} {D : State → Input → Prop} {s s' : State} {obs : List Obs}

/-- The collector keeps the period of the freshest threshold of the round. -/
def FreshKept (s : State) : Prop :=
  s.player.period + 1 < lastPeriod → s.cur.fresh.ok = true →
    keepsPeriod s.player.period s.cur.fresh.freshest.period = true

theorem keepsPeriod_target {e : ThresholdEvent} (h : e.target + 1 < lastPeriod) :
    keepsPeriod e.target e.period = true := by
  unfold ThresholdEvent.target keepsPeriod at *
  split_ifs at *
  · simp
  · exact keepsPeriod_own h

theorem FreshKept.of_zero (hp : s.player.period = 0) : FreshKept s := fun _ _ => by
  rw [hp]
  simp [keepsPeriod]

theorem Move.freshKept (h : Move cfg D s obs s') (hw : Wf s) (hs : FreshKept s) : FreshKept s' := by
  intro hb ho
  rcases h.votes with ⟨h3, -⟩ | ⟨v, _, _, te, -, h2⟩
  · -- the vote machines did not move, so only the player may have
    have h4 : ∀ r, (s'.rounds r).fresh = (s.rounds r).fresh := fun r => (h3 r).1
    cases h.shift with
    | stay _ h1 _ _ hf =>
      rw [hf] at ho ⊢
      rw [h1] at hb ⊢
      exact hs hb ho
    | reach te hl _ _ hf =>
      have hc : s'.cur.fresh = s.cur.fresh := by
        rw [State.cur, hl]
        exact h4 _
      rw [hc] at ho ⊢
      rw [hl] at hb ⊢
      exact hs hb ho
    | resolve e he _ _ hf _ hm =>
      rw [hf] at ho ⊢
      rcases hm with h3 | ⟨-, h1, -⟩
      · rw [h3] at hb ⊢
        exact hs hb ho
      · rw [h1] at hb ⊢
        rw [hw.pending e he]
        exact keepsPeriod_target hb
    | newRound _ h1 => exact FreshKept.of_zero h1 hb ho
  · rw [State.cur, h2.player] at ho ⊢
    rw [h2.player] at hb
    rcases h2.fresh s.player.round with ⟨hf, -⟩ | ⟨hr, ht, -, hf⟩
    · rw [hf] at ho ⊢
      exact hs hb ho
    · obtain ⟨-, hp, -⟩ := (h2.isThreshold (hw.held _ _ _)).2 ht
      rw [hf, hp]
      rcases h2.deliverable with ⟨-, hk⟩ | ⟨hn, -⟩
      · exact hk
      · rw [← hr] at hn
        exact absurd hn (Nat.succ_ne_self _).symm

/-- What a dispatch rests on in every state of a run. -/
structure Tidy (s : State) : Prop where
  wf : Wf s
  fresh : FreshKept s
  ahead : AheadOk s

theorem Tidy.initial {pl : Player} (hp : pl.period = 0) : Tidy { player := pl } :=
  ⟨Wf.initial _, .of_zero hp, fun _ _ => ⟨bottom, rfl, .inl rfl, nofun⟩⟩

theorem Move.tidy (h : Move cfg D s obs s') (hs : Tidy s) : Tidy s' :=
  ⟨h.wf hs.wf, h.freshKept hs.wf hs.fresh, h.ahead hs.ahead⟩

theorem tidy_of_steps (h : Steps (Move cfg D) s obs s') (hs : Tidy s) : Tidy s' :=
  h.invariant (fun _ _ _ hP hm => hm.tidy hP) hs

section

variable (ht : Tidy s)
include ht

theorem Tidy.startRound {target : Round} (hl : s.player.round < target) (deadline : Duration) :
    Tidy (s.startRound target deadline) :=
  ⟨ht.wf.startRound _ _, .of_zero rfl, fun r hr => ht.ahead r (hl.trans hr)⟩

/-- The clock and the step of the player do not matter. -/
theorem Tidy.withPlayer {p : Player} (hr : p.round = s.player.round)
    (hp : p.period = s.player.period) : Tidy { s with player := p } where
  wf := ⟨ht.wf.held, ht.wf.fresh, ht.wf.stale, fun e he =>
    ⟨by simpa only [State.cur, hr] using ht.wf.pending e he,
      by simpa only [hp] using (ht.wf.pendingOk e he).kept⟩⟩
  fresh := by simpa only [FreshKept, State.cur, hr, hp] using ht.fresh
  ahead := by simpa only [AheadOk, hr] using ht.ahead

end

end Flat

/-! ## The player's questions -/

variable (fuel : ℕ) {rt rt' : RootRouter} {pl : Player} {ok : Prop}

section Player

variable {cfg : Consensus} {m m' : Machine} {s : State}

variable {p target : Period} {r : Round} {e : MessageEvent}

theorem Machine.query_reaches {α : Type} {f : RoundRouter → M (RoundRouter × α)}
    (hr : m.player.round ≤ r) (hf : ∀ rr, Reaches ok (f rr)) :
    Reaches ok (m.router.toRound m.player r f >>= fun x => pure ({ m with router := x.1 }, x.2)) :=
  (toRound_reaches _ hr hf).bind_pure

theorem Machine.stagedValue_reaches (hk : Kept ok m.player r p) : Reaches ok (m.stagedValue r p) :=
  query_reaches hk.1 fun rr => rr.readStaging_reaches hk.2

theorem Machine.pinnedValue_reaches (hr : m.player.round ≤ r) : Reaches ok (m.pinnedValue r) :=
  query_reaches hr fun _ => avoids_pure _ _

theorem Machine.freshestBundle_reaches : Reaches ok m.freshestBundle :=
  query_reaches le_rfl fun _ => avoids_pure _ _

theorem Machine.nextThresholdStatus_reaches (hk : ok → keepsPeriod m.player.period p = true) :
    Reaches ok (m.nextThresholdStatus p) :=
  query_reaches le_rfl fun rr => rr.toPeriod_reaches hk fun _ => avoids_pure _ _

theorem keepsPeriod_prev {k : Period} (h : k + 1 < lastPeriod) :
    keepsPeriod k (prevPeriod k) = true := by
  simp only [keepsPeriod, prevPeriod, nextPeriod, Bool.or_eq_true]
  split_ifs <;> lia

section

variable (hok : ok → m.player.period + 1 < lastPeriod)
include hok

theorem Machine.proposalFrozen_reaches : Reaches ok m.proposalFrozen :=
  query_reaches le_rfl fun rr => rr.toPeriod_reaches (fun ho => keepsPeriod_own (hok ho)) fun pr =>
    pr.proposalFrozen_reaches

theorem Machine.dumpVotes_reaches (q : Step) : Reaches ok (m.dumpVotes q) :=
  query_reaches le_rfl fun rr => rr.toPeriod_reaches (fun ho => keepsPeriod_own (hok ho)) fun pr =>
    pr.toStep_reaches _ fun _ => avoids_pure _ _

end

theorem Rel.relayStaged_reaches (h : Rel m s) (hk : Kept ok s.player r p) :
    Reaches ok (m.relayStaged r p) := by
  rw [← h.player] at hk
  refine (stagedValue_reaches hk).bind fun x hx => ?_
  obtain ⟨m1, _⟩ := x
  have h1 := (h.stagedValue hx).1
  dsimp only
  split_ifs
  · simp
  · have hr : m1.player.round ≤ r := by
      rw [h1.player, ← h.player]
      exact hk.1
    refine (pinnedValue_reaches hr).bind fun _ _ => ?_
    split_ifs <;> simp

section

variable (hok : ok → s.player.period + 1 < lastPeriod)
include hok

theorem Rel.partitionPolicy_reaches (h : Rel m s) (ht : Tidy s) : Reaches ok m.partitionPolicy := by
  unfold Machine.partitionPolicy
  split_ifs
  · refine freshestBundle_reaches.bind fun x hx => ?_
    obtain ⟨m1, _⟩ := x
    obtain ⟨h1, rfl⟩ := h.freshestBundle hx
    dsimp only
    generalize (if s.cur.fresh.ok then
      [Action.broadcast (.bundle s.cur.fresh.freshest.bundle)] else []) = a0
    by_cases hb : s.cur.fresh.ok = true ∧ s.cur.fresh.freshest.bundle.proposal ≠ bottom
    · -- the period of the freshest bundle
      rw [if_pos hb]
      have hi := ht.wf.fresh s.player.round hb.1
      have hk : Kept ok s.player s.cur.fresh.freshest.bundle.round
          s.cur.fresh.freshest.bundle.period := by
        refine ⟨hi.bundleRound.ge, fun ho => ?_⟩
        rw [show s.cur.fresh.freshest.bundle.period = s.cur.fresh.freshest.period from
          hi.bundlePeriod]
        exact ht.fresh (hok ho) hb.1
      exact (h1.relayStaged_reaches hk).bind_pure
    · split_ifs
      · have hk : Kept ok s.player m1.player.round m1.player.period := by
          rw [h1.player]
          exact ⟨le_rfl, fun ho => keepsPeriod_own (hok ho)⟩
        exact (h1.relayStaged_reaches hk).bind_pure
      · simp
  · simp

/-! ## Votes of the player -/

theorem Rel.issueSoftVote_reaches (h : Rel m s) : Reaches ok m.issueSoftVote := by
  rw [← h.player] at hok
  refine (proposalFrozen_reaches hok).bind fun x hx => ?_
  simp only [Machine.proposalFrozen, bind_ok, Prod.exists, pure_ok] at hx
  obtain ⟨_, _, -, rfl⟩ := hx
  refine (nextThresholdStatus_reaches ?_).bind_pure
  exact fun ho => keepsPeriod_prev (hok ho)

theorem Rel.nextVoteValue_reaches (h : Rel m s) : Reaches ok m.nextVoteValue := by
  have ho : ok → m.player.period + 1 < lastPeriod := by rwa [h.player]
  refine (stagedValue_reaches ⟨le_rfl, fun h => keepsPeriod_own (ho h)⟩).bind fun x hx => ?_
  obtain ⟨m1, _⟩ := x
  have h1 := (h.stagedValue hx).1
  dsimp only
  split_ifs
  · simp
  · refine (nextThresholdStatus_reaches fun h => keepsPeriod_prev ?_).bind_pure
    rw [h1.player]
    exact hok h

omit hok in
theorem Machine.randomDelta_reaches (entropy : ℕ) (lower upper : Duration) :
    Reaches ok (randomDelta entropy lower upper) := by
  unfold randomDelta
  dsimp only
  split_ifs <;> simp

section

variable (h : Rel m s) (ht : Tidy s)
include h ht

theorem Rel.issueNextVote_reaches : Reaches ok m.issueNextVote := by
  refine (h.partitionPolicy_reaches hok ht).bind fun _ hx => ?_
  exact ((h.partitionPolicy hx).1.nextVoteValue_reaches hok).bind_pure

theorem Rel.issueFastVote_reaches : Reaches ok m.issueFastVote := by
  refine (h.partitionPolicy_reaches hok ht).bind fun _ hx => ?_
  have h1 := (h.partitionPolicy hx).1
  refine (dumpVotes_reaches (h1.player.symm ▸ hok) _).bind fun _ hx => ?_
  have h2 := h1.dumpVotes hx
  refine (dumpVotes_reaches (h2.player.symm ▸ hok) _).bind fun _ hx => ?_
  have h3 := h2.dumpVotes hx
  refine (dumpVotes_reaches (h3.player.symm ▸ hok) _).bind fun _ hx => ?_
  exact ((h3.dumpVotes hx).nextVoteValue_reaches hok).bind_pure

theorem Rel.handleTimeout_reaches (entropy : ℕ) : Reaches ok (m.handleTimeout entropy) := by
  unfold Machine.handleTimeout
  split_ifs
  · exact (h.issueSoftVote_reaches hok).bind_pure
  · have hr : Rel { m with player := { m.player with step := next } }
        { s with player := { s.player with step := next } } := ⟨by rw [h.player], h.router⟩
    refine hr.issueNextVote_reaches ?_ (ht.withPlayer rfl rfl)
    exact hok
  · exact h.issueNextVote_reaches hok ht
  · exact (randomDelta_reaches _ _ _).bind_pure

theorem Rel.handleFastTimeout_reaches (entropy : ℕ) (proto : ConsensusVersionView) :
    Reaches ok (m.handleFastTimeout cfg entropy proto) := by
  have hv : ∀ d : Duration, Reaches ok (Machine.issueFastVote
      { m with player := { m.player with fastRecoveryDeadline := d } }) := by
    intro d
    have hr : Rel { m with player := { m.player with fastRecoveryDeadline := d } }
        { s with player := { s.player with fastRecoveryDeadline := d } } :=
      ⟨by rw [h.player], h.router⟩
    refine hr.issueFastVote_reaches ?_ (ht.withPlayer rfl rfl)
    exact hok
  unfold Machine.handleFastTimeout
  dsimp only
  split_ifs
  · simp
  · simp
  all_goals refine (Machine.randomDelta_reaches _ _ _).bind fun _ _ => ?_
  · exact avoids_pure _ _
  · exact hv _

end

/-! ## Thresholds -/

theorem Rel.enterPeriod_reaches {e : ThresholdEvent} (h : Rel m s) (ht : Tidy s)
    (hk : ok → keepsPeriod s.player.period e.period = true) :
    Reaches ok (m.enterPeriod cfg e target) := by
  refine (h.partitionPolicy_reaches hok ht).bind fun x hx => ?_
  have h1 := (h.partitionPolicy hx).1
  rw [← h1.player] at hk hok
  refine (threshold_reaches _ hok hk).bind fun y _ => ?_
  obtain ⟨_, ec⟩ := y
  cases ec with
  | some _ => exact avoids_pure _ _
  | none =>
    split_ifs <;> exact avoids_pure _ _

omit hok in
/-- Entering a later round, given that the threshold handler called there is safe. -/
theorem Rel.enterRound_reaches {self : Machine → ThresholdEvent → Out} {proto : ConsensusVersion}
    {target : Round} (h : Rel m s) (ht : Tidy s) (hlt : s.player.round < target)
    (hl : ∀ m1 e, Rel m1 (s.startRound target (filterTimeout cfg 0 proto)) →
      (s.startRound target (filterTimeout cfg 0 proto)).pending = some e → Reaches ok (self m1 e)) :
    Reaches ok (m.enterRound cfg self proto target) := by
  obtain ⟨⟨rt, _⟩, ho⟩ := h.router.handleNewRound_ok hlt (ht.ahead target hlt)
  simp only [Machine.enterRound, h.player, ho, ok_bind]
  have hr' : RouterRel s.player rt s.rounds :=
    ((h.router.update target).query ho (Q := fun _ => True)
      fun rr rr' h1 hf => ⟨(h1.newRound hf).1, trivial⟩).1
  refine freshestBundle_reaches.bind fun y hy => ?_
  obtain ⟨m2, _⟩ := y
  set s1 := s.startRound target (filterTimeout cfg 0 proto)
  have hr : Rel { player := s1.player, router := rt } s1 := ⟨rfl, hr'.enterRound hlt⟩
  obtain ⟨hr2, rfl⟩ := hr.freshestBundle hy
  dsimp only
  split_ifs with ho
  · exact (hl m2 _ hr2 (if_pos ho)).bind_pure
  · exact avoids_pure _ _

omit hok in
theorem below_zero : (0 : Period) + 1 < lastPeriod := by decide

/-- A pending threshold is handled without hitting nil. -/
theorem Rel.handleThresholdEvent_reaches {e : ThresholdEvent} (h : Rel m s) (ht : Tidy s)
    (hn : s.pending = some e) : Reaches ok (m.handleThresholdEvent cfg fuel e) := by
  induction fuel generalizing m s e with
  | zero => simp [Machine.handleThresholdEvent]
  | succ fuel ih =>
    have hk : ok → keepsPeriod s.player.period e.period = true :=
      fun _ => (ht.wf.pendingOk e hn).kept
    have hok' : ok → m.player.period + 1 < lastPeriod := by rwa [h.player]
    cases hte : e.t with
    | none => simp [Machine.handleThresholdEvent, hte]
    | softThreshold =>
      simp only [Machine.handleThresholdEvent, hte]
      split_ifs
      · simp
      · exact h.enterPeriod_reaches hok ht hk
      · refine (threshold_reaches _ hok' (h.player ▸ hk)).bind fun _ _ => ?_
        split_ifs <;> simp
    | nextThreshold =>
      simp only [Machine.handleThresholdEvent, hte]
      split_ifs
      · simp
      · exact h.enterPeriod_reaches hok ht hk
    | certThreshold =>
      simp only [Machine.handleThresholdEvent, hte]
      refine (threshold_reaches _ hok' (h.player ▸ hk)).bind fun x hx => ?_
      obtain ⟨hm, he, h1, -⟩ := h.stage cfg (fun _ _ => True) hn (.inr hte) (by simp [hte]) hx
      have ht₁ := hm.tidy ht
      have h2 : Kept ok m.player e.round e.period := by
        rw [h.player]
        exact ⟨h1.ge, hk⟩
      refine Avoids.bind (stagedValue_reaches h2) fun y hy => ?_
      obtain ⟨hr1, -⟩ := he.stagedValue hy
      split_ifs
      · apply Avoids.bind_pure
        rw [hr1.player]
        exact hr1.enterRound_reaches ht₁ (Nat.lt_succ_self _) fun m2 e' hr hp =>
          ih (fun _ => below_zero) hr (ht₁.startRound (Nat.lt_succ_self _) _) hp
      · refine (hr1.enterPeriod_reaches ?_ ht₁ ?_).bind_pure
        · exact hok
        · exact hk
      · simp

end

/-- The ledger may conclude a round at any time. -/
theorem Rel.startRound_reaches {proto : ConsensusVersion} {target : Round} (h : Rel m s)
    (ht : Tidy s) (hlt : s.player.round < target) :
    Reaches ok (m.enterRound cfg (Machine.handleThresholdEvent cfg fuel) proto target) :=
  h.enterRound_reaches ht hlt fun _ _ hr hp =>
    hr.handleThresholdEvent_reaches fuel (fun _ => below_zero) (ht.startRound hlt _) hp

/-! ## Messages -/

theorem Answers.reaches {te : ThresholdEvent} {fuel : ℕ}
    (h : Answers cfg (fun _ _ => True) m s rt (.observed te)) (ht : Tidy s)
    (hok : ok → m.player.period + 1 < lastPeriod) :
    Reaches ok (handleThresholdEvent cfg fuel { m with router := rt } te) := by
  obtain ⟨_, _, hr, -, he, -, ⟨hte, -⟩ | ⟨-, hp⟩⟩ := h
  · cases fuel <;> simp [handleThresholdEvent, hte]
  · refine he.handleThresholdEvent_reaches fuel ?_ (tidy_of_steps hr ht) hp
    rw [← he.player]
    exact hok

theorem Rel.checkCert_reaches {committable : Bool} {pv : ProposalValue} (h : Rel m s) (ht : Tidy s) :
    Reaches ok (m.checkCert cfg fuel e committable pv) := by
  refine freshestBundle_reaches.bind fun x hx => ?_
  obtain ⟨_, _⟩ := x
  obtain ⟨h1, rfl⟩ := h.freshestBundle hx
  dsimp only
  split_ifs with hc
  · apply Avoids.bind_pure
    have hn : s.cur.fresh.freshest.bundle.round = s.player.round :=
      (ht.wf.fresh s.player.round hc.1).bundleRound
    rw [hn]
    exact h1.startRound_reaches fuel ht (Nat.lt_succ_self _)
  · simp
  · simp

theorem Machine.payloadPresent_reaches (he : e.t = .payloadPresent) :
    Reaches ok (m.handlePayload cfg fuel e) := by
  simp only [handlePayload, he, if_true]
  refine (RootRouter.payloadPresent_reaches _ _).bind fun x hx => ?_
  obtain ⟨_, _⟩ := x
  rcases payloadPresent_kind hx with ⟨_, rfl⟩ | ⟨r, _, _, _, _, _, rfl⟩
  · simp
  · dsimp only
    split_ifs <;> simp

theorem Machine.handleTail_reaches (tail : Option TailEvent) (actions : List Action) :
    Reaches ok (m.handleTail cfg fuel tail actions) := by
  cases tail with
  | none => exact avoids_pure _ _
  | some _ => exact (payloadPresent_reaches fuel rfl).bind_pure

section

variable (hok : ok → m.player.period + 1 < lastPeriod)
include hok

theorem Rel.handleVote_reaches (h : Rel m s) (ht : Tidy s) (hp : s.pending = none)
    (he : e.t = .votePresent ∨ e.t = .voteVerified) : Reaches ok (m.handleVote cfg fuel e) := by
  unfold handleVote
  rcases he with he | he
  · simp only [he, if_true]
    refine (votePresent_reaches _ _ hok).bind fun x _ => ?_
    obtain ⟨rt, ef⟩ := x
    cases ef <;> simp
  · simp only [he, reduceCtorEq, if_false]
    refine (voteVerified_reaches _ _ _ hok).bind fun x hx => ?_
    obtain ⟨rt, ef⟩ := x
    have ha : Answers cfg (fun _ _ => True) m s rt ef :=
      h.answersVote ht.wf hp he (fun _ _ _ _ => trivial) hx
    cases ef with
    | malformed | filtered => simp
    | observed _ => exact (ha.reaches ht hok).bind_pure

theorem Rel.payloadVerified_reaches (h : Rel m s) (ht : Tidy s) (he : e.t = .payloadVerified) :
    Reaches ok (m.handlePayload cfg fuel e) := by
  simp only [handlePayload, he, reduceCtorEq, if_false]
  refine (RootRouter.payloadVerified_reaches _ _ hok).bind fun x hx => ?_
  obtain ⟨_, ef⟩ := x
  obtain ⟨s₁, hm, -, hr, -⟩ := h.payloadVerified_state cfg (fun _ _ => True) hx
  have ht₁ := tidy_of_steps hm ht
  cases ef with
  | malformed | rejected => simp
  | pipelined =>
    dsimp only
    split_ifs <;> simp
  | accepted | committable =>
    exact (hr.checkCert_reaches fuel ht₁).bind_pure

theorem Machine.handleProposalVotePresent_reaches (e : MessageEvent) :
    Reaches ok (m.handleProposalVotePresent cfg fuel e) := by
  refine (proposalVotePresent_reaches _ _ hok).bind fun x _ => ?_
  obtain ⟨_, res⟩ := x
  cases res with
  | malformed | filtered => exact handleTail_reaches _ _ _
  | present | accepted => exact avoids_pure _ _

theorem Machine.handleProposalVoteVerified_reaches (e : MessageEvent) :
    Reaches ok (m.handleProposalVoteVerified cfg fuel e) := by
  exact (proposalVoteVerified_reaches _ _ hok).bind fun _ _ =>
    handleTail_reaches _ _ _

end

/-! ## Bundles -/

/-- A verified bundle of the player's round from a period whose router the collector drops: a cert
bundle of an old period, or any bundle of the last one. -/
def StaleBundle (pl : Player) : Event → Prop
  | .message e => e.t = .bundleVerified ∧ Verified e ∧ e.input.bundle.u.round = pl.round ∧
      (e.input.bundle.u.step = cert ∧ 1 < e.input.bundle.u.period ∧
          e.input.bundle.u.period + 1 < pl.period ∨
        e.input.bundle.u.period = lastPeriod ∧ 0 < pl.period) ∧
      e.input.bundle.allVotes ≠ []
  | _ => False

/-- A fresh bundle is of a kept period, or a stale one. -/
theorem bundleFresh_kept {b : UnauthenticatedBundle} (h : bundleFresh pl b = .ok ()) :
    keepsPeriod pl.period b.period = true ∨ b.round = pl.round ∧
      (b.step = cert ∧ 1 < b.period ∧ b.period + 1 < pl.period ∨
        b.period = lastPeriod ∧ 0 < pl.period) := by
  unfold bundleFresh at h
  simp only [keepsPeriod, nextPeriod, Bool.or_eq_true, decide_eq_true_eq]
  split_ifs at h ⊢ <;> lia

theorem Rel.handleBundle_reaches (h : Rel m s) (ht : Tidy s) (hn : s.pending = none)
    (hok : ok → m.player.period + 1 < lastPeriod)
    (he : e.t = .bundlePresent ∨ e.t = .bundleVerified)
    (hc : e.t = .bundleVerified → Verified e → Coherent e.input.bundle)
    (hst : ok → ¬ StaleBundle m.player (.message e)) : Reaches ok (m.handleBundle cfg fuel e) := by
  unfold handleBundle
  rcases he with he | he
  · simp only [he, if_true]
    refine (bundlePresent_reaches _ _).bind fun x _ => ?_
    obtain ⟨rt, ef⟩ := x
    cases ef <;> simp
  · simp only [he, reduceCtorEq, if_false]
    refine Avoids.bind ?_ fun x hx => ?_
    · unfold RootRouter.bundleVerified
      split_ifs with h1 h2 h3
      · simp
      · simp
      · simp
      · have hv : Verified e := ⟨by simpa using h1, by simpa using h2, by simpa using h3⟩
        cases hf : bundleFresh m.player e.input.bundle.u with
        | error _ => simp [hf]
        | ok u =>
          have h4 : ∀ v ∈ e.input.bundle.allVotes, Kept ok m.player v.r.round v.r.period := by
            intro v hm
            obtain ⟨hr, hp, -⟩ := hc he hv v hm
            rw [hr, hp]
            refine ⟨(bundleFresh_round hf).ge, fun ho => ?_⟩
            refine (bundleFresh_kept hf).resolve_right fun ⟨h5, h6⟩ => ?_
            exact hst ho ⟨he, hv, h5, h6, List.ne_nil_of_mem hm⟩
          simp only [hf]
          refine (playVotes_reaches _ cfg _ h4 _).bind fun y _ => ?_
          split_ifs <;> simp
    · obtain ⟨rt, ef⟩ := x
      have ha : Answers cfg (fun _ _ => True) m s rt ef :=
        h.answersBundle ht.wf hn he (hc he) (fun _ _ _ _ => trivial) hx
      cases ef with
      | malformed | filtered => simp
      | observed _ => exact (ha.reaches ht hok).bind_pure

/-- A stale bundle hits nil with its first vote. -/
theorem StaleBundle.nil {e : Event} {fuel : ℕ} (h : StaleBundle m.player e)
    (hb : m.player.period + 1 < lastPeriod) (he : EventOk m.player e) :
    m.submitTop cfg fuel e = .error .nilRouter := by
  cases e with
  | message e =>
    obtain ⟨ht, hv, hn, h2, hne⟩ := h
    obtain ⟨v, vs, h1⟩ := List.exists_cons_of_ne_nil hne
    obtain ⟨hr, hp, -⟩ := he ht hv v (h1 ▸ List.mem_cons_self)
    have hd : keepsPeriod m.player.period v.r.period = false := by
      rw [keepsPeriod, nextPeriod]
      lia
    have hf : bundleFresh m.player e.input.bundle.u = .ok () := by
      unfold bundleFresh
      rw [if_neg (not_not.mpr hn.symm)]
      split_ifs
      · rfl
      · lia
      · rfl
    have hl : ∀ rt te, playVotes cfg m.player e.proto.version rt (v :: vs) te =
        .error .nilRouter := by
      intro rt te
      have ha : rt.voteAccepted cfg m.player v e.proto.version = .error .nilRouter := by
        have hle : m.player.round ≤ v.r.round := by rw [hr, hn]
        simp only [voteAccepted, toRound, update,
          Dict.lookup_filterKeys, hle, decide_true, Dict.lookup_touch, if_true,
          RoundRouter.voteAccepted, RoundRouter.toPeriod_dropped _ _ hd]
        rfl
      simp only [playVotes, ha]
      rfl
    simp only [submitTop, handle, handleMessageEvent, ht,
      handleBundle, reduceCtorEq, if_false, bundleVerified, hv.cancelled,
      hv.proto, hv.err, Bool.false_eq_true, ne_eq, not_true_eq_false, hf, h1, hl]
    rfl
  | none | timeout | fastTimeout | roundInterruption | checkpoint => exact h.elim

/-! ## The top level -/

theorem Rel.submitTop_reaches {e : Event} (h : Rel m s) (ht : Tidy s) (hn : s.pending = none)
    (he : EventOk m.player e) (hok : ok → m.player.period + 1 < lastPeriod)
    (hst : ok → ¬ StaleBundle m.player e) : Reaches ok (m.submitTop cfg fuel e) := by
  unfold Machine.submitTop
  have h0 : Rel { m with router := m.router.update m.player 0 } s :=
    ⟨h.player, h.player ▸ h.router.update 0⟩
  have hok' : ok → s.player.period + 1 < lastPeriod := h.player ▸ hok
  cases e with
  | none => exact avoids_pure _ _
  | message e =>
    simp only [Machine.handle, Machine.handleMessageEvent]
    cases hte : e.t with
    | votePresent =>
      split_ifs
      · refine Machine.handleProposalVotePresent_reaches _ ?_ _
        exact hok
      · exact h0.handleVote_reaches fuel hok ht hn (.inl hte)
    | voteVerified =>
      split_ifs
      · refine Machine.handleProposalVoteVerified_reaches _ ?_ _
        exact hok
      · exact h0.handleVote_reaches fuel hok ht hn (.inr hte)
    | payloadPresent => exact Machine.payloadPresent_reaches fuel hte
    | payloadVerified => exact h0.payloadVerified_reaches fuel hok ht hte
    | bundlePresent => exact h0.handleBundle_reaches fuel ht hn hok (.inl hte) he hst
    | bundleVerified => exact h0.handleBundle_reaches fuel ht hn hok (.inr hte) he hst
  | timeout en => exact h0.handleTimeout_reaches hok' ht en
  | fastTimeout en pr => exact h0.handleFastTimeout_reaches hok' ht en pr
  | roundInterruption r pr =>
    rw [h.player] at he
    exact h0.startRound_reaches fuel ht he
  | checkpoint => exact avoids_pure _ _

end Player

section Runs

variable {cfg : Consensus} {r : Round} {d : Duration} {l : List (Event × List Action)} {m : Machine}
  {e : Event} (h : Steps (Handles cfg) (.start r d) l m) (he : EventOk m.player e)
include h he

theorem submitTop_reaches_of_steps (hok : ok → m.player.period + 1 < lastPeriod)
    (hst : ok → ¬ StaleBundle m.player e) : Reaches ok (m.submitTop cfg fuel e) := by
  obtain ⟨_, s, hr, -, hs⟩ := simulates_of_steps h (Synced.start r d)
  exact hs.rel.submitTop_reaches fuel (tidy_of_steps hr (.initial rfl)) hs.idle he hok hst

/-- **Every dispatch finds its router, unless a stale bundle arrives**: along every run from a fresh
start, as long as the player is below the last two periods, the next event dereferences a collected
router exactly if it is such a bundle. -/
theorem dispatch_reaches_iff (hp : m.player.period + 1 < lastPeriod) :
    m.submitTop cfg fuel e ≠ .error .nilRouter ↔ ¬ StaleBundle m.player e :=
  ⟨fun hn ht => hn (ht.nil hp he), fun ht hn =>
    submitTop_reaches_of_steps fuel h he (fun _ => hp) (fun _ => ht) _ hn trivial⟩

/-- **No round is entered with too many assemblers**: along every run from a fresh start, no event
makes a proposal store panic over what was pipelined for the new round. -/
theorem new_round_ok : m.submitTop cfg fuel e ≠ .error .assemblers := by
  have hr : Reaches False (m.submitTop cfg fuel e) :=
    submitTop_reaches_of_steps fuel h he False.elim False.elim
  exact fun hn => hr _ hn trivial

end Runs

instance (pl : Player) : (e : Event) → Decidable (StaleBundle pl e)
  | .message e => inferInstanceAs (Decidable (e.t = .bundleVerified ∧ _))
  | .none | .timeout _ | .fastTimeout _ _ | .roundInterruption _ _ | .checkpoint .. =>
    inferInstanceAs (Decidable False)

/-- A player which a next bundle took to period 4 takes a cert bundle of period 3. -/
theorem dispatch_reaches_iff_period_three :
    ∃ l m, Steps (Handles soloConsensus) (.start 1 0) l m ∧ m.player.period = 4 ∧
      m.submitTop soloConsensus 1 (soloBundle (soloVote 5 1 3 cert ⟨0, 7, 8, 9⟩)) ≠
        .error .nilRouter := by
  have hr : ((start 1 0).run soloConsensus 1
      [soloBundle (soloVote 5 1 3 next ⟨0, 7, 8, 9⟩)]).map (fun x => decide (x.1.player.period = 4 ∧
        EventOk x.1.player (soloBundle (soloVote 5 1 3 cert ⟨0, 7, 8, 9⟩)) ∧
        ¬ StaleBundle x.1.player (soloBundle (soloVote 5 1 3 cert ⟨0, 7, 8, 9⟩)))) = some true := by
    decide +kernel
  obtain ⟨⟨m, l⟩, hm, hq⟩ := Option.map_eq_some_iff.mp hr
  obtain ⟨hp, he, hl⟩ := of_decide_eq_true hq
  have ht := (run_steps hm).1
  exact ⟨l, m, ht, hp, (dispatch_reaches_iff 1 ht he (by rw [hp]; decide)).mpr hl⟩

/-- The same player dereferences a collected router on a cert bundle of period 2, which passes the
filter. -/
theorem cert_bundle_of_collected_period :
    ∃ l m, Steps (Handles soloConsensus) (.start 1 0) l m ∧ m.player.period = 4 ∧
      (∃ b : UnauthenticatedBundle, b.round = 1 ∧ b.period = 2 ∧ b.step = cert ∧
        bundleFresh m.player b = .ok ()) ∧
      EventOk m.player (soloBundle (soloVote 5 1 2 cert ⟨0, 7, 8, 9⟩)) ∧
      m.submitTop soloConsensus 1 (soloBundle (soloVote 5 1 2 cert ⟨0, 7, 8, 9⟩)) =
        .error .nilRouter := by
  have hr : ((start 1 0).run soloConsensus 1
      [soloBundle (soloVote 5 1 3 next ⟨0, 7, 8, 9⟩)]).map (fun x =>
        decide (x.1.player.period = 4 ∧ x.1.player.round = 1 ∧
          EventOk x.1.player (soloBundle (soloVote 5 1 2 cert ⟨0, 7, 8, 9⟩)) ∧
          StaleBundle x.1.player (soloBundle (soloVote 5 1 2 cert ⟨0, 7, 8, 9⟩)))) = some true := by
    decide +kernel
  obtain ⟨⟨m, l⟩, hm, hq⟩ := Option.map_eq_some_iff.mp hr
  obtain ⟨hp, hn, he, ht⟩ := of_decide_eq_true hq
  dsimp only at hn
  refine ⟨l, m, (run_steps hm).1, hp,
    ⟨{ round := 1, period := 2, step := cert }, rfl, rfl, rfl, ?_⟩, he,
    ht.nil (by rw [hp]; decide) he⟩
  simp only [bundleFresh, hn]
  rfl

/-- Two proposals for the next round arrive, the second with the better credential, and its payload;
then the ledger concludes the round. -/
theorem new_round_ok_pipelined :
    ∃ l m, Steps (Handles soloConsensus) (.start 1 0) l m ∧
      (m.router.round 2).proposalStore.assemblers.entries.map Sigma.fst = [⟨0, 5, 18, 19⟩] ∧
      m.submitTop soloConsensus 1 (.roundInterruption 2 {}) ≠ .error .assemblers := by
  have hr : ((start 1 0).run soloConsensus 1
      [soloProposalVote { soloVote 4 2 0 propose ⟨0, 4, 8, 9⟩ with cred := ⟨0, 1, 7⟩ },
        soloProposalVote (soloVote 5 2 0 propose ⟨0, 5, 18, 19⟩),
        .message { t := .payloadPresent, input :=
          { unauthenticatedProposal := ⟨2, 0, 5, 18, 19⟩ } }]).map (fun x =>
        decide (EventOk x.1.player (.roundInterruption 2 {}) ∧
          (x.1.router.round 2).proposalStore.assemblers.entries.map Sigma.fst =
            [⟨0, 5, 18, 19⟩])) = some true := by
    decide +kernel
  obtain ⟨⟨m, l⟩, hm, hq⟩ := Option.map_eq_some_iff.mp hr
  obtain ⟨he, h1⟩ := of_decide_eq_true hq
  have ht := (run_steps hm).1
  exact ⟨l, m, ht, h1, new_round_ok 1 ht he⟩

end Novarand.Agreement
