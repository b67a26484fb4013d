import Novarand.Agreement.Runs

/-!
# The position of the player

The player moves forward, but for a next threshold of the last period, and between two events its
period is determined by the freshest threshold of its round. The rounds ahead have only seen votes of
their first period.
-/

namespace Novarand.Agreement

open Nat Machine

variable {cfg : Consensus} {D : Flat.State → Flat.Input → Prop} {s s' : Flat.State}
  {obs : List Flat.Obs}

/-- The period a threshold takes the player to. -/
def ThresholdEvent.target (e : ThresholdEvent) : Period :=
  if e.t = .nextThreshold then nextPeriod e.period else e.period

/-- A fresher threshold: nothing was seen before, or the target period does not go back, unless it
wraps. -/
theorem ThresholdEvent.fresherThan_true {e o : ThresholdEvent} (he : e.t ≠ .none)
    (h : e.fresherThan o = .ok true) :
    o.t = .none ∨ o.t ≠ .certThreshold ∧
      (e.t = .certThreshold ∨ (o.target ≤ e.target ∨ e.period = lastPeriod) ∧
        o.period ≤ e.period) := by
  unfold fresherThan at h
  cases ht : e.t <;> cases ho : o.t <;>
    simp only [ht, ho, reduceCtorEq, ne_eq, not_true_eq_false] at h he ⊢ <;>
    simp [target, nextPeriod]
  all_goals
    split_ifs at h ⊢ <;>
    simp only [pure_ok, decide_eq_true_eq, Bool.false_eq_true] at h <;> lia

namespace Flat

/-- A next threshold of the last period takes a player in period 0 back to the start of it. -/
structure Rewinds (s : State) (e : ThresholdEvent) : Prop where
  t : e.t = .nextThreshold
  last : e.period = lastPeriod
  period : s.player.period = 0

/-- How one step moves the player and the threshold in its hands. -/
inductive Shift (s s' : State) : Prop
  | stay (round : s'.player.round = s.player.round) (period : s'.player.period = s.player.period)
      (step : s.player.step ≤ s'.player.step)
      (awake : s'.player.step = s.player.step → s.player.napping = false →
        s'.player.napping = false)
      (fresh : s'.cur.fresh = s.cur.fresh) (pending : s'.pending = s.pending)
  | reach (te : ThresholdEvent) (player : s'.player = s.player) (kind : te.t ≠ .none)
      (fresher : te.fresherThan s.cur.fresh.freshest = .ok true)
      (fresh : s'.cur.fresh = { freshest := te, ok := true }) (pending : s'.pending = some te)
  | resolve (e : ThresholdEvent) (before : s.pending = some e) (after : s'.pending = none)
      (round : s'.player.round = s.player.round) (fresh : s'.cur.fresh = s.cur.fresh)
      (covers : e.target ≤ s'.player.period)
      (moves : s'.player = s.player ∨
        (s.player.period < s'.player.period ∨ Rewinds s e ∧ s'.player.period = 0) ∧
        s'.player.period = e.target ∧ s'.player.step = soft)
      (staged : e.t = .certThreshold ∨ e.t = .softThreshold ∧ s.player.period < s'.player.period →
        s'.cur.staging e.period = e.proposal)
  | newRound (round : s.player.round < s'.player.round) (period : s'.player.period = 0)
      (step : s'.player.step = soft)
      (pending : s'.pending = if s'.cur.fresh.ok then some s'.cur.fresh.freshest else none)

theorem State.cur_setRound (r : Round) (R : RoundState) (p : Player) (pend : Option ThresholdEvent)
    (hp : p.round = s.player.round) (hR : R.fresh = (s.rounds r).fresh) :
    (mk p (s.setRound r R).rounds pend).cur.fresh = s.cur.fresh := by
  simp only [cur, setRound_rounds, hp]
  split_ifs with h
  · rw [hR, h]
  · rfl

theorem Move.shift (h : Move cfg D s obs s') : Shift s s' := by
  cases h with
  | idle p acts hp | fastVote p hD h1 ho hp =>
    exact .stay hp.round hp.period hp.step.ge (fun _ => hp.napping.trans)
      (by simp only [State.cur, hp.round]) rfl
  | proposalVote | pipeline | bind | count =>
    exact .stay rfl rfl le_rfl (fun _ => id) (State.cur_setRound _ _ _ _ rfl rfl) rfl
  | reach v proto sr te hD hv ho h6 hf =>
    by_cases hr : v.r.round = s.player.round
    · rw [hr] at hf
      exact .reach te rfl h6 hf
        (by simp [State.cur, State.setRound_rounds, if_pos hr.symm])
        (if_pos hr)
    · exact .stay rfl rfl le_rfl (fun _ => id)
        (by simp only [State.cur, State.setRound_rounds, State.setRound_player,
          if_neg (Ne.symm hr)]) (if_neg hr)
  | ignore e h1 ht he =>
    refine .resolve e h1 rfl rfl rfl ?_ (.inl rfl) ?_
    · rcases ht with ht | ht <;> simp only [ThresholdEvent.target, nextPeriod, ht] <;> lia
    · rcases ht with ht | ht <;> simp [ht]
  | stage e h1 ht h5 h7 he =>
    have hu := State.cur_setRound (s := s) s.player.round (s.cur.threshold s.player e) s.player
      (if e.t = .softThreshold then none else s.pending) rfl (RoundState.threshold_fresh _ _ _)
    by_cases hs : e.t = .softThreshold
    · refine .resolve e h1 (if_pos hs) rfl hu ?_ (.inl rfl) (by simp [hs])
      simp only [ThresholdEvent.target, hs, reduceCtorEq, if_false, State.setRound_player]
      exact (he hs).le
    · exact .stay rfl rfl le_rfl (fun _ => id) hu (if_neg hs)
  | forward e deadline h1 ht h5 h7 he h4 =>
    have h3 : e.target = e.period := by
      rcases ht with ht | ht <;> simp [ThresholdEvent.target, ht]
    refine .resolve e h1 rfl rfl ?_ h3.le (.inr ⟨.inl he, h3.symm, rfl⟩) fun _ => ?_
    · simp only [State.cur, State.enterPeriod, Function.update_self]
      exact RoundState.threshold_fresh _ _ _
    · simp only [State.cur, State.enterPeriod, Function.update_self]
      exact RoundState.threshold_staging _ _ _
  | await e h1 ht he hg hm =>
    refine .resolve e h1 rfl rfl rfl ?_ (.inl rfl) fun _ => hg
    simpa [ThresholdEvent.target, ht] using he
  | advance e deadline h1 ht he hk h5 =>
    have h3 : e.target = nextPeriod e.period := if_pos ht
    refine .resolve e h1 rfl rfl ?_ h3.le (.inr ⟨?_, h3.symm, rfl⟩) (by simp [ht])
    · simp only [State.cur, State.enterPeriod, Function.update_self]
      rfl
    · simp only [State.enterPeriod]
      rcases nextPeriod_of_kept hk he with h | ⟨hl, hp, h⟩
      · rw [h]
        exact .inl (lt_succ_of_le he)
      · exact .inr ⟨⟨ht, hl, hp⟩, h⟩
  | certVote v h1 hg ha h2 h4 => exact .stay rfl rfl le_rfl (fun _ => id) rfl rfl
  | commit pp v deadline h4 ha h8 => exact .newRound (lt_succ_self _) rfl rfl rfl
  | interrupt target deadline h1 hl => exact .newRound hl rfl rfl rfl
  | softTimeout p c h1 h2 h5 hc hp =>
    refine .stay hp.round hp.period ?_ (fun _ => hp.napping.trans)
      (State.cur_setRound _ _ _ _ hp.round rfl) rfl
    rw [hp.step, h2]
    exact le_succ soft
  | certTimeout p h1 h2 ho hp =>
    refine .stay hp.round hp.period ?_ (fun _ _ => hp.napping)
      (by simp only [State.cur, hp.round]) rfl
    rw [hp.step, h2]
    exact le_succ cert
  | nap p h1 hs h4 hn hp =>
    have h2 : s.player.step < p.step := by
      rw [hp.step]
      exact lt_succ_self _
    exact .stay hp.round hp.period h2.le (fun hq => absurd hq h2.ne')
      (by simp only [State.cur, hp.round]) rfl
  | nextVote p h1 hs h4 hn ho hp =>
    exact .stay hp.round hp.period hp.step.ge (fun _ _ => hp.napping)
      (by simp only [State.cur, hp.round]) rfl

end Flat

/-! ## How the player moves -/

/-- Round, period and step, compared lexicographically. -/
def Player.position (p : Player) : ℕ ×ₗ ℕ ×ₗ ℕ := toLex (p.round, toLex (p.period, p.step))

theorem Player.position_le_iff {p q : Player} :
    p.position ≤ q.position ↔ p.round < q.round ∨ p.round = q.round ∧
      (p.period < q.period ∨ p.period = q.period ∧ p.step ≤ q.step) := by
  simp [position, Prod.Lex.toLex_le_toLex]

variable (pl : Player)

namespace Flat

theorem Shift.round_le (h : Shift s s') : s.player.round < s'.player.round ∨
    s'.player.round = s.player.round ∧ s.player.period ≤ s'.player.period := by
  cases h with
  | stay hr hp => exact .inr ⟨hr, hp.ge⟩
  | reach _ hl => exact .inr ⟨by rw [hl], by rw [hl]⟩
  | resolve e _ _ hr _ _ hm =>
    refine .inr ⟨hr, ?_⟩
    rcases hm with h1 | ⟨ht | ⟨hw, -⟩, -⟩
    · rw [h1]
    · exact ht.le
    · exact hw.period ▸ zero_le _
  | newRound hr => exact .inl hr

/-- Only a threshold that rewinds takes the player back. -/
theorem Shift.position_le (h : Shift s s') (hn : ∀ e, s.pending = some e → ¬ Rewinds s e) :
    s.player.position ≤ s'.player.position := by
  rw [Player.position_le_iff]
  cases h with
  | stay hr hp hs => exact .inr ⟨hr.symm, .inr ⟨hp.symm, hs⟩⟩
  | reach _ hl =>
    rw [hl]
    exact .inr ⟨rfl, .inr ⟨rfl, le_rfl⟩⟩
  | resolve e hb _ hr _ _ hm =>
    rcases hm with h1 | ⟨ht | ⟨hw, -⟩, -⟩
    · rw [h1]
      exact .inr ⟨rfl, .inr ⟨rfl, le_rfl⟩⟩
    · exact .inr ⟨hr.symm, .inl ht⟩
    · exact absurd hw (hn e hb)
  | newRound hr => exact .inl hr

/-! ## The freshest threshold fixes the period -/

/-- The period of the player and the freshest threshold of its round. -/
structure PeriodFixed (s : State) : Prop where
  unseen : s.cur.fresh.ok = false → s.player.period = 0
  upper : s.cur.fresh.ok = true → s.cur.fresh.freshest.t ≠ .certThreshold →
    s.player.period ≤ s.cur.fresh.freshest.target
  lower : s.cur.fresh.ok = true → s.pending = none → s.cur.fresh.freshest.target ≤ s.player.period

theorem Shift.periodFixed (h : Shift s s') (hw : Wf s) (hw' : Wf s') (hs : PeriodFixed s) :
    PeriodFixed s' := by
  cases h with
  | stay hr h1 _ _ hf hp =>
    refine ⟨?_, ?_, ?_⟩
    · rw [hf, h1]; exact hs.unseen
    · rw [hf, h1]; exact hs.upper
    · rw [hf, h1, hp]; exact hs.lower
  | reach te hl hk h2 hf hp =>
    refine ⟨?_, ?_, ?_⟩
    · rw [hf]; intro hok; cases hok
    · rw [hf, hl]
      intro _ hc
      rcases ThresholdEvent.fresherThan_true hk h2 with hn | ⟨ho, he | ⟨hle | hlast, -⟩⟩
      · -- the first threshold of the round finds the player in period 0
        cases hok : s.cur.fresh.ok with
        | false => rw [hs.unseen hok]; exact zero_le _
        | true => exact absurd hn (hw.fresh _ hok).ne_none
      · exact absurd he hc
      · cases hok : s.cur.fresh.ok with
        | false => rw [hs.unseen hok]; exact zero_le _
        | true => exact (hs.upper hok ho).trans hle
      · -- a threshold of the last period is kept in period 0 only
        have h3 := (hw'.pendingOk te hp).kept
        simp only [keepsPeriod, hlast, nextPeriod, hl, if_true, Bool.or_eq_true,
          decide_eq_true_eq] at h3
        have h4 : s.player.period = 0 := by lia
        exact h4 ▸ zero_le _
    · rw [hp]; intro _ h; cases h
  | resolve e hb _ hr hf hv hm =>
    have hp := hw.pending e hb
    refine ⟨?_, ?_, ?_⟩
    · rw [hf, hp]; intro hok; cases hok
    · rw [hf]
      intro hok hc
      rcases hm with h3 | ⟨-, h1, -⟩
      · rw [h3]; exact hs.upper hok hc
      · rw [h1, hp]
    · rw [hf, hp]
      exact fun _ _ => hv
  | newRound hr h1 _ hp =>
    refine ⟨fun _ => h1, fun _ _ => h1 ▸ zero_le _, fun hok hn => ?_⟩
    rw [hp, if_pos hok] at hn
    cases hn

theorem periodFixed_of_steps (h : Steps (Move cfg D) s obs s') (hw : Wf s) (hs : PeriodFixed s) :
    PeriodFixed s' :=
  (h.invariant (P := fun s => Wf s ∧ PeriodFixed s)
    (fun _ _ _ hP hm => ⟨hm.wf hP.1, hm.shift.periodFixed hP.1 (hm.wf hP.1) hP.2⟩) ⟨hw, hs⟩).2

theorem PeriodFixed.initial (hp : pl.period = 0) : PeriodFixed { player := pl } where
  unseen _ := hp
  upper h := by cases h
  lower h := by cases h

end Flat

/-! ## On the player itself -/

open Flat

/-- The freshest threshold which the vote machine of the player's round has reported. -/
def Machine.freshest (m : Machine) : VoteTrackerRound :=
  (m.router.round m.player.round).voteTrackerRound

theorem Rel.freshest {m : Machine} {s : State} (h : Rel m s) : m.freshest = s.cur.fresh := by
  rw [Machine.freshest, h.player]
  exact (h.router s.player.round le_rfl).fresh

/-! ## The store of a round the player has not entered -/

namespace ProposalStore

variable {st : ProposalStore} {pv : ProposalValue}

/-- Only proposal-votes of period 0 and payloads have reached the store, `pv` with the last vote. -/
structure Ahead (st : ProposalStore) (pv : ProposalValue) : Prop where
  pinned : st.pinned = bottom
  relevant : st.relevant = ∅ ∨ st.relevant = AList.singleton 0 pv
  assemblers : ∀ x ∈ st.assemblers, x = pv

theorem mem_trim {pl : Player} (h : pv ∈ (st.trim pl).assemblers) :
    pv ≠ bottom ∧ (pv = st.pinned ∨ pv ∈ st.relevant.values) := by
  obtain ⟨hb, hm⟩ := AList.mem_erase.mp h
  refine ⟨hb, List.foldlRecOn (motive := fun m : Dict ProposalValue BlockAssembler =>
    ∀ x ∈ m, x = st.pinned ∨ x ∈ st.relevant.values) _ _ ?_ ?_ pv hm⟩
  · exact fun x hx => .inl (((AList.mem_insert _).mp hx).resolve_right (AList.notMem_empty _))
  · intro m ih y hy x hx
    rcases (AList.mem_insert _).mp hx with rfl | hx
    · exact .inr hy
    · exact ih x hx

section

variable (h : st.Ahead pv)
include h

theorem Ahead.acceptVote {v : Vote} (hv : v.r.period = 0) :
    (st.acceptVote pl v).Ahead v.r.proposal := by
  have hr : st.relevant.insert v.r.period v.r.proposal = AList.singleton 0 v.r.proposal := by
    rw [hv]
    rcases h.relevant with hr | hr
    · rw [hr, AList.insert_empty]
    · rw [hr, AList.insert_singleton_eq]
  refine ⟨h.pinned, .inr hr, fun x hx => ?_⟩
  obtain ⟨hb, hp | hm⟩ := mem_trim hx
  · exact absurd (hp.trans h.pinned) hb
  · rw [hr] at hm
    exact List.mem_singleton.mp hm

theorem Ahead.payloadPresent (up : UnauthenticatedProposal) :
    (st.payloadPresent pl up).1.Ahead pv := by
  cases hl : st.assemblers.lookup up.value with
  | none => simpa only [ProposalStore.payloadPresent, hl] using h
  | some _ =>
    have hm (ea) : ∀ x ∈ st.assemblers.insert up.value ea, x = pv := fun x hx =>
      h.assemblers x <| ((AList.mem_insert _).mp hx).elim
        (fun he => AList.lookup_isSome.mp (by rw [he, hl]; rfl)) id
    simp only [ProposalStore.payloadPresent, hl]
    split_ifs <;> exact ⟨h.pinned, h.relevant, hm _⟩

theorem Ahead.length_le : st.assemblers.entries.length ≤ 1 := by
  have hn := st.assemblers.keys_nodup
  rw [List.eq_replicate_of_mem h.assemblers, List.nodup_replicate] at hn
  rwa [← List.length_map Sigma.fst]

theorem Ahead.newRound : ∃ out, st.newRound pl = .ok out := by
  have hl := h.length_le
  unfold ProposalStore.newRound
  match he : st.assemblers.entries with
  | [] => exact ⟨_, rfl⟩
  | [_] =>
    dsimp only
    split_ifs <;> exact ⟨_, rfl⟩
  | _ :: _ :: _ => simp [he] at hl

end

end ProposalStore

namespace Flat

/-- The stores of the rounds ahead of the player. -/
def AheadOk (s : State) : Prop := ∀ r, s.player.round < r → ∃ v, (s.rounds r).store.Ahead v

theorem Move.ahead (h : Move cfg D s obs s') (hs : AheadOk s) : AheadOk s' := by
  intro r hr
  have hl : s.player.round < r := h.shift.round_le.elim (·.trans hr) fun h => h.1 ▸ hr
  have hu : ∀ (r₀ : Round) (R : RoundState), (r₀ = r → ∃ v, R.store.Ahead v) →
      ∃ v, (Function.update s.rounds r₀ R r).store.Ahead v := by
    intro r₀ R hR
    rw [Function.update_apply]
    split_ifs with h1
    · exact hR h1.symm
    · exact hs r hl
  obtain ⟨v, ha⟩ := hs r hl
  cases h with
  | proposalVote v t _ c P _ hf _ _ _ =>
    refine hu _ _ fun h1 => ?_
    subst h1
    split_ifs
    · exact ⟨_, ha.acceptVote _ ((proposalFresh_round hf).resolve_left hl.ne').2⟩
    · exact ⟨_, ha⟩
  | pipeline => exact hu _ _ fun h1 => ⟨_, (h1 ▸ ha).payloadPresent _ _⟩
  | bind | stage | forward | advance | softTimeout =>
    exact hu _ _ fun h1 => absurd h1 hl.ne
  | count | reach => exact hu _ _ fun h1 => ⟨_, h1 ▸ ha⟩
  | _ => exact hs r hl

end Flat

/-- **At most one assembler is left to a new round**, so the proposal machines take it. -/
theorem RouterRel.handleNewRound_ok {pl : Player} {rt : RootRouter} {rounds : Round → RoundState}
    {r : Round} (h : RouterRel pl rt rounds) (hl : pl.round < r)
    (ha : ∃ v, (rounds r).store.Ahead v) : ∃ out, rt.handleNewRound pl r = .ok out := by
  obtain ⟨v, ha⟩ := ha
  obtain ⟨out, ho⟩ := ha.newRound pl
  rw [← ((h.update r) r hl.le).store, RootRouter.round, RootRouter.update] at ho
  simp only [RootRouter.handleNewRound, RootRouter.toRound, RootRouter.update,
    RoundRouter.newRound, RoundRouter.update, Dict.lookup_filterKeys, hl.le, decide_true,
    Dict.lookup_touch, if_true, ho]
  exact ⟨_, rfl⟩

/-! ## The freshest threshold -/

namespace ThresholdEvent

variable {e o : ThresholdEvent}

/-- How fresh an event is: nothing is least, and a certificate is greatest. -/
def freshness (e : ThresholdEvent) : WithTop ℕ :=
  match e.t with
  | .none => (0 : ℕ)
  | .softThreshold => (3 * e.period + 1 : ℕ)
  | .nextThreshold => (3 * e.period + if e.proposal = bottom then 3 else 2 : ℕ)
  | .certThreshold => ⊤

theorem freshness_pos (he : e.t ≠ .none) : (0 : ℕ) < e.freshness := by
  unfold freshness
  split
  · exact absurd ‹_› he
  all_goals simp
  split_ifs <;> simp

theorem fresherThan_eq (he : e.t ≠ .none) (h : o.t = .none ∨ o.round = e.round) :
    e.fresherThan o = .ok (decide (o.freshness < e.freshness)) := by
  unfold fresherThan freshness
  cases ht : e.t <;> cases ho : o.t <;>
    simp only [ht, ho, reduceCtorEq, false_or, ne_eq, not_true_eq_false] at h he ⊢ <;>
    simp only [h, not_true_eq_false, if_true, if_false, Nat.cast_lt, pure, Except.pure,
      Except.ok.injEq, WithTop.natCast_lt_top, not_top_lt, decide_true, decide_false] <;>
    (try split_ifs) <;> simp <;> lia

end ThresholdEvent

open ThresholdEvent List

variable {n : Round} {ds : List (Player × ThresholdEvent)} {rr : RoundRouter}

/-- The freshest event is one of those seen, and none of them is fresher. -/
theorem freshen_maximal (h : ∀ d ∈ ds, d.2.t ≠ .none ∧ d.2.round = n)
    (hr : rr.voteTrackerRound.freshest.t = .none ∨ rr.voteTrackerRound.freshest.round = n) :
    ∃ rr', ds.foldlM (fun rr d => Prod.fst <$> rr.freshen d.1 d.2) rr = .ok rr' ∧
      let f := rr'.voteTrackerRound.freshest
      let es := rr.voteTrackerRound.freshest :: ds.map Prod.snd
      f ∈ es ∧ ∀ e ∈ es, e.freshness ≤ f.freshness := by
  induction ds generalizing rr with
  | nil => exact ⟨rr, rfl, by simp⟩
  | cons d ds ih =>
    obtain ⟨⟨ht, rfl⟩, h⟩ := forall_mem_cons.mp h
    have hf : d.2.fresherThan (rr.update d.1 0).voteTrackerRound.freshest = _ :=
      fresherThan_eq ht hr
    simp only [foldlM_cons, RoundRouter.freshen, hf, ok_bind, decide_eq_true_eq, map_cons]
    split_ifs with hl
    · obtain ⟨rr', hk, hm, hg⟩ :=
        @ih { rr.update d.1 0 with voteTrackerRound := ⟨d.2, true⟩ } h (.inr rfl)
      refine ⟨rr', hk, mem_cons_of_mem _ hm, forall_mem_cons.mpr ⟨?_, hg⟩⟩
      exact hl.le.trans (hg _ mem_cons_self)
    · obtain ⟨rr', hk, hm, hg⟩ := @ih (rr.update d.1 0) h hr
      obtain ⟨h1, h2⟩ := forall_mem_cons.mp hg
      refine ⟨rr', hk, mem_cons.mpr ((mem_cons.mp hm).imp_right (mem_cons_of_mem _)), ?_⟩
      exact forall_mem_cons.mpr ⟨h1, forall_mem_cons.mpr ⟨(not_lt.mp hl).trans h1, h2⟩⟩

/-- **The thresholds of a round are strictly ordered by freshness**, up to those of the same
freshness, and in whatever order some are delivered, the vote machine ends with a freshest one. -/
theorem fresherThan_strict_order (n : Round) :
    IsStrictWeakOrder {e : ThresholdEvent // e.t ≠ .none ∧ e.round = n}
      (fun e o => e.1.fresherThan o.1 = .ok true) ∧
    ∀ (rr : RoundRouter) (ds : List (Player × ThresholdEvent)), rr.voteTrackerRound = {} →
      ds ≠ [] → (∀ d ∈ ds, d.2.t ≠ .none ∧ d.2.round = n) →
      ∃ rr', ds.foldlM (fun rr d => Prod.fst <$> rr.freshen d.1 d.2) rr = .ok rr' ∧
        rr'.voteTrackerRound.freshest ∈ ds.map Prod.snd ∧
        ∀ d ∈ ds, d.2.fresherThan rr'.voteTrackerRound.freshest = .ok false := by
  refine ⟨?_, fun rr ds hr hn h => ?_⟩
  · let key (e : {e : ThresholdEvent // e.t ≠ .none ∧ e.round = n}) := e.1.freshness
    convert_to IsStrictWeakOrder _ (Function.onFun (· > ·) key) using 3 with e o
    · rw [fresherThan_eq e.2.1 (.inr (o.2.2.trans e.2.2.symm)), Except.ok.injEq, decide_eq_true_eq]
    · have := @isStrictWeakOrder_of_isOrderConnected (WithTop ℕ) (· > ·)
      infer_instance
  · obtain ⟨rr', hk, hm, hg⟩ := freshen_maximal h (.inl (by rw [hr]))
    rw [forall_mem_cons, forall_mem_map] at hg
    -- the empty event of the start is less fresh than any delivered one
    have hf : rr'.voteTrackerRound.freshest ∈ ds.map Prod.snd := by
      refine (mem_cons.mp hm).resolve_left fun h0 => ?_
      obtain ⟨d, hd⟩ := exists_mem_of_ne_nil _ hn
      have hl := hg.2 d hd
      rw [h0, hr] at hl
      exact absurd (freshness_pos (h d hd).1) hl.not_gt
    obtain ⟨c, hc, he⟩ := mem_map.mp hf
    refine ⟨rr', hk, hf, fun d hd => ?_⟩
    have ht : rr'.voteTrackerRound.freshest.round = d.2.round := by
      rw [← he, (h c hc).2, (h d hd).2]
    rw [fresherThan_eq (h d hd).1 (.inr ht), decide_eq_false (hg.2 d hd).not_gt]

end Novarand.Agreement
