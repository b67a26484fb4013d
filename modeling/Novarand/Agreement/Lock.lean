import Novarand.Agreement.Quorum

/-!
# The lock of a cert vote

Once the player has cert-voted a value, that value stays staged and assembled while the player is in
the period, and pinned and assembled afterwards — unless a quorum for another value shows up, or a
proposal-vote displaces the value from the store.
-/

namespace Novarand.Agreement

/-! ## What the proposal store keeps -/

variable (up : UnauthenticatedProposal) (target : Period) (staged : ProposalValue) (pp : Proposal)

namespace ProposalStore

variable {st : ProposalStore} {pl : Player} {v : ProposalValue}

/-- After accepting the proposal-vote `w`, the value `v` is still pinned or relevant. -/
def KeptBy (st : ProposalStore) (w : Vote) (v : ProposalValue) : Prop :=
  v = st.pinned ∨ v = w.r.proposal ∨ ∃ p, p ≠ w.r.period ∧ st.relevant.lookup p = some v

theorem acceptVote_assembled {w : Vote} (hv : v ≠ bottom) (ha : (st.assembler v).assembled = true)
    (hk : st.KeptBy w v) : ((st.acceptVote pl w).assembler v).assembled = true := by
  unfold acceptVote
  rw [assembler_trim, if_pos]
  · have hm : ∀ ea : BlockAssembler, ea.assembled = (st.assembler w.r.proposal).assembled →
        (({ relevant := st.relevant.insert w.r.period w.r.proposal, pinned := st.pinned,
            assemblers := st.assemblers.insert w.r.proposal ea } : ProposalStore).assembler
              v).assembled = true := by
      intro ea he
      rw [assembler_insert]
      split_ifs with hq
      · rw [he, ← hq]
        exact ha
      · exact ha
    exact hm _ rfl
  · refine ⟨hv, ?_⟩
    rw [Dict.mem_values]
    rcases hk with h | h | ⟨p, hp, h⟩
    · exact .inl h
    · exact .inr ⟨w.r.period, by rw [Dict.lookup_insert', if_pos rfl, h]⟩
    · exact .inr ⟨p, by rw [Dict.lookup_insert', if_neg hp, h]⟩

theorem payloadPresent_assembled (ha : (st.assembler v).assembled = true) :
    ((st.payloadPresent pl up).1.assembler v).assembled = true := by
  cases hl : st.assemblers.lookup up.value with
  | none => simpa only [payloadPresent, hl] using ha
  | some ea =>
    have he : st.assembler up.value = ea := by rw [assembler, Dict.getD, hl]; rfl
    have hi : (({ st with assemblers := st.assemblers.insert up.value (ea.addPipeline up).1 } :
        ProposalStore).assembler v).assembled = true := by
      rw [assembler_insert]
      split_ifs with hq
      · rw [hq, he] at ha
        simp [BlockAssembler.addPipeline, ha]
      · exact ha
    simp only [payloadPresent, hl]
    split_ifs <;> exact hi

theorem payloadPresent_pinned :
    (st.payloadPresent pl up).1.pinned = st.pinned := by
  cases hl : st.assemblers.lookup up.value with
  | none => simp only [payloadPresent, hl]
  | some _ =>
    simp only [payloadPresent, hl]
    split_ifs <;> rfl

theorem bindPayload_assembled (hm : (st.assembler v).assembled = true) :
    ((st.bindPayload pp).1.assembler v).assembled = true := by
  cases hl : st.assemblers.lookup pp.value with
  | none => simpa only [bindPayload, hl] using hm
  | some _ =>
    simp only [bindPayload, hl]
    rw [assembler_insert]
    split_ifs with he
    · unfold BlockAssembler.bind
      split_ifs with ha
      · exact ha
      · rfl
    · exact hm

theorem bindPayload_pinned : (st.bindPayload pp).1.pinned = st.pinned := by
  cases hl : st.assemblers.lookup pp.value <;> simp only [bindPayload, hl]

theorem newPeriod_pinned (hv : v ≠ bottom) :
    (st.newPeriod pl target v staged).pinned = v := if_pos hv

theorem newPeriod_keeps (hv : v ≠ bottom) (ha : (st.assembler v).assembled = true) :
    ((st.newPeriod pl target v staged).assembler v).assembled = true := by
  unfold newPeriod
  rw [assembler_trim, if_pos ⟨hv, .inl (if_pos hv).symm⟩]
  exact ha

theorem threshold_of_assembled (per : Period) (ha : (st.assembler v).assembled = true) :
    (st.threshold pl per v).1 = st := by
  unfold threshold
  rw [if_pos ha]

end ProposalStore

open ProposalStore

namespace Flat

variable {cfg : Consensus} {D : State → Input → Prop} {s s' : State} {obs hist : List Obs}
  {p q q' : Period} {v : ProposalValue} {e : ThresholdEvent} (pl : Player) {R : RoundState}

/-- A threshold for an assembled value pins it if it is of a later period, and leaves the store
alone otherwise. -/
theorem RoundState.threshold_keeps (hv : v ≠ bottom) (he : e.proposal = v)
    (ha : R.assembled v = true) :
    (R.threshold pl e).assembled v = true ∧
      (R.threshold pl e).store.pinned = if pl.period < e.period then v else R.store.pinned := by
  subst he
  unfold threshold
  split_ifs with hl
  · have hn : ((R.newPeriod pl e.period e.proposal).store.assembler e.proposal).assembled = true :=
      newPeriod_keeps _ _ hv ha
    simp only [assembled, threshold_of_assembled _ hn]
    exact ⟨hn, newPeriod_pinned _ _ hv⟩
  · have hm : (R.store.threshold pl e.period e.proposal).1 = R.store :=
      threshold_of_assembled e.period ha
    exact ⟨by simp only [assembled, hm]; exact ha, by simp [hm]⟩

/-! ## Deviating quorums and locks -/

/-- Among the votes which satisfy `P` there is a quorum for another value than the one cert-voted in
period `p`, up to period `q`: a cert quorum, a soft quorum after `p`, or a next quorum from `p` on; or
a next quorum of the last period, which takes the player back to the start of period `p`. -/
def Deviated (cfg : Consensus) (P : Vote → ConsensusVersion → Prop) (r : Round) (p q : Period)
    (v : ProposalValue) : Prop :=
  (∃ p' u, p' ≤ q ∧ u ≠ v ∧ HasQuorum cfg P r p' cert u) ∨
  (∃ p' u, p < p' ∧ p' ≤ q ∧ u ≠ v ∧ HasQuorum cfg P r p' soft u) ∨
  (∃ p' u st, p ≤ p' ∧ p' < q ∧ u ≠ v ∧ next ≤ st ∧ HasQuorum cfg P r p' st u) ∨
  p = 0 ∧ Rewound cfg P r

theorem Deviated.mono {P P' : Vote → ConsensusVersion → Prop} {r : Round}
    (hu : ∀ v proto, P v proto → P' v proto) (hq : q ≤ q') (hd : Deviated cfg P r p q v) :
    Deviated cfg P' r p q' v := by
  rcases hd with ⟨p', u, hl, hn, hQ⟩ | ⟨p', u, hlt, hl, hn, hQ⟩ |
    ⟨p', u, st, hl, hlt, hn, ht, hQ⟩ | ⟨hp, hQ⟩
  · exact .inl ⟨p', u, hl.trans hq, hn, hQ.mono hu⟩
  · exact .inr (.inl ⟨p', u, hlt, hl.trans hq, hn, hQ.mono hu⟩)
  · exact .inr (.inr (.inl ⟨p', u, st, hl, hlt.trans_le hq, hn, ht, hQ.mono hu⟩))
  · exact .inr (.inr (.inr ⟨hp, hQ.mono hu⟩))

theorem Deviated.append {h : List Obs} {r : Round} (hq : q ≤ q') (hd : Deviated cfg (Saw h) r p q v)
    (obs : List Obs) :
    Deviated cfg (Saw (h ++ obs)) r p q' v := hd.mono saw_append_left hq

/-- The player is locked on the value `v` it cert-voted in period `p` of its round. -/
inductive Locked (cfg : Consensus) (h : List Obs) (s : State) (p : Period) (v : ProposalValue) :
    Prop
  | deviated (hd : Deviated cfg (Saw h) s.player.round p s.player.period v)
  /-- A cert threshold of a later period is being handled. -/
  | leaving (e : ThresholdEvent) (pending : s.pending = some e) (kind : e.t = .certThreshold)
      (later : s.player.period < e.period)
      (keeps : e.proposal = v → s.cur.store.pinned = v ∧ s.cur.assembled v = true)
  | here (period : s.player.period = p) (staged : s.cur.staging p = v)
      (assembled : s.cur.assembled v = true)
  | pinned (later : p < s.player.period) (pinned : s.cur.store.pinned = v)
      (assembled : s.cur.assembled v = true)

/-- Every cert vote of the current round is locked. -/
def LockOk (cfg : Consensus) (h : List Obs) (s : State) : Prop :=
  ∀ p v, Voted h s.player.round p cert v → v ≠ bottom ∧ Locked cfg h s p v

/-- The condition on proposal-votes: an accepted one does not displace the staged value from the
store. -/
def KeepsStaged (s : State) : Input → Prop
  | .proposal w => w.r.round = s.player.round → proposalFresh s.player w.r = .ok () →
      keepsPeriod s.player.period w.r.period = true →
      (((s.rounds w.r.round).period w.r.period).tracker.voteVerified w).2 = .nil →
      s.cur.assembled (s.cur.staging s.player.period) = true →
      s.cur.store.KeptBy w (s.cur.staging s.player.period)
  | _ => True

/-- A step which keeps the position, the staged and the pinned value keeps a lock. -/
theorem Locked.carry (h : Locked cfg hist s p v) (hr : s'.player.round = s.player.round)
    (h3 : s'.player.period = s.player.period)
    (h4 : ∀ e, s.pending = some e → e.t = .certThreshold → s.player.period < e.period →
      s'.pending = some e)
    (hg : s'.cur.staging s.player.period = s.cur.staging s.player.period)
    (hn : s'.cur.store.pinned = s.cur.store.pinned)
    (hh : s.cur.staging s.player.period = v → s.cur.assembled v = true → s'.cur.assembled v = true)
    (hi : s.cur.store.pinned = v → s.cur.assembled v = true → s'.cur.assembled v = true) :
    Locked cfg (hist ++ obs) s' p v := by
  cases h with
  | deviated hd =>
    refine .deviated ?_
    rw [hr, h3]
    exact hd.append le_rfl obs
  | leaving e hp hk hl h5 =>
    refine .leaving e (h4 e hp hk hl) hk (h3 ▸ hl) fun he => ?_
    obtain ⟨h1, h2⟩ := h5 he
    exact ⟨hn.trans h1, hi h1 h2⟩
  | here hper ht ha =>
    subst hper
    exact .here h3 (hg.trans ht) (hh ht ha)
  | pinned hl hv ha => exact .pinned (h3 ▸ hl) (hn.trans hv) (hi hv ha)

/-- What the votes, locks and quorums of a run rest on. -/
structure LockState (cfg : Consensus) (h : List Obs) (s : State) : Prop where
  votes : VotesOk h s
  evidence : Evidence cfg h s
  lock : LockOk cfg h s

theorem LockState.initial (hp : pl.step = soft) : LockState cfg [] { player := pl } :=
  ⟨VotesOk.initial pl hp, Evidence.initial pl, fun _ _ h => by cases h⟩

/-- Handling a soft or cert threshold for another value, once its period is reached, is a
deviation. -/
theorem LockState.deviated (hs : LockState cfg hist s) (he : s.pending = some e)
    (hn : e.proposal ≠ v) (hk : e.t = .certThreshold ∨ e.t = .softThreshold ∧ p < e.period)
    (hq : e.period ≤ q) : Deviated cfg (Saw (hist ++ obs)) s.player.round p q v := by
  have hh := hs.votes.wf.isThreshold he
  have hr := quorum_append obs (hs.evidence.pending hs.votes.wf he)
  rcases hk with ht | ⟨ht, hl⟩
  · rw [thresholdType_eq_cert (hh.t.symm.trans ht)] at hr
    exact .inl ⟨_, _, hq, hn, hr⟩
  · rw [thresholdType_eq_soft (hh.t.symm.trans ht)] at hr
    exact .inr (.inl ⟨_, _, hl, hq, hn, hr⟩)

theorem Locked.stage (h : Locked cfg hist s p v) (hs : LockState cfg hist s) (hv : v ≠ bottom)
    (hn : s.pending = some e) (ht : e.t = .softThreshold ∨ e.t = .certThreshold)
    (h5 : e.t = .softThreshold → e.period = s.player.period) (hm : Move cfg D s obs (s.staged e)) :
    Locked cfg (hist ++ obs) (s.staged e) p v := by
  -- a cert threshold stays pending
  have hn' : e.t = .certThreshold → (s.staged e).pending = some e := by
    intro hc
    simp [State.staged, hc, hn]
  -- what happens to an assembled value when its own threshold is staged
  have h4 : e.proposal = v → s.cur.assembled v = true →
      (s.staged e).cur.assembled v = true ∧ (s.staged e).cur.store.pinned =
        if s.player.period < e.period then v else s.cur.store.pinned := by
    intro he ha
    rw [State.staged_cur]
    exact RoundState.threshold_keeps s.player hv he ha
  -- a threshold of a later period is a cert threshold, which the player is about to follow
  have hh : s.player.period < e.period → s.cur.assembled v = true →
      Locked cfg (hist ++ obs) (s.staged e) p v := by
    intro hlt ha
    have hc : e.t = .certThreshold := ht.resolve_left fun h3 => by
      rw [h5 h3] at hlt
      exact lt_irrefl _ hlt
    refine .leaving e (hn' hc) hc hlt fun he => ?_
    obtain ⟨h1, h2⟩ := h4 he ha
    rw [if_pos hlt] at h2
    exact ⟨h2, h1⟩
  cases h with
  | deviated hd => exact .deviated (hd.append le_rfl obs)
  | leaving e' hp h6 hl hk =>
    obtain rfl : e' = e := Option.some.inj (hp.symm.trans hn)
    refine .leaving e' (hn' h6) h6 hl fun he => ?_
    obtain ⟨h1, h2⟩ := h4 he (hk he).2
    rw [if_pos hl] at h2
    exact ⟨h2, h1⟩
  | here hr h7 ha =>
    by_cases hlt : s.player.period < e.period
    · exact hh hlt ha
    · by_cases he : e.proposal = v
      · obtain ⟨ha', -⟩ := h4 he ha
        refine .here hr ?_ ha'
        rw [State.staged_cur, RoundState.staging, RoundState.threshold_period]
        split_ifs with hp
        · exact he
        · exact h7
      · refine .deviated (hs.deviated hn he ?_ (not_lt.mp hlt))
        rcases ht with h3 | hc
        · -- a second soft threshold of the period is impossible
          subst hr
          rcases hm.staged_or_certAt hs.votes.wf hs.votes.staged hv (.inl h7) with hs' | hc
          · have h8 := State.staged_staging s e
            rw [h5 h3] at h8
            exact absurd (h8.symm.trans hs') he
          · have hf := hs.votes.wf.pending e hn
            have hu : (s.staged e).cur.fresh = s.cur.fresh := by
              rw [State.staged_cur, RoundState.threshold_fresh]
            have h9 : (s.staged e).cur.fresh.freshest.t = .certThreshold := hc.2.1
            rw [hu, hf, h3] at h9
            cases h9
        · exact .inl hc
  | pinned hl hpv ha =>
    by_cases hlt : s.player.period < e.period
    · exact hh hlt ha
    · by_cases he : e.proposal = v
      · obtain ⟨ha', hp'⟩ := h4 he ha
        rw [if_neg hlt] at hp'
        exact .pinned hl (hp'.trans hpv) ha'
      · refine .deviated (hs.deviated hn he ?_ (not_lt.mp hlt))
        rcases ht with h3 | hc
        · exact .inr ⟨h3, (h5 h3).symm ▸ hl⟩
        · exact .inl hc

/-- The player enters a later period with `v`, or deviates. -/
theorem Locked.enter (h : Locked cfg hist s p v) (hp : p ≤ s.player.period)
    (ht : s.player.period < q) (hr : s'.player.round = s.player.round) (h3 : s'.player.period = q)
    (hc : s'.cur = R)
    (hl : ∀ e, s.pending = some e → e.t = .certThreshold → s.player.period < e.period →
      (e.proposal = v → s.cur.store.pinned = v ∧ s.cur.assembled v = true) →
      Deviated cfg (Saw (hist ++ obs)) s.player.round p q v)
    (h4 : s.cur.assembled v = true → Deviated cfg (Saw (hist ++ obs)) s.player.round p q v ∨
      R.assembled v = true ∧ R.store.pinned = v) : Locked cfg (hist ++ obs) s' p v := by
  have he : Deviated cfg (Saw (hist ++ obs)) s.player.round p q v → Locked cfg (hist ++ obs) s' p v := by
    intro hd
    refine .deviated ?_
    rw [hr, h3]
    exact hd
  have hn : s.cur.assembled v = true → Locked cfg (hist ++ obs) s' p v := by
    intro ha
    rcases h4 ha with hd | ⟨h1, h2⟩
    · exact he hd
    · exact .pinned (h3 ▸ hp.trans_lt ht) (hc ▸ h2) (hc ▸ h1)
  cases h with
  | deviated hd => exact he (hd.append ht.le obs)
  | leaving e h5 h6 h7 hk => exact he (hl e h5 h6 h7 hk)
  | here _ _ ha => exact hn ha
  | pinned _ _ ha => exact hn ha

section

variable (hD : ∀ s x, D s x → KeepsStaged s x) (h : Move cfg D s obs s') (hs : LockState cfg hist s)
include hD h hs

/-- **A step keeps the locks** if it displaces no staged value from the store. -/
theorem Move.lockOk : LockOk cfg (hist ++ obs) s' := by
  intro p v hv
  -- a vote just cast is for the staged and assembled value
  rcases voted_append.mp hv with ho | hn
  swap
  · obtain ⟨-, hp, _, hp', -, hcs, -⟩ := h.casts hn
    obtain ⟨rfl, hg, ha, -⟩ := hcs.of_cert
    exact ⟨hs.votes.staged.ne_bottom ha, .here hp' (hp ▸ hg) ha⟩
  by_cases hr : s'.player.round = s.player.round
  swap
  · -- there are no votes of a round just entered
    have hpo := h.shift.round_le
    have hps := hs.votes.votes.past ho
    lia
  rw [hr] at ho
  obtain ⟨hne, hl⟩ := hs.lock p v ho
  refine ⟨hne, ?_⟩
  have hple : p ≤ s.player.period := by
    have := hs.votes.votes.past ho
    lia
  have hpn : ∀ e, s.pending = some e → e.t = .certThreshold → s'.pending ≠ none →
      s'.pending = some e := by
    intro e he h5 hsm
    obtain ⟨e', he'⟩ := Option.ne_none_iff_exists'.mp hsm
    have hf := hs.votes.wf.pending e he
    have hf' := (h.wf hs.votes.wf).pending e' he'
    rw [State.cur, hr, h.certFresh (by rw [State.cur] at hf; rw [hf]; exact h5)] at hf'
    rw [State.cur, hf'] at hf
    rw [he', (VoteTrackerRound.mk.inj hf).1]
  -- steps which leave the proposal machines of the round alone
  have h6 : s'.player.period = s.player.period → s'.cur.store = s.cur.store →
      s'.cur.staging s.player.period = s.cur.staging s.player.period →
      (∀ e, s.pending = some e → e.t = .certThreshold → s.player.period < e.period →
        s'.pending = some e) → Locked cfg (hist ++ obs) s' p v := by
    intro h3 h7 h8 hn'
    refine hl.carry hr h3 hn' h8 (by rw [h7]) ?_ ?_ <;>
    · intro _ ha
      rw [RoundState.assembled, h7]
      exact ha
  -- steps on the store of some round, which change the current round only if it is that one
  have h7 : ∀ (r : Round) (R : RoundState), s'.rounds = Function.update s.rounds r R →
      s'.player = s.player → s'.pending = s.pending →
      (∀ q, R.staging q = (s.rounds r).staging q) → R.store.pinned = (s.rounds r).store.pinned →
      (r = s.player.round → s.cur.staging s.player.period = v ∨ s.cur.store.pinned = v →
        s.cur.assembled v = true → R.assembled v = true) →
      Locked cfg (hist ++ obs) s' p v := by
    intro r R hrn h9 hpe h8 hi ha
    have hu : s'.cur = if s.player.round = r then R else s.cur := by
      rw [State.cur, hrn, h9, Function.update_apply]
      rfl
    have h1' : ∀ e, s.pending = some e → e.t = .certThreshold → s.player.period < e.period →
        s'.pending = some e := fun e he _ _ => hpe.trans he
    by_cases h4 : s.player.round = r
    · rw [if_pos h4] at hu
      refine hl.carry hr (by rw [h9]) h1' ?_ ?_ (fun h1 h2 => ?_) (fun h1 h2 => ?_)
      · rw [hu, h8, State.cur, h4]
      · rw [hu, hi, State.cur, h4]
      · rw [hu]; exact ha h4.symm (.inl h1) h2
      · rw [hu]; exact ha h4.symm (.inr h1) h2
    · rw [if_neg h4] at hu
      exact h6 (by rw [h9]) (by rw [hu]) (by rw [hu]) h1'
  rcases h.votes with ⟨-, hno⟩ | ⟨w, _, _, _, -, hc⟩
  swap
  · refine h6 (by rw [hc.player]) ?_ ?_ fun e he h5 _ => hpn e he h5 ?_
    · rw [State.cur, hr]; exact (hc.proposals _).1
    · rw [State.cur, hr, RoundState.staging, ((hc.proposals _).2 _).1]; rfl
    · rcases hc.pending with hp | ⟨-, hp, -⟩
      · rw [hp, he]; simp
      · rw [hp]; simp
  cases h with
  | count | reach => exact absurd (List.mem_singleton_self _) (hno _ _)
  | idle p' ac hp | certTimeout p' he hsp ho hp | nap p' he hsf h5 hna hp
  | nextVote p' he hsf h5 hna ho hp | fastVote p' _ he ho hp =>
    exact h6 hp.period (by simp only [State.cur, hp.round]) (by simp [State.cur, hp.round])
      fun e he _ _ => he
  | proposalVote w t _ c P hd hf hP ht hc hk =>
    refine h7 _ _ rfl rfl rfl (fun q => ?_) ?_ fun h4 hca ha => ?_
    · simp only [RoundState.staging, RoundState.setPeriod_period]
      split_ifs with hq
      · rw [hq, hP]; exact voteVerified_staging ht
      · rfl
    · split_ifs
      · rfl
      · rfl
    · rw [h4]
      split_ifs with her
      · refine acceptVote_assembled hne ha ?_
        rcases hca with h8 | hi
        · subst h8
          exact hD s _ hd h4 hf hk (by rw [hP, ht]; exact her) ha
        · exact .inl hi.symm
      · exact ha
  | pipeline r up h4 =>
    refine h7 _ _ rfl rfl rfl (fun q => rfl) (payloadPresent_pinned up) fun h4 _ ha => ?_
    rw [h4]
    exact payloadPresent_assembled up ha
  | bind pp =>
    exact h7 _ _ rfl rfl rfl (fun q => rfl) (bindPayload_pinned pp)
      fun _ _ ha => bindPayload_assembled pp ha
  | ignore e he ht h3 =>
    refine h6 rfl rfl rfl fun e' he' h5 _ => ?_
    obtain rfl : e' = e := Option.some.inj (he'.symm.trans he)
    rcases ht with ht | ht <;>
    · rw [h5] at ht
      cases ht
  | stage e he ht hpre hcn h3 =>
    have hm : Move cfg D s [] (s.staged e) := .stage s e he ht hpre hcn h3
    exact hl.stage hs hne he ht h3 hm
  | forward e dd he ht hpre hcn h3 h5 =>
    have hkn : e.t = .certThreshold ∨ e.t = .softThreshold ∧ p < e.period :=
      ht.symm.imp id fun hsf => ⟨hsf, hple.trans_lt h3⟩
    refine hl.enter hple h3 rfl rfl (State.cur_update rfl rfl) ?_ fun ha => ?_
    · intro e' he' hc _ hk
      obtain rfl : e' = e := Option.some.inj (he'.symm.trans he)
      by_cases heq : e'.proposal = v
      · -- the block is there, so the player commits instead
        obtain ⟨ha, -⟩ := RoundState.threshold_keeps s.player hne heq (hk heq).2
        rw [← heq, h5 hc] at ha
        cases ha
      · exact hs.deviated he heq hkn le_rfl
    · by_cases heq : e.proposal = v
      · obtain ⟨h1, h2⟩ := RoundState.threshold_keeps s.player hne heq ha
        rw [if_pos h3] at h2
        exact .inr ⟨h1, h2⟩
      · exact .inl (hs.deviated he heq hkn le_rfl)
  | await e he ht h3 hg _ =>
    refine h6 rfl rfl rfl fun e' he' _ hlt => ?_
    obtain rfl : e' = e := Option.some.inj (he'.symm.trans he)
    exact absurd hlt (not_lt.mpr h3)
  | advance e dd he ht h3 hk hpre =>
    have hQ := quorum_append [] (hs.evidence.pending hs.votes.wf he)
    have hnx := (hs.votes.wf.isThreshold he).next_le ht
    rcases nextPeriod_of_kept hk h3 with hnp | ⟨hlast, h0, -⟩
    swap
    · rw [hlast] at hQ
      exact .deviated (.inr (.inr (.inr ⟨Nat.le_zero.mp (h0 ▸ hple), _, _, hnx, hQ⟩)))
    refine hl.enter hple (Nat.lt_succ_of_le h3) rfl hnp (State.cur_update rfl rfl) ?_ fun ha => ?_
    · intro e' he' hc _ _
      obtain rfl : e' = e := Option.some.inj (he'.symm.trans he)
      rw [hc] at ht
      cases ht
    · by_cases heq : e.proposal = v
      · subst heq
        exact .inr ⟨newPeriod_keeps _ _ hne ha, newPeriod_pinned _ _ hne⟩
      · exact .inl (.inr (.inr (.inl ⟨e.period, e.proposal, e.step, hple.trans h3,
          Nat.lt_succ_self _, heq, hnx, hQ⟩)))
  | certVote w he hg ha hsp _ => exact h6 rfl rfl rfl fun e he _ _ => he
  | commit pp w dd h5 ha _ => exact absurd hr (Nat.succ_ne_self _)
  | interrupt _ dd he hlt => exact absurd hr hlt.ne'
  | softTimeout p' c he hsp hpre hc hp =>
    refine h6 hp.period ?_ ?_ fun e he _ _ => he
    · rw [State.cur_update rfl hp.round]; rfl
    · rw [State.cur_update rfl hp.round, RoundState.staging, RoundState.setPeriod_period, if_pos rfl]
      rfl

theorem Move.lockState : LockState cfg (hist ++ obs) s' :=
  ⟨h.votesOk hs.votes, h.evidence hs.votes.wf hs.evidence, h.lockOk hD hs⟩

end

theorem lockState_of_steps (hD : ∀ s x, D s x → KeepsStaged s x) (hs : LockState cfg hist s)
    (h : Steps (Move cfg D) s obs s') : LockState cfg (hist ++ obs) s' :=
  h.history (fun _ _ _ _ hP hm => hm.lockState hD hP) hs

end Flat

end Novarand.Agreement
