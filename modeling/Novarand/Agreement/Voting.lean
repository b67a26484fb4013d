import Novarand.Agreement.Position

/-!
# What the player votes for

One inversion for the votes a step casts and one for the values it stages. From these: the player
never equivocates in a soft, cert or ordinary next step.
-/

namespace Novarand.Agreement

open Function ProposalStore ProposalTrackerContract

variable {pv v' : ProposalValue} (p : Player)

namespace ProposalStore

/-! ## Bottom is never assembled -/

/-- The store holds no assembler for bottom. -/
def NoBottom (st : ProposalStore) : Prop := st.assemblers.lookup bottom = none

variable {st : ProposalStore}

theorem noBottom_trim (st : ProposalStore) (p : Player) : (st.trim p).NoBottom := by
  simp [NoBottom, trim]

section

variable (h : st.NoBottom)
include h

theorem NoBottom.assembled : (st.assembler bottom).assembled = false := by
  rw [assembler, Dict.getD, h]
  rfl

theorem NoBottom.insert {ea ea' : BlockAssembler} (hp : st.assemblers.lookup pv = some ea) :
    ({ st with assemblers := st.assemblers.insert pv ea' } : ProposalStore).NoBottom := by
  simp only [NoBottom, Dict.lookup_insert']
  split_ifs with hb
  · rw [← hb, h] at hp
    cases hp
  · exact h

theorem NoBottom.payloadPresent (up : UnauthenticatedProposal) :
    (st.payloadPresent p up).1.NoBottom := by
  cases hl : st.assemblers.lookup up.value with
  | none => simpa only [ProposalStore.payloadPresent, hl] using h
  | some _ =>
    simp only [ProposalStore.payloadPresent, hl]
    split_ifs <;> exact h.insert hl

theorem NoBottom.bindPayload (pp : Proposal) : (st.bindPayload pp).1.NoBottom := by
  cases hl : st.assemblers.lookup pp.value with
  | none => simpa only [ProposalStore.bindPayload, hl] using h
  | some _ =>
    simp only [ProposalStore.bindPayload, hl]
    exact h.insert hl

theorem NoBottom.threshold (per : Period) (pv : ProposalValue) :
    (st.threshold p per pv).1.NoBottom := by
  unfold ProposalStore.threshold
  split_ifs
  · exact h
  · exact noBottom_trim _ _

end

end ProposalStore

variable {c' : ProposalTrackerContract} {e : ThresholdEvent} (pl : Player) {r' r₀ : Round}

namespace Flat

variable {cfg : Consensus} {D : State → Input → Prop} {s s' : State} {obs h1 h2 : List Obs}

/-- **Store rule**: what every operation of the proposal store preserves, every step preserves in
every round. -/
theorem Move.store {P : ProposalStore → Prop} (hv : ∀ st pl v, P st → P (acceptVote st pl v))
    (hp : ∀ st pl up, P st → P (payloadPresent st pl up).1)
    (hb : ∀ st pp, P st → P (bindPayload st pp).1)
    (hn : ∀ st pl target v w, P st → P (newPeriod st pl target v w))
    (hh : ∀ st pl per v, P st → P (ProposalStore.threshold st pl per v).1) (h : Move cfg D s obs s')
    (hs : ∀ r, P (s.rounds r).store) (r : Round) : P (s'.rounds r).store := by
  have hu : ∀ (r₀ : Round) (R : RoundState), P R.store →
      P (update s.rounds r₀ R r).store := by
    intro r₀ R hR
    rw [update_apply]
    split_ifs
    · exact hR
    · exact hs r
  have ht : ∀ e : ThresholdEvent, P (s.cur.threshold s.player e).store := by
    intro e
    refine hh _ _ _ _ ?_
    split_ifs
    · exact hn _ _ _ _ _ (hs _)
    · exact hs _
  cases h with
  | idle | ignore | await | certVote | commit | interrupt | certTimeout | nap | nextVote
    | fastVote => exact hs r
  | proposalVote v t _ c P _ _ _ _ _ =>
    refine hu _ _ ?_
    split_ifs
    · exact hv _ _ _ (hs _)
    · exact hs _
  | pipeline => exact hu _ _ (hp _ _ _ (hs _))
  | bind => exact hu _ _ (hb _ _ (hs _))
  | stage e | forward e => exact hu _ _ (ht e)
  | advance => exact hu _ _ (hn _ _ _ _ _ (hs _))
  | count | reach | softTimeout => exact hu _ _ (hs _)

theorem Move.noBottom (h : Move cfg D s obs s') (hs : ∀ r, (s.rounds r).store.NoBottom) :
    ∀ r, (s'.rounds r).store.NoBottom :=
  h.store (fun _ _ _ _ => ProposalStore.noBottom_trim _ _) (fun _ _ _ h => h.payloadPresent _ _)
    (fun _ _ h => h.bindPayload _) (fun _ _ _ _ _ _ => noBottom_trim _ _)
    (fun _ _ _ _ h => h.threshold _ _ _) hs

/-! ## Casting a vote -/

/-- The step `s` to `s'` casts a vote for `v` in step `q` of the player's round and period. -/
inductive Casts (D : State → Input → Prop) (s s' : State) : Step → ProposalValue → Prop
  | soft {v : ProposalValue} (before : s.player.step = soft) (after : s'.player.step = cert)
      (value : Machine.softVoteValue s.player.period
        (s.cur.period s.player.period).tracker.freezer.lowest.r.proposal
        (s.cur.period (prevPeriod s.player.period)).cached = some v) : Casts D s s' soft v
  | cert {v : ProposalValue} (same : s' = s) (staged : s.cur.staging s.player.period = v)
      (assembled : s.cur.assembled v = true) (step : s.player.step ≤ cert)
      (unseen : ¬ CertSeen s.cur v) : Casts D s s' cert v
  | next {q : Step} (entered : s.player.step = cert ∧ q = next ∨
        s.player.step = q ∧ s.player.napping = true ∧ q ≠ soft ∧ q ≠ cert)
      (step : s'.player.step = q) (awake : s'.player.napping = false)
      (own : s.player.period ≠ lastPeriod) : Casts D s s' q (s.cur.nextVoteValue s.player.period)
  | fast (allowed : D s .fast) (same : SamePosition s'.player s.player)
      (own : s.player.period ≠ lastPeriod) :
      Casts D s s' (s.cur.fastVoteStep s.player.period) (s.cur.nextVoteValue s.player.period)

/-- The labels hold a vote of the player. -/
def Voted (h : List Obs) (r : Round) (p : Period) (q : Step) (v : ProposalValue) : Prop :=
  .act (.attest r p q v) ∈ h

variable {p p' : Period} {q q' : Step} {r : Round} {v : ProposalValue} {c : ProposalTrackerContract}

theorem voted_singleton :
    Voted [.act (.attest r p q v)] r' p' q' v' ↔ r' = r ∧ p' = p ∧ q' = q ∧ v' = v := by
  simp [Voted]

theorem Move.casts (h : Move cfg D s obs s') (hv : Voted obs r p q v) :
    r = s.player.round ∧ p = s.player.period ∧ s'.player.round = r ∧ s'.player.period = p ∧
      s.pending = none ∧ Casts D s s' q v ∧ obs = [.act (.attest r p q v)] := by
  cases h with
  | idle p' _ hp ha =>
    obtain ⟨a, hm, he⟩ := List.mem_map.mp hv
    cases he
    exact absurd (ha _ hm) id
  | proposalVote | pipeline | bind | ignore | stage | forward | await | advance | interrupt | nap =>
    cases hv
  | count | reach | commit => simp [Voted] at hv
  | certVote w h1 hg h2 hs hr =>
    obtain ⟨rfl, rfl, rfl, rfl⟩ := voted_singleton.mp hv
    exact ⟨rfl, rfl, rfl, rfl, h1, .cert rfl hg h2 hs hr, rfl⟩
  | softTimeout p' c h1 hs _ _ hp =>
    revert hv
    split
    · rename_i w hw
      intro hv
      obtain ⟨rfl, rfl, rfl, rfl⟩ := voted_singleton.mp hv
      exact ⟨rfl, rfl, hp.round, hp.period, h1, .soft hs hp.step hw, rfl⟩
    · simp [Voted]
  | certTimeout p' h1 hs ho hp =>
    obtain ⟨rfl, rfl, rfl, rfl⟩ := voted_singleton.mp hv
    exact ⟨rfl, rfl, hp.round, hp.period, h1, .next (.inl ⟨hs, rfl⟩) hp.step hp.napping ho, rfl⟩
  | nextVote p' h1 hf hr hn ho hp =>
    obtain ⟨rfl, rfl, rfl, rfl⟩ := voted_singleton.mp hv
    exact ⟨rfl, rfl, hp.round, hp.period, h1,
      .next (.inr ⟨rfl, hn, hf, hr⟩) hp.step hp.napping ho, rfl⟩
  | fastVote p' hD h1 ho hp =>
    obtain ⟨rfl, rfl, rfl, rfl⟩ := voted_singleton.mp hv
    exact ⟨rfl, rfl, hp.round, hp.period, h1, .fast hD hp ho, rfl⟩

variable (R : RoundState)

theorem fastVoteStep_late (p : Period) : late ≤ R.fastVoteStep p := by
  unfold RoundState.fastVoteStep
  split_ifs <;> decide

/-- A cert vote is for the staged and assembled value, up to step `cert` and without a cert threshold
for it. -/
theorem Casts.of_cert (h : Casts D s s' Agreement.cert v) :
    s' = s ∧ s.cur.staging s.player.period = v ∧ s.cur.assembled v = true ∧
      s.player.step ≤ Agreement.cert ∧ ¬ CertSeen s.cur v := by
  generalize hq : Agreement.cert = q at h
  cases h with
  | soft => cases hq
  | cert hs ht ha he hu => exact ⟨hs, ht, ha, he, hu⟩
  | next _ _ =>
    lia
  | fast =>
    have hl := fastVoteStep_late s.cur s.player.period
    rw [← hq] at hl
    exact absurd hl (by decide)

/-- A soft vote is for the value `issueSoftVote` chooses. -/
theorem Casts.of_soft (h : Casts D s s' Agreement.soft v) :
    Machine.softVoteValue s.player.period
      (s.cur.period s.player.period).tracker.freezer.lowest.r.proposal
      (s.cur.period (prevPeriod s.player.period)).cached = some v := by
  generalize hq : Agreement.soft = q at h
  cases h with
  | soft _ _ hv => exact hv
  | cert => cases hq
  | next _ _ =>
    lia
  | fast =>
    have hl := fastVoteStep_late s.cur s.player.period
    rw [← hq] at hl
    exact absurd hl (by decide)

/-- A vote of a next or recovery step is for the value `issueNextVote` chooses, never in the last
period, and is cast after the cert step unless it is a fast vote. -/
theorem Casts.of_next (h : Casts D s s' q v) (hq : Agreement.next ≤ q) :
    v = s.cur.nextVoteValue s.player.period ∧ s.player.period ≠ lastPeriod ∧
      (Agreement.next ≤ s'.player.step ∨ D s .fast ∧ s'.player.step = s.player.step) := by
  cases h with
  | soft => exact absurd hq (by decide)
  | cert => exact absurd hq (by decide)
  | next _ ha _ ho => exact ⟨rfl, ho, .inl (ha ▸ hq)⟩
  | fast hl hs ho => exact ⟨rfl, ho, .inr ⟨hl, hs.step⟩⟩

/-! ## Staging a value -/

/-- The proposal tracker of a period has handled a soft threshold. -/
def RoundState.sawSoft (p : Period) : Bool :=
  (R.period p).contract.sawSoftThreshold

/-- The proposal tracker of a period has frozen its value. -/
def RoundState.frozen (p : Period) : Bool :=
  (R.period p).contract.froze

/-- The freshest threshold of the round is a cert threshold of period `p`. -/
def CertAt (p : Period) : Prop :=
  R.fresh.ok = true ∧ R.fresh.freshest.t = .certThreshold ∧ R.fresh.freshest.period = p

theorem voteVerified_staging {t t' : ProposalTracker} {v : Vote} {err : SerErr}
    (h : t.voteVerified v = (t', err)) : t'.staging = t.staging := by
  simp only [ProposalTracker.voteVerified] at h
  split_ifs at h <;>
  · rw [← (Prod.mk.inj h).1]

theorem postVoteVerified_ok {err : SerErr} (h : c.postVoteVerified err = .ok c') :
    c' = { c with sawOneVote := true } := by
  simp only [postVoteVerified] at h
  split_ifs at h
  rw [pure_ok] at h
  rw [← h]

theorem postProposalFrozen_ok (h : c.postProposalFrozen pv = .ok c') :
    c' = { c with froze := true } := by
  unfold postProposalFrozen at h
  split_ifs at h
  rw [pure_ok] at h
  rw [← h]

theorem preThreshold_sawSoft (h : c.preThreshold e = .ok ()) (he : e.t = .softThreshold) :
    c.sawSoftThreshold = false := by
  unfold preThreshold at h
  split_ifs at h with hc
  rw [Bool.eq_false_iff]
  exact fun hs => hc ⟨he, .inl hs⟩

/-- The pending threshold `e` is staged in period `p` of round `r`. -/
structure Stages (s s' : State) (e : ThresholdEvent) (r : Round) (p : Period) : Prop where
  pending : s.pending = some e
  kind : e.t = .softThreshold ∨ e.t = .certThreshold
  round : r = s.player.round
  period : p = e.period
  first : e.t = .softThreshold → (s.rounds r).sawSoft p = false
  value : (s'.rounds r).staging p = e.proposal
  soft : (s'.rounds r).sawSoft p = true ↔ e.t = .softThreshold ∨ (s.rounds r).sawSoft p = true
  frozen : (s'.rounds r).frozen p = (s.rounds r).frozen p

/-- The proposal trackers of a period agree, but for one that was frozen. -/
structure SameStaging (R R' : RoundState) (p : Period) : Prop where
  staging : R'.staging p = R.staging p
  sawSoft : R'.sawSoft p = R.sawSoft p
  frozen : R.frozen p = true → R'.frozen p = true

theorem SameStaging.refl (R : RoundState) (p : Period) : SameStaging R R p := ⟨rfl, rfl, id⟩

theorem SameStaging.of_period {R R' : RoundState} (h : R'.period p = R.period p) :
    SameStaging R R' p := by
  refine ⟨?_, ?_, ?_⟩
  · rw [RoundState.staging, h]; rfl
  · rw [RoundState.sawSoft, h]; rfl
  · rw [RoundState.frozen, RoundState.frozen, h]; exact id

theorem SameStaging.setPeriod {R : RoundState} {P : PeriodState} (p₀ : Period)
    (ht : P.tracker.staging = (R.period p₀).tracker.staging)
    (hc : P.contract.sawSoftThreshold = (R.period p₀).contract.sawSoftThreshold)
    (hf : (R.period p₀).contract.froze = true → P.contract.froze = true) :
    SameStaging R (R.setPeriod p₀ P) p := by
  have hp := R.setPeriod_period p₀ p P
  split_ifs at hp with h
  · subst h
    exact ⟨by rw [RoundState.staging, hp]; exact ht, by rw [RoundState.sawSoft, hp]; exact hc,
      by rw [RoundState.frozen, RoundState.frozen, hp]; exact hf⟩
  · exact .of_period hp

/-- A cert threshold that is staged is the freshest of its round. -/
theorem Stages.certAt (h : Stages s s' e r p) (hw : Wf s) (ht : e.t = .certThreshold) :
    CertAt (s.rounds r) p := by
  have hf : (s.rounds s.player.round).fresh = _ := hw.pending e h.pending
  rw [CertAt, h.round, hf]
  exact ⟨rfl, ht, h.period.symm⟩

/-- Every step leaves the staged value of a period alone or stages the pending threshold in it. -/
theorem Move.staging (h : Move cfg D s obs s') (r : Round) (p : Period) :
    SameStaging (s.rounds r) (s'.rounds r) p ∨ ∃ e, Stages s s' e r p := by
  have hu : ∀ (r₀ : Round) (R : RoundState), SameStaging (s.rounds r₀) R p →
      SameStaging (s.rounds r) (update s.rounds r₀ R r) p := by
    intro r₀ R hR
    rw [update_apply]
    split_ifs with hr
    · rw [hr]; exact hR
    · exact .refl _ _
  have h4 : ∀ e, s.pending = some e → (e.t = .softThreshold ∨ e.t = .certThreshold) →
      (s.cur.period e.period).contract.preThreshold e = .ok () →
      s'.rounds = update s.rounds s.player.round (s.cur.threshold s.player e) →
      SameStaging (s.rounds r) (s'.rounds r) p ∨ ∃ e, Stages s s' e r p := by
    intro e hn ht h1 h2
    rw [h2, update_apply]
    by_cases hr : r = s.player.round
    · subst hr
      rw [if_pos rfl]
      by_cases hp : p = e.period
      · subst hp
        refine .inr ⟨e, hn, ht, rfl, rfl, preThreshold_sawSoft h1, ?_, ?_, ?_⟩
        · rw [h2, update_self, RoundState.threshold_staging]
        · rw [h2, update_self, RoundState.sawSoft, RoundState.threshold_period,
            if_pos rfl]
          simp only [PeriodState.stage, postThreshold]
          split_ifs with hf
          · simp [hf]
          · simp [hf, RoundState.sawSoft, State.cur]
        · rw [h2, update_self, RoundState.frozen, RoundState.threshold_period, if_pos rfl]
          simp only [PeriodState.stage, postThreshold]
          split_ifs <;> rfl
      · exact .inl (.of_period (by rw [RoundState.threshold_period, if_neg hp]; rfl))
    · rw [if_neg hr]
      exact .inl (.refl _ _)
  cases h with
  | idle | ignore | await | certVote | commit | interrupt | certTimeout | nap | nextVote
    | fastVote => exact .inl (.refl _ _)
  | proposalVote v t _ c P _ _ hP ht hc =>
    obtain ⟨h1, h2, h3⟩ : SameStaging (s.rounds v.r.round) ((s.rounds v.r.round).setPeriod v.r.period
        { P with tracker := t, contract := c }) p := by
      refine .setPeriod _ ?_ ?_ ?_
      · rw [hP]; exact voteVerified_staging ht
      · rw [hP, postVoteVerified_ok hc]
      · rw [hP, postVoteVerified_ok hc]; exact id
    exact .inl (hu _ _ ⟨h1, h2, h3⟩)
  | pipeline | bind | advance => exact .inl (hu _ _ ⟨rfl, rfl, id⟩)
  | count => exact .inl (hu _ _ (.setPeriod _ rfl rfl id))
  | reach v proto sr te =>
    have ho : SameStaging (s.rounds v.r.round) ((s.rounds v.r.round).setPeriod v.r.period
        (((s.rounds v.r.round).period v.r.period).recordVote v.r.step sr te)) p :=
      .setPeriod _ rfl rfl id
    exact .inl (hu _ _ ⟨ho.1, ho.2, ho.3⟩)
  | stage e hn ht h3 h1 | forward e _ hn ht h3 h1 =>
    exact h4 e hn ht h1 rfl
  | softTimeout _ c hn _ h3 hc hp =>
    refine .inl (hu _ _ (.setPeriod _ rfl ?_ ?_)) <;> rw [postProposalFrozen_ok hc]
    · rfl
    · exact fun _ => rfl

/-- A frozen tracker stays frozen. -/
theorem Move.frozen (h : Move cfg D s obs s') (hf : (s.rounds r).frozen p = true) :
    (s'.rounds r).frozen p = true := by
  rcases h.staging r p with hs | ⟨e, hg⟩
  · exact hs.frozen hf
  · exact hg.frozen.trans hf

/-- The player leaves the soft step for another one only by freezing its tracker. -/
theorem Move.leaves_soft (h : Move cfg D s obs s') (hs : s.player.step = soft) :
    s'.player.step = soft ∨
      s.cur.frozen s.player.period = false ∧ s'.cur.frozen s'.player.period = true := by
  cases h with
  | idle p _ hp | fastVote p _ _ _ hp => exact .inl (hp.step.trans hs)
  | softTimeout p c _ _ hpre hc hp =>
    refine .inr ⟨Bool.eq_false_iff.mpr fun hf => ?_, ?_⟩
    · rw [RoundState.frozen] at hf
      rw [preProposalFrozen, if_pos hf] at hpre
      cases hpre
    · rw [State.cur_update rfl hp.round, RoundState.frozen, hp.period, RoundState.setPeriod_period,
        if_pos rfl, postProposalFrozen_ok hc]
  | certTimeout p _ hc => rw [hs] at hc; cases hc
  | nap p _ hn | nextVote p _ hn => exact absurd hs hn
  | forward | advance | commit | interrupt => exact .inl rfl
  | _ => exact .inl hs

/-- A cert threshold, once the freshest of its round, stays so. -/
theorem Move.certFresh (h : Move cfg D s obs s')
    (hr : (s.rounds r).fresh.freshest.t = .certThreshold) :
    (s'.rounds r).fresh = (s.rounds r).fresh := by
  rcases h.votes with ⟨hs, -⟩ | ⟨v, _, _, _, -, hc⟩
  · exact (hs r).1
  · rcases hc.fresh r with ⟨he, -⟩ | ⟨-, hne, hf, -⟩
    · exact he
    · rcases ThresholdEvent.fresherThan_true hne hf with hn | ⟨ho, -⟩
      · rw [hr] at hn; cases hn
      · exact absurd hr ho

theorem Move.certAt (h : Move cfg D s obs s') (hc : CertAt (s.rounds r) p) :
    CertAt (s'.rounds r) p := by
  rw [CertAt, h.certFresh hc.2.1]
  exact hc

/-- Where staged values come from. -/
structure StagedOk (s : State) : Prop where
  noBottom : ∀ r, (s.rounds r).store.NoBottom
  seen : ∀ r p, (s.rounds r).staging p ≠ bottom →
    (s.rounds r).sawSoft p = true ∨ CertAt (s.rounds r) p
  cert : s.pending = none → s.cur.fresh.ok = true → s.cur.fresh.freshest.t = .certThreshold →
    s.cur.staging s.cur.fresh.freshest.period = s.cur.fresh.freshest.proposal

theorem StagedOk.ne_bottom (hs : StagedOk s) (ha : (s.rounds r).assembled v = true) :
    v ≠ bottom := by
  rintro rfl
  rw [RoundState.assembled, (hs.noBottom r).assembled] at ha
  cases ha

theorem StagedOk.initial (pl : Player) : StagedOk { player := pl } where
  noBottom _ := rfl
  seen _ _ h := absurd rfl h
  cert _ h := by cases h

theorem Move.stagedOk (h : Move cfg D s obs s') (hw : Wf s) (hs : StagedOk s) : StagedOk s' := by
  refine ⟨h.noBottom hs.noBottom, fun r p he => ?_, fun hn hk hc => ?_⟩
  · rcases h.staging r p with ⟨h1, ha, -⟩ | ⟨e, hg⟩
    · rw [h1] at he
      rw [ha]
      exact (hs.seen r p he).imp_right h.certAt
    · rcases hg.kind with ht | ht
      · exact .inl (hg.soft.mpr (.inl ht))
      · exact .inr (h.certAt (hg.certAt hw ht))
  · cases h.shift with
    | stay hr _ _ _ hf hp =>
      rw [hf] at hk hc ⊢
      have ho := hs.cert (hp ▸ hn) hk hc
      rcases h.staging s.player.round s.cur.fresh.freshest.period with ⟨h1, -⟩ | ⟨e, hg⟩
      · rw [State.cur, hr, h1]
        exact ho
      · rw [hp, hg.pending] at hn
        cases hn
    | reach _ _ _ _ _ hp => rw [hp] at hn; cases hn
    | resolve e hb _ _ hf _ _ h2 =>
      rw [hf, hw.pending e hb] at hc ⊢
      exact h2 (.inl hc)
    | newRound _ _ _ hp =>
      rw [hp, if_pos hk] at hn
      cases hn

/-! ## No equivocation -/

/-- The votes cast so far, and where the player stands: its votes of a step are behind it, and a cert
vote is for the staged value unless a cert threshold came in between. -/
structure Unequivocal (h : List Obs) (s : State) : Prop where
  step : soft ≤ s.player.step
  past : ∀ {r p q v}, Voted h r p q v →
    r < s.player.round ∨ r = s.player.round ∧ p ≤ s.player.period
  frozen : Agreement.cert ≤ s.player.step → s.cur.frozen s.player.period = true
  soft : ∀ {v}, Voted h s.player.round s.player.period soft v → s.cur.frozen s.player.period = true
  next : ∀ {q v}, Voted h s.player.round s.player.period q v → next ≤ q → q < late →
    (s.player.step = Agreement.soft ∧ s.cur.frozen s.player.period = true) ∨
      q < s.player.step ∨ q = s.player.step ∧ s.player.napping = false
  cert : ∀ {v}, Voted h s.player.round s.player.period cert v →
    v ≠ bottom ∧ (s.cur.staging s.player.period = v ∨ CertAt s.cur s.player.period)
  unique : ∀ {r p q v w}, q < late → Voted h r p q v → Voted h r p q w → v = w

theorem voted_append :
    Voted (h1 ++ h2) r p q v ↔ Voted h1 r p q v ∨ Voted h2 r p q v := List.mem_append

/-- A value once staged stays staged in its period unless a cert threshold comes in. -/
theorem Move.staged_or_certAt (h : Move cfg D s obs s') (hw : Wf s) (h1 : StagedOk s)
    (hv : v ≠ bottom) (hs : (s.rounds r).staging p = v ∨ CertAt (s.rounds r) p) :
    (s'.rounds r).staging p = v ∨ CertAt (s'.rounds r) p := by
  rcases h.staging r p with ⟨he, -⟩ | ⟨e, hg⟩
  · rw [he]
    exact hs.imp_right h.certAt
  · refine .inr (h.certAt ?_)
    have hn : (s.rounds r).sawSoft p = true ∨ CertAt (s.rounds r) p := by
      rcases hs with hs | hs
      · exact h1.seen r p (hs ▸ hv)
      · exact .inr hs
    rcases hn with ha | hc
    · -- a second soft threshold breaks the tracker's contract, so this one is a cert threshold
      rcases hg.kind with ht | ht
      · rw [hg.first ht] at ha
        cases ha
      · exact hg.certAt hw ht
    · exact hc

section NoEquivocation

variable {hist : List Obs}

/-- A step without a vote. -/
theorem Unequivocal.quiet (hs : Unequivocal hist s) (h : Move cfg D s obs s') (hw : Wf s)
    (ht : StagedOk s) (h4 : ∀ r p q v, ¬ Voted obs r p q v) : Unequivocal (hist ++ obs) s' := by
  have ho : ∀ {r p q v}, Voted (hist ++ obs) r p q v → Voted hist r p q v := fun hv =>
    (voted_append.mp hv).resolve_right (h4 _ _ _ _)
  have hu : ∀ {r p q v w}, q < late → Voted (hist ++ obs) r p q v →
      Voted (hist ++ obs) r p q w → v = w := fun hq hv hw => hs.unique hq (ho hv) (ho hw)
  -- in the period of the player the earlier votes stay behind it, or the soft step is closed
  have h1 : s'.player.round = s.player.round → s'.player.period = s.player.period →
      (s'.player.step = Agreement.soft ∨ s.player.step ≤ s'.player.step ∧
        (s'.player.step = s.player.step → s.player.napping = false →
          s'.player.napping = false)) → Unequivocal (hist ++ obs) s' := by
    intro hr h2 hp
    have hfr : s.cur.frozen s.player.period = true → s'.cur.frozen s'.player.period = true := by
      intro hf
      rw [State.cur, hr, h2]
      exact h.frozen hf
    refine ⟨?_, fun hv => ?_, fun hc => ?_, fun hv => ?_, fun hv hq h5 => ?_, fun hv => ?_, hu⟩
    · exact hp.elim (·.ge) fun h => hs.step.trans h.1
    · rw [hr, h2]; exact hs.past (ho hv)
    · by_cases hb : s.player.step = Agreement.soft
      · rcases h.leaves_soft hb with h3 | h3
        · exact absurd (h3 ▸ hc) (by decide)
        · exact h3.2
      · have := hs.step
        exact hfr (hs.frozen (by lia))
    · rw [hr, h2] at hv
      exact hfr (hs.soft (ho hv))
    · rw [hr, h2] at hv
      have hv' := hs.next (ho hv) hq h5
      by_cases hb : s'.player.step = Agreement.soft
      · exact .inl ⟨hb, hfr (hv'.elim (·.2) fun h3 => hs.frozen (by lia))⟩
      obtain ⟨hp, ha⟩ := hp.resolve_left hb
      rcases hv' with ⟨h3, hf⟩ | hlt | ⟨heq, h6⟩
      · rcases h.leaves_soft h3 with h4 | ⟨h4, -⟩
        · exact absurd h4 hb
        · rw [hf] at h4
          cases h4
      · exact .inr (.inl (hlt.trans_le hp))
      · rcases hp.lt_or_eq with hlt | h1
        · exact .inr (.inl (heq ▸ hlt))
        · exact .inr (.inr ⟨heq.trans h1, ha h1.symm h6⟩)
    · rw [hr, h2] at hv
      obtain ⟨he, hc⟩ := hs.cert (ho hv)
      refine ⟨he, ?_⟩
      rw [State.cur, hr, h2]
      exact h.staged_or_certAt hw ht he hc
  have hl : s'.player = s.player → Unequivocal (hist ++ obs) s' := fun hl =>
    h1 (by rw [hl]) (by rw [hl]) (.inr ⟨by rw [hl], by rw [hl]; exact fun _ => id⟩)
  -- in a new period or round there are no votes yet
  have hn : (s.player.round < s'.player.round ∨
      s'.player.round = s.player.round ∧ s.player.period < s'.player.period) →
      s'.player.step = Agreement.soft → Unequivocal (hist ++ obs) s' := by
    intro _ hp
    have h3 : ∀ {q v}, ¬ Voted (hist ++ obs) s'.player.round s'.player.period q v := by
      intro q v hv
      have := hs.past (ho hv)
      lia
    refine ⟨hp.ge, fun hv => ?_, fun hc => absurd (hp ▸ hc) (by decide), fun hv => absurd hv h3,
      fun hv => absurd hv h3, fun hv => absurd hv h3, hu⟩
    have := hs.past (ho hv)
    lia
  cases h.shift with
  | stay hr h2 hp ha _ _ => exact h1 hr h2 (.inr ⟨hp, ha⟩)
  | reach _ hy => exact hl hy
  | resolve e _ _ hr _ _ hm =>
    rcases hm with hy | ⟨hlt | ⟨hw, h0⟩, -, hp⟩
    · exact hl hy
    · exact hn (.inr ⟨hr, hlt⟩) hp
    · exact h1 hr (h0.trans hw.period.symm) (.inl hp)
  | newRound hr _ hp => exact hn (.inl hr) hp

/-- A step which casts a vote. -/
theorem Unequivocal.casting (hs : Unequivocal hist s) (h : Move cfg D s obs s') (hw : Wf s)
    (h3 : StagedOk s) (hv : Voted obs r p q v) : Unequivocal (hist ++ obs) s' := by
  obtain ⟨rfl, rfl, h4, h5, h9, hc, hj⟩ := h.casts hv
  have h2 : ∀ {r' p' q' v'}, Voted (hist ++ obs) r' p' q' v' → Voted hist r' p' q' v' ∨
      r' = s.player.round ∧ p' = s.player.period ∧ q' = q ∧ v' = v := by
    intro r' p' q' v' hv'
    rcases voted_append.mp hv' with hv' | hv'
    · exact .inl hv'
    · simp only [Voted, hj, List.mem_singleton, Obs.act.injEq, Action.attest.injEq] at hv'
      exact .inr hv'
  have hps : ∀ {r' p' q' v'}, Voted (hist ++ obs) r' p' q' v' →
      r' < s'.player.round ∨ r' = s'.player.round ∧ p' ≤ s'.player.period := by
    intro r' p' q' v' hv'
    rw [h4, h5]
    rcases h2 hv' with hv' | ⟨rfl, rfl, -, -⟩
    · exact hs.past hv'
    · exact .inr ⟨rfl, le_rfl⟩
  -- it is enough that earlier votes of the same step are for the same value
  have hu : (∀ {w}, q < late → Voted hist s.player.round s.player.period q w → w = v) →
      ∀ {r' p' q' v' w'}, q' < late → Voted (hist ++ obs) r' p' q' v' →
        Voted (hist ++ obs) r' p' q' w' → v' = w' := by
    intro h1 r' p' q' v' w' hq hv' hw'
    rcases h2 hv' with ho | ⟨rfl, rfl, rfl, rfl⟩ <;>
      rcases h2 hw' with ho' | ⟨hr, hp, hq', rfl⟩
    · exact hs.unique hq ho ho'
    · subst hr hp hq'
      exact h1 hq ho
    · exact (h1 hq ho').symm
    · rfl
  have hcr : ∀ {w}, Voted hist s.player.round s.player.period Agreement.cert w → w ≠ bottom ∧
      (s'.cur.staging s'.player.period = w ∨ CertAt s'.cur s'.player.period) := by
    intro w hw'
    obtain ⟨hne, hg⟩ := hs.cert hw'
    refine ⟨hne, ?_⟩
    rw [State.cur, h4, h5]
    exact h.staged_or_certAt hw h3 hne hg
  have hfr : s.cur.frozen s.player.period = true → s'.cur.frozen s'.player.period = true := by
    intro hf
    rw [State.cur, h4, h5]
    exact h.frozen hf
  -- what is left to say of the votes cast before, and of the one cast now
  suffices hm : s.player.step ≤ s'.player.step ∧
      (Agreement.cert ≤ s'.player.step → s'.cur.frozen s'.player.period = true) ∧
      (∀ {q' w}, Voted hist s.player.round s.player.period q' w → Agreement.next ≤ q' → q' < late →
        (s'.player.step = Agreement.soft ∧ s'.cur.frozen s'.player.period = true) ∨
          q' < s'.player.step ∨ q' = s'.player.step ∧ s'.player.napping = false) ∧
      (q = Agreement.soft → s'.cur.frozen s'.player.period = true) ∧
      (Agreement.next ≤ q → q < late → q = s'.player.step ∧ s'.player.napping = false) ∧
      (q = Agreement.cert → v ≠ bottom ∧ s'.cur.staging s'.player.period = v) ∧
      ∀ {w}, q < late → Voted hist s.player.round s.player.period q w → w = v by
    obtain ⟨hle, hf, hx, hs', hx', hc', h1⟩ := hm
    refine ⟨hs.step.trans hle, hps, hf, fun hv' => ?_, fun hv' hq hl => ?_, fun hv' => ?_,
      hu h1⟩ <;> rw [h4, h5] at hv' <;>
      rcases h2 hv' with ho | ⟨-, -, rfl, rfl⟩
    · exact hfr (hs.soft ho)
    · exact hs' rfl
    · exact hx ho hq hl
    · exact .inr (.inr (hx' hq hl))
    · exact hcr ho
    · exact (hc' rfl).imp_right .inl
  cases hc with
  | soft hb h7 _ =>
    obtain ⟨hf, hf'⟩ := (h.leaves_soft hb).resolve_left (by rw [h7]; decide)
    refine ⟨by rw [hb, h7]; decide, fun _ => hf', fun ho hq hl => ?_, fun _ => hf',
      fun hq => absurd hq (by decide), fun hq => absurd hq (by decide), fun _ ho => ?_⟩
    · have := hs.next ho hq hl
      exact absurd hq (by unfold Agreement.soft Agreement.next at *; lia)
    · rw [hs.soft ho] at hf
      cases hf
  | cert h1 hg ha h8 hus =>
    subst h1
    refine ⟨le_rfl, hs.frozen, hs.next, fun hq => absurd hq (by decide),
      fun hq => absurd hq (by decide), fun _ => ⟨h3.ne_bottom ha, hg⟩, fun _ ho => ?_⟩
    obtain ⟨-, hw' | ⟨hk, ht, hpe⟩⟩ := hs.cert ho
    · exact hw'.symm.trans hg
    · -- with a cert threshold of the period the player would have committed instead
      have hf := h3.cert h9 hk ht
      rw [hpe, hg] at hf
      exact absurd ⟨hk, ht, hf.symm⟩ hus
  | next he h8 haw hro =>
    have hq0 : Agreement.next ≤ q := by
      have := hs.step
      lia
    have hle : s.player.step ≤ s'.player.step := by lia
    have hne : ¬ (s.player.step = Agreement.soft ∧ s.cur.frozen s.player.period = true) := by lia
    refine ⟨hle, fun _ => hfr (hs.frozen (by lia)), fun ho hq hl => ?_,
      fun hq => absurd (hq ▸ hq0) (by decide), fun _ _ => ⟨h8.symm, haw⟩,
      fun hq => absurd (hq ▸ hq0) (by decide), fun hl ho => ?_⟩
    · rcases (hs.next ho hq hl).resolve_left hne with hlt | ⟨heq, h6⟩
      · exact .inr (.inl (hlt.trans_le hle))
      · rcases he with ⟨hb, -⟩ | ⟨-, hn', -⟩
        · rw [heq, hb] at hq
          exact absurd hq (by decide)
        · rw [h6] at hn'
          cases hn'
    · rcases (hs.next ho hq0 hl).resolve_left hne with hlt | ⟨heq, h6⟩ <;>
        rcases he with ⟨hb, hq⟩ | ⟨hb, hn', -⟩
      · rw [hq, hb] at hlt
        exact absurd hlt (by decide)
      · exact absurd hb hlt.ne'
      · rw [hq, hb] at heq
        exact absurd heq (by decide)
      · rw [h6] at hn'
        cases hn'
  | fast _ h1 hro =>
    have hl0 := fastVoteStep_late s.cur s.player.period
    have hn : ∀ {q'}, q' < late → s.cur.fastVoteStep s.player.period ≠ q' := fun hq heq =>
      absurd hq (heq ▸ hl0).not_gt
    refine ⟨h1.step.ge, fun hc => hfr (hs.frozen (h1.step ▸ hc)), fun ho hq hl => ?_,
      fun hq => absurd hq (hn (by decide)), fun _ hl => absurd rfl (hn hl),
      fun hq => absurd hq (hn (by decide)), fun hl _ => absurd rfl (hn hl)⟩
    rw [h1.step, h1.napping]
    exact (hs.next ho hq hl).imp_left fun h3 => ⟨h3.1, hfr h3.2⟩

theorem Unequivocal.initial (hp : pl.step = Agreement.soft) :
    Unequivocal [] { player := pl } where
  step := hp.ge
  past h := by cases h
  frozen h := absurd (hp ▸ h) (by decide)
  soft h := by cases h
  next h := by cases h
  cert h := by cases h
  unique _ h := by cases h

/-- What the votes of a run rest on. -/
structure VotesOk (hist : List Obs) (s : State) : Prop where
  wf : Wf s
  staged : StagedOk s
  votes : Unequivocal hist s

theorem Move.votesOk (h : Move cfg D s obs s') (hs : VotesOk hist s) : VotesOk (hist ++ obs) s' := by
  refine ⟨h.wf hs.wf, h.stagedOk hs.wf hs.staged, ?_⟩
  by_cases hv : ∃ r p q v, Voted obs r p q v
  · obtain ⟨r, p, q, v, hv⟩ := hv
    exact hs.votes.casting h hs.wf hs.staged hv
  · push Not at hv
    exact hs.votes.quiet h hs.wf hs.staged hv

theorem VotesOk.initial (hp : pl.step = soft) : VotesOk [] { player := pl } :=
  ⟨Wf.initial pl, StagedOk.initial pl, Unequivocal.initial pl hp⟩

/-- The votes of every run from a fresh player. -/
theorem votesOk_of_steps (hs : VotesOk hist s) (h : Steps (Move cfg D) s obs s') :
    VotesOk (hist ++ obs) s' :=
  h.history (fun _ _ _ _ hP hm => hm.votesOk hP) hs

end NoEquivocation

theorem voted_iff_actions {h : List Obs} :
    Voted h r p q v ↔ .attest r p q v ∈ actions h := mem_actions.symm

end Flat

open Flat

/-- What the votes `l` of a run from round `r₀` to the machine `m` keep to. -/
structure RunVotes (r₀ : Round) (l : List (Event × List Action)) (m : Machine) : Prop where
  start : r₀ ≤ m.player.round
  since : ∀ {r p q v}, .attest r p q v ∈ runActions l → r₀ ≤ r
  upTo : ∀ {r p q v}, .attest r p q v ∈ runActions l → r ≤ m.player.round
  unique : ∀ {r p q v w}, q < late → .attest r p q v ∈ runActions l →
    .attest r p q w ∈ runActions l → v = w

theorem runVotes_of_steps {cfg : Consensus} {d : Duration} {l : List (Event × List Action)}
    {m : Machine} (h : Steps (Handles cfg) (.start r₀ d) l m) : RunVotes r₀ l m := by
  obtain ⟨obs, s, hr, ha, hs⟩ := simulates_of_steps h (Synced.start r₀ d)
  have ho := votesOk_of_steps (VotesOk.initial (Machine.start r₀ d).player rfl) hr
  have hn : r₀ ≤ s.player.round ∧ ∀ r p q v, Voted obs r p q v → r₀ ≤ r := by
    refine hr.history (g := []) (P := fun hist s => r₀ ≤ s.player.round ∧
      ∀ r p q v, Voted hist r p q v → r₀ ≤ r) ?_ ⟨le_rfl, fun _ _ _ _ hv => by cases hv⟩
    rintro hist s1 _ s2 ⟨hle, ht⟩ hm
    have h1 : s1.player.round ≤ s2.player.round := by
      rcases hm.shift.round_le with hl | ⟨he, -⟩
      · exact hl.le
      · exact he.ge
    refine ⟨hle.trans h1, fun r p q v hv => ?_⟩
    rcases voted_append.mp hv with hv | hv
    · exact ht r p q v hv
    · obtain ⟨rfl, -⟩ := hm.casts hv
      exact hle
  simp only [voted_iff_actions, ha] at hn
  refine ⟨hs.rel.player ▸ hn.1, fun hv => hn.2 _ _ _ _ hv, fun hv => ?_, fun hq hv hw => ?_⟩
  · rw [← ha, ← voted_iff_actions] at hv
    rw [hs.rel.player]
    rcases ho.votes.past hv with hl | ⟨he, -⟩
    · exact hl.le
    · exact he.le
  · rw [← ha, ← voted_iff_actions] at hv hw
    exact ho.votes.unique hq hv hw

/-- **The player never equivocates** before the fast recovery steps: along every run from a fresh
start, all its votes for one round, period and step are for the same value. -/
theorem attest_unique {cfg : Consensus} {r₀ : Round} {d : Duration}
    {l : List (Event × List Action)} {m : Machine} (h : Steps (Handles cfg) (.start r₀ d) l m)
    {r : Round} {p : Period} {q : Step} {v w : ProposalValue} (hq : q < late)
    (hv : .attest r p q v ∈ runActions l) (hw : .attest r p q w ∈ runActions l) : v = w :=
  (runVotes_of_steps h).unique hq hv hw

/-- Two proposals arrive, of which the player soft-votes, cert-votes and next-votes the first. -/
theorem attest_unique_voted :
    ∃ l m, Steps (Handles soloConsensus) (.start 1 0) l m ∧ ∀ q ∈ [soft, cert, next],
      .attest 1 0 q valueA ∈ runActions l ∧ ∀ w, .attest 1 0 q w ∈ runActions l → valueA = w := by
  have hr : ((Machine.start 1 0).run soloConsensus 1
      [soloProposalVote (soloVote 4 1 0 propose valueA), soloPayload 1 valueA,
        soloProposalVote (soloVote 6 1 0 propose valueB), .timeout 0,
        soloBundle (soloVote 4 1 0 soft valueA), .timeout 0]).map
      (fun x => decide (∀ q ∈ [soft, cert, next], .attest 1 0 q valueA ∈ runActions x.2)) =
        some true := by decide +kernel
  obtain ⟨⟨m, l⟩, hm, hv⟩ := Option.map_eq_some_iff.mp hr
  have hv := of_decide_eq_true hv
  obtain ⟨hs, -⟩ := Machine.run_steps hm
  have hq : ∀ q ∈ [soft, cert, next], q < late := by decide
  exact ⟨l, m, hs, fun q h => ⟨hv q h, fun w hw => attest_unique hs (hq q h) (hv q h) hw⟩⟩

end Novarand.Agreement
