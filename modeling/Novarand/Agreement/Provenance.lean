import Novarand.Agreement.Lock

/-!
# Where votes and commits come from

What the history of one player says about every quorum it must have counted before it voted or
committed: a soft vote after period 0 follows a next quorum of the period before, or a quorum of its
own period; a cert vote follows a soft quorum; a next vote after a cert vote agrees with it unless a
quorum for another value came in between; a commit follows a cert quorum. These four facts are all
that agreement between players needs to know about the player.
-/

namespace Novarand.Agreement

variable {cfg : Consensus} {D : Flat.State → Flat.Input → Prop} {s s' : Flat.State}
  {obs hist : List Flat.Obs}

/-! ## A payload belongs to its value -/

variable {frozen v : ProposalValue} (pl : Player)

namespace ProposalStore

/-- Every assembled payload is the payload of the value it is stored under. -/
def PayloadOk (st : ProposalStore) : Prop :=
  ∀ v, (st.assembler v).assembled = true → (st.assembler v).payload.value = v

variable {st : ProposalStore}

theorem payloadOk_trim (h : st.PayloadOk) : (st.trim pl).PayloadOk := by
  intro v ha
  have ho := assembled_of_trim ha
  rw [assembler_trim] at ha ⊢
  split_ifs at ha ⊢
  exact h v ho

section

variable (h : st.PayloadOk)
include h

theorem payloadOk_insert {ea : BlockAssembler} (he : ea.assembled = true → ea.payload.value = v)
    (rel : Dict Period ProposalValue) (pin : ProposalValue) : PayloadOk
      { relevant := rel, pinned := pin, assemblers := st.assemblers.insert v ea } := by
  intro w ha
  rw [assembler_insert] at ha ⊢
  split_ifs at ha ⊢ with hw
  · rw [hw]
    exact he ha
  · exact h w ha

variable (pl : Player)

theorem PayloadOk.acceptVote (w : Vote) : (st.acceptVote pl w).PayloadOk := by
  refine payloadOk_trim pl (payloadOk_insert h ?_ _ _)
  exact fun ha => h w.r.proposal ha

theorem PayloadOk.payloadPresent (up : UnauthenticatedProposal) :
    (st.payloadPresent pl up).1.PayloadOk := by
  cases hl : st.assemblers.lookup up.value with
  | none => simpa only [ProposalStore.payloadPresent, hl] using h
  | some ea =>
    have he : st.assembler up.value = ea := by rw [assembler, Dict.getD, hl]; rfl
    have hi : PayloadOk { st with
        assemblers := st.assemblers.insert up.value (ea.addPipeline up).1 } := by
      refine payloadOk_insert h (fun ha => ?_) _ _
      have ho := h up.value
      rw [he] at ho
      unfold BlockAssembler.addPipeline at ha ⊢
      split_ifs at ha ⊢ <;> exact ho ha
    simp only [ProposalStore.payloadPresent, hl]
    split_ifs <;> exact hi

theorem PayloadOk.bindPayload (pp : Proposal) : (st.bindPayload pp).1.PayloadOk := by
  cases hl : st.assemblers.lookup pp.value with
  | none => simpa only [ProposalStore.bindPayload, hl] using h
  | some ea =>
    have he : st.assembler pp.value = ea := by rw [assembler, Dict.getD, hl]; rfl
    simp only [ProposalStore.bindPayload, hl]
    refine payloadOk_insert h (fun hm => ?_) _ _
    unfold BlockAssembler.bind at hm ⊢
    split_ifs at hm ⊢ with ha
    · rw [← he] at ha ⊢
      exact h _ ha
    · rfl

theorem PayloadOk.newPeriod (target : Period) (starting staged : ProposalValue) :
    (st.newPeriod pl target starting staged).PayloadOk :=
  payloadOk_trim pl h

theorem PayloadOk.threshold (per : Period) (pv : ProposalValue) :
    (st.threshold pl per pv).1.PayloadOk := by
  unfold ProposalStore.threshold
  split_ifs
  · exact h
  · exact payloadOk_trim pl (payloadOk_insert h (h pv) _ _)

end

end ProposalStore

variable {p : Period}

namespace Flat

theorem Move.payloadOk (h : Move cfg D s obs s') (hs : ∀ r, (s.rounds r).store.PayloadOk) :
    ∀ r, (s'.rounds r).store.PayloadOk :=
  h.store (fun _ _ _ h => h.acceptVote _ _) (fun _ _ _ h => h.payloadPresent _ _)
    (fun _ _ h => h.bindPayload _) (fun _ _ _ _ _ h => h.newPeriod _ _ _ _)
    (fun _ _ _ _ h => h.threshold _ _ _) hs

/-! ## How the player got into its period -/

/-- Some next threshold of the period has been seen. -/
def Seen (c : NextThresholdStatus) : Prop := c.bottom = true ∨ c.proposal ≠ bottom

theorem seen_cacheNext (c : NextThresholdStatus) (pv : ProposalValue) : Seen (cacheNext c pv) := by
  unfold cacheNext Seen
  split_ifs with hb
  · exact .inl rfl
  · exact .inr hb

theorem Move.seen (h : Move cfg D s obs s') {r : Round} (hs : Seen ((s.rounds r).period p).cached) :
    Seen ((s'.rounds r).period p).cached := by
  rcases h.votes with ⟨hm, -⟩ | ⟨v, _, _, _, -, hc⟩
  · rw [((hm r).2 p).2]
    exact hs
  · by_cases hr : (r, p) = (v.r.round, v.r.period)
    · obtain ⟨rfl, rfl⟩ := Prod.mk.inj hr
      rw [hc.cached]
      split_ifs
      · exact seen_cacheNext _ _
      · exact hs
    · rw [hc.others r p hr]
      exact hs

theorem Move.staging_ne (h : Move cfg D s obs s') (hw : Wf s) {r : Round}
    (hs : (s.rounds r).staging p ≠ bottom) : (s'.rounds r).staging p ≠ bottom := by
  rcases h.staging r p with ⟨he, -⟩ | ⟨e, ht⟩
  · rw [he]
    exact hs
  · rw [ht.value]
    exact (hw.isThreshold ht.pending).value ht.kind

/-- A later period was entered with a next threshold of the period before, or one of its own. -/
structure EntryOk (s : State) : Prop where
  fresh : ∀ r, (s.rounds r).fresh.ok = true → (s.rounds r).fresh.freshest.t = .nextThreshold →
    Seen ((s.rounds r).period (s.rounds r).fresh.freshest.period).cached
  entered : ∀ p, s.player.period = p + 1 →
    Seen (s.cur.period p).cached ∨ s.cur.staging (p + 1) ≠ bottom

theorem EntryOk.initial (hp : pl.period = 0) : EntryOk { player := pl } where
  fresh _ h := by cases h
  entered p h := by
    rw [hp] at h
    cases h

theorem Move.entryOk (h : Move cfg D s obs s') (hw : Wf s) (hs : EntryOk s) : EntryOk s' := by
  have hf : ∀ r, (s'.rounds r).fresh.ok = true →
      (s'.rounds r).fresh.freshest.t = .nextThreshold →
      Seen ((s'.rounds r).period (s'.rounds r).fresh.freshest.period).cached := by
    intro r ho ht
    rcases h.votes with ⟨h2, -⟩ | ⟨v, _, _, te, -, hc⟩
    · rw [(h2 r).1] at ho ht ⊢
      exact h.seen (hs.fresh r ho ht)
    · rcases hc.fresh r with ⟨hq, -⟩ | ⟨rfl, hne, -, hq⟩
      · rw [hq] at ho ht ⊢
        exact h.seen (hs.fresh r ho ht)
      · obtain ⟨hh, he, _⟩ := (hc.isThreshold (hw.held _ _ _)).2 hne
        rw [hq] at ht ⊢
        rw [he, hc.cached, if_pos ⟨hne, hh.next_le ht⟩]
        exact seen_cacheNext _ _
  refine ⟨hf, fun p hp => ?_⟩
  -- within a round and period, what was seen stays seen
  have hk : s'.player.round = s.player.round → s.player.period = p + 1 →
      Seen (s'.cur.period p).cached ∨ s'.cur.staging (p + 1) ≠ bottom := by
    intro hr he
    rw [State.cur, hr]
    exact (hs.entered p he).imp h.seen (h.staging_ne hw)
  cases h.shift with
  | stay hr h3 => exact hk hr (h3 ▸ hp)
  | reach te hl => exact hk (by rw [hl]) (by rw [← hl, hp])
  | resolve e hb _ hr _ _ hm h4 =>
    rcases hm with h2 | ⟨hlt, h1, -⟩
    · exact hk hr (by rw [← h2, hp])
    have hlt : s.player.period < s'.player.period := by lia
    · have hu : (s.rounds s.player.round).fresh = _ := hw.pending e hb
      have hh := hw.isThreshold hb
      rw [hp, ThresholdEvent.target] at h1
      cases ht : e.t with
      | none => exact absurd ht hh.ne_none
      | nextThreshold =>
        have h1 : p = e.period := by
          rw [if_pos ht, nextPeriod] at h1
          lia
        have hn := hs.fresh s.player.round (by rw [hu]) (by rw [hu]; exact ht)
        rw [hu] at hn
        rw [h1, State.cur, hr]
        exact .inl (h.seen hn)
      | softThreshold =>
        rw [if_neg (by simp [ht])] at h1
        rw [h1, h4 (.inr ⟨ht, hlt⟩)]
        exact .inr (hh.value (.inl ht))
      | certThreshold =>
        rw [if_neg (by simp [ht])] at h1
        rw [h1, h4 (.inl ht)]
        exact .inr (hh.value (.inr ht))
  | newRound _ h3 =>
    rw [h3] at hp
    cases hp

end Flat

/-! ## The four facts -/

/-- What the actions `acts` of a player rest on, among the votes which satisfy `P`. -/
structure Provenance (cfg : Consensus) (P : Vote → ConsensusVersion → Prop) (acts : List Action) :
    Prop where
  soft : ∀ {r p u}, .attest r (p + 1) soft u ∈ acts →
    (∃ q u', next ≤ q ∧ (u' = u ∨ u' = bottom) ∧ HasQuorum cfg P r p q u') ∨
      ∃ u', HasQuorum cfg P r (p + 1) soft u' ∨ HasQuorum cfg P r (p + 1) cert u'
  cert : ∀ {r p u}, .attest r p cert u ∈ acts → u ≠ bottom ∧ HasQuorum cfg P r p Agreement.soft u
  next : ∀ {r p p' q v w}, .attest r p Agreement.cert v ∈ acts → .attest r p' q w ∈ acts →
    p ≤ p' → Agreement.next ≤ q → w = v ∨ Flat.Deviated cfg P r p p' v
  last : ∀ {r p q w}, .attest r p q w ∈ acts → Agreement.next ≤ q → p ≠ lastPeriod
  ensure : ∀ {pp b}, .ensure pp b ∈ acts → ∃ p, HasQuorum cfg P b.round p Agreement.cert pp.value

theorem Provenance.mono {P P' : Vote → ConsensusVersion → Prop}
    {acts : List Action} (h : Provenance cfg P acts) (hs : ∀ v proto, P v proto → P' v proto) :
    Provenance cfg P' acts where
  soft hv := by
    rcases h.soft hv with ⟨q, u', hq, hu, hQ⟩ | ⟨u', hQ⟩
    · exact .inl ⟨q, u', hq, hu, hQ.mono hs⟩
    · exact .inr ⟨u', hQ.imp (·.mono hs) (·.mono hs)⟩
  cert hv := ⟨(h.cert hv).1, (h.cert hv).2.mono hs⟩
  next hv hw hp hq := (h.next hv hw hp hq).imp_right (·.mono hs le_rfl)
  last := h.last
  ensure he := by
    obtain ⟨p, hQ⟩ := h.ensure he
    exact ⟨p, hQ.mono hs⟩

namespace Flat

/-- The soft vote of a later period follows what was seen of the period before. -/
theorem softVoteValue_some {c : NextThresholdStatus}
    (h : Machine.softVoteValue (p + 1) frozen c = some v) :
    c.proposal = v ∧ v ≠ bottom ∨ c.bottom = true ∨ ¬ Seen c := by
  by_cases hb : c.bottom = true
  · exact .inr (.inl hb)
  by_cases hv : c.proposal = bottom
  · refine .inr (.inr ?_)
    rintro (h' | h')
    · exact hb h'
    · exact h' hv
  · unfold Machine.softVoteValue at h
    rw [if_pos ⟨Nat.succ_pos p, hb, hv⟩, Option.some.injEq] at h
    exact .inl ⟨h, h ▸ hv⟩

/-- A player locked on `v` next-votes `v`, or has counted a deviating quorum. -/
theorem Locked.nextVote (h : Locked cfg hist s p v) (hs : LockState cfg hist s) (he : EntryOk s)
    (hn : s.pending = none) (hv : v ≠ bottom) :
    s.cur.nextVoteValue s.player.period = v ∨
      Deviated cfg (Saw hist) s.player.round p s.player.period v := by
  cases h with
  | deviated hd => exact .inr hd
  | leaving e hp => rw [hn] at hp; cases hp
  | here h3 ht ha =>
    subst h3
    refine .inl ?_
    rw [RoundState.nextVoteValue, ht, if_pos ha]
  | pinned hlt _ ha =>
    obtain ⟨k, hk⟩ := Nat.exists_eq_add_one_of_ne_zero (Nat.ne_zero_of_lt hlt)
    have hr : prevPeriod s.player.period = k := by
      rw [hk, prevPeriod]
      rfl
    have h1 : p ≤ k := by lia
    have hl : k < s.player.period := by lia
    -- a staged value other than `v` has its quorum in this period
    have hg : s.cur.staging s.player.period ≠ bottom →
        s.cur.staging s.player.period ≠ v →
        Deviated cfg (Saw hist) s.player.round p s.player.period v := by
      intro hne ho
      rcases hs.evidence.staged_quorum hs.votes.wf hne with hQ | hQ
      · exact .inr (.inl ⟨_, _, hlt, le_rfl, ho, hQ⟩)
      · exact .inl ⟨_, _, le_rfl, ho, hQ⟩
    unfold RoundState.nextVoteValue
    by_cases hc : s.cur.assembled (s.cur.staging s.player.period) = true
    · rw [if_pos hc]
      by_cases heq : s.cur.staging s.player.period = v
      · exact .inl heq
      · exact .inr (hg (hs.votes.staged.ne_bottom hc) heq)
    · rw [if_neg hc, hr]
      by_cases hb : (s.cur.period k).cached.bottom = true
      · obtain ⟨q, hq, hQ⟩ := hs.evidence.cachedBottom _ _ hb
        exact .inr (.inr (.inr (.inl ⟨k, bottom, q, h1, hl, hv.symm, hq, hQ⟩)))
      · rw [if_neg hb]
        by_cases heq : (s.cur.period k).cached.proposal = v
        · exact .inl heq
        · refine .inr ?_
          by_cases h2 : (s.cur.period k).cached.proposal = bottom
          · -- the period was entered with a threshold of its own, for a value without a block
            have hu : ¬ Seen (s.cur.period k).cached := by
              rintro (h' | h')
              · exact hb h'
              · exact h' h2
            have ht := (he.entered k hk).resolve_left hu
            rw [← hk] at ht
            refine hg ht fun he' => hc ?_
            rw [he']
            exact ha
          · obtain ⟨q, hq, hQ⟩ := hs.evidence.cachedValue _ _ h2
            exact .inr (.inr (.inl ⟨k, _, q, h1, hl, heq, hq, hQ⟩))

/-- A commit has the cert threshold of the round and the payload of its value. -/
theorem Move.ensures (h : Move cfg D s obs s') {pp : Proposal} {b : UnauthenticatedBundle}
    (hb : .act (.ensure pp b) ∈ obs) :
    b = s.cur.fresh.freshest.bundle ∧ ∃ v, CertSeen s.cur v ∧ s.cur.assembled v = true ∧
      (s.cur.store.assembler v).payload = pp := by
  cases h with
  | idle p' _ hp ha =>
    obtain ⟨a, hm, he⟩ := List.mem_map.mp hb
    cases he
    exact absurd (ha _ hm) id
  | proposalVote | pipeline | bind | ignore | stage | forward | await | advance | interrupt | nap =>
    cases hb
  | count | reach | certVote | certTimeout | nextVote | fastVote => simp at hb
  | softTimeout p' c _ _ _ _ hp =>
    revert hb
    split <;> simp
  | commit _ v _ hr h1 h2 =>
    simp only [List.mem_singleton, Obs.act.injEq, Action.ensure.injEq] at hb
    obtain ⟨rfl, rfl⟩ := hb
    exact ⟨rfl, v, hr, h1, h2⟩

/-- Everything known about a player along a run. -/
structure Grounded (cfg : Consensus) (h : List Obs) (s : State) : Prop where
  lock : LockState cfg h s
  entry : EntryOk s
  payload : ∀ r, (s.rounds r).store.PayloadOk
  late : ∀ {q v}, Voted h s.player.round s.player.period q v → next ≤ q →
    next ≤ s.player.step ∨ s.player.period = 0 ∧ Rewound cfg (Saw h) s.player.round
  provenance : Provenance cfg (Saw h) (actions h)

theorem Grounded.initial (hs : pl.step = soft) (hp : pl.period = 0) :
    Grounded cfg [] { player := pl } where
  lock := LockState.initial pl hs
  entry := EntryOk.initial pl hp
  payload _ _ h := by cases h
  late h := by cases h
  provenance :=
    { soft := fun h => by cases h
      cert := fun h => by cases h
      next := fun h _ _ _ => by cases h
      last := fun h _ => by cases h
      ensure := fun h => by cases h }

/-- The condition on fast timeouts: the player is past the cert step. -/
def FastLate (s : State) : Input → Prop
  | .fast => next ≤ s.player.step
  | _ => True

theorem Move.late (hD : ∀ s x, D s x → FastLate s x) (h : Move cfg D s obs s')
    (hs : Grounded cfg hist s) {q : Step}
    (hv : Voted (hist ++ obs) s'.player.round s'.player.period q v) (hq : next ≤ q) :
    next ≤ s'.player.step ∨
      s'.player.period = 0 ∧ Rewound cfg (Saw (hist ++ obs)) s'.player.round := by
  rcases voted_append.mp hv with ho | hn
  · have h1 := hs.lock.votes.votes.past ho
    have hl := h.shift.round_le
    have hr : s'.player.round = s.player.round := by lia
    have hp : s'.player.period = s.player.period := by lia
    rw [hr, hp] at ho ⊢
    by_cases hw : ∃ e, s.pending = some e ∧ Rewinds s e
    · obtain ⟨e, he, hw⟩ := hw
      have hQ := hs.lock.evidence.pending hs.lock.votes.wf he
      rw [hw.last] at hQ
      exact .inr ⟨hw.period, _, _, (hs.lock.votes.wf.isThreshold he).next_le hw.t,
        quorum_append obs hQ⟩
    · have hle := h.shift.position_le (by simpa using hw)
      rw [Player.position_le_iff] at hle
      exact (hs.late ho hq).imp (by lia) fun h0 => ⟨h0.1, h0.2.mono saw_append_left⟩
  · obtain ⟨-, -, -, -, -, hc, -⟩ := h.casts hn
    rcases (hc.of_next hq).2.2 with ht | ⟨hf, ht⟩
    · exact .inl ht
    · rw [ht]
      exact .inl (hD s _ hf)

theorem Move.provenance (h : Move cfg D s obs s') (hs : Grounded cfg hist s) :
    Provenance cfg (Saw (hist ++ obs)) (actions (hist ++ obs)) := by
  have ho : Provenance cfg (Saw (hist ++ obs)) (actions hist) :=
    hs.provenance.mono saw_append_left
  have h2 : ∀ {a}, a ∈ actions (hist ++ obs) → a ∈ actions hist ∨ .act a ∈ obs := by
    intro a ha
    rw [actions_append, List.mem_append] at ha
    exact ha.imp_right mem_actions.mp
  refine ⟨fun {r p u} hv => ?_, fun {r p u} hv => ?_, fun {r p p' q v w} hv hw hp hq => ?_,
    fun {r p q w} hw hq => ?_, fun {pp b} hb => ?_⟩
  · rcases h2 hv with hv | hv
    · exact ho.soft hv
    · obtain ⟨rfl, he, -, -, -, hc, -⟩ := h.casts hv
      have h1 := hc.of_soft
      rw [← he] at h1
      rcases softVoteValue_some h1 with ⟨rfl, hne⟩ | hb | hu
      · obtain ⟨q, hq, hQ⟩ := hs.lock.evidence.cachedValue _ _ hne
        exact .inl ⟨q, _, hq, .inl rfl, quorum_append obs hQ⟩
      · obtain ⟨q, hq, hQ⟩ := hs.lock.evidence.cachedBottom _ _ hb
        exact .inl ⟨q, _, hq, .inr rfl, quorum_append obs hQ⟩
      · have h4 := (hs.entry.entered p he.symm).resolve_left hu
        exact .inr ⟨_, (hs.lock.evidence.staged_quorum hs.lock.votes.wf h4).imp
          (quorum_append obs) (quorum_append obs)⟩
  · rcases h2 hv with hv | hv
    · exact ho.cert hv
    · obtain ⟨rfl, rfl, -, -, -, hc, -⟩ := h.casts hv
      obtain ⟨-, hg, hm, -, hu⟩ := hc.of_cert
      have hne := hs.lock.votes.staged.ne_bottom hm
      refine ⟨hne, ?_⟩
      have hs' : (s.rounds s.player.round).staging s.player.period = u := hg
      rcases hs.lock.evidence.staged s.player.round s.player.period (hs' ▸ hne) with
        hQ | ⟨⟨hk, ht, -⟩, h1⟩
      · rw [hs'] at hQ
        exact quorum_append obs hQ
      · -- with a cert threshold for the value the player would have committed
        exact absurd ⟨hk, ht, h1.trans hg⟩ hu
  · rcases h2 hv with hv | hv <;> rcases h2 hw with hw | hw
    · exact ho.next hv hw hp hq
    · obtain ⟨rfl, rfl, -, -, hn, hc, -⟩ := h.casts hw
      obtain ⟨hne, hl⟩ := hs.lock.lock p v (voted_iff_actions.mpr hv)
      rw [(hc.of_next hq).1]
      exact (hl.nextVote hs.lock hs.entry hn hne).imp_right (·.append le_rfl obs)
    · -- the cert vote would come after a next vote of the same period
      obtain ⟨rfl, rfl, -, -, -, hc, -⟩ := h.casts hv
      obtain ⟨-, -, -, hstp, -⟩ := hc.of_cert
      have hw' := voted_iff_actions.mpr hw
      have h7 := hs.lock.votes.votes.past hw'
      have he : p' = s.player.period := by lia
      subst he
      rcases hs.late hw' hq with hl | ⟨h0, hR⟩
      · exact absurd (hl.trans hstp) (by decide)
      · exact .inr (.inr (.inr (.inr ⟨h0, hR.mono saw_append_left⟩)))
    · obtain ⟨-, -, -, -, -, -, h5⟩ := h.casts hv
      rw [h5, List.mem_singleton] at hw
      obtain ⟨-, -, rfl, -⟩ := hw
      exact absurd hq (by decide)
  · rcases h2 hw with hw | hw
    · exact ho.last hw hq
    · obtain ⟨-, rfl, -, -, -, hc, -⟩ := h.casts hw
      exact (hc.of_next hq).2.1
  · rcases h2 hb with hb | hb
    · exact ho.ensure hb
    · obtain ⟨rfl, v, ⟨hk, ht, h1⟩, hm, rfl⟩ := h.ensures hb
      have hh := hs.lock.votes.wf.fresh _ hk
      have hQ := hs.lock.evidence.fresh _ hk
      rw [thresholdType_eq_cert (hh.t.symm.trans ht)] at hQ
      refine ⟨s.cur.fresh.freshest.period, quorum_append obs ?_⟩
      have h6 : (s.cur.store.assembler v).payload.value = v := hs.payload _ v hm
      have hr : s.cur.fresh.freshest.bundle.round = s.player.round := hh.bundleRound
      rw [h6, hr, ← h1]
      exact hQ

theorem Move.grounded (hk : ∀ s x, D s x → KeepsStaged s x) (hl : ∀ s x, D s x → FastLate s x)
    (h : Move cfg D s obs s') (hs : Grounded cfg hist s) : Grounded cfg (hist ++ obs) s' where
  lock := h.lockState hk hs.lock
  entry := h.entryOk hs.lock.votes.wf hs.entry
  payload := h.payloadOk hs.payload
  late := h.late hl hs
  provenance := h.provenance hs

theorem grounded_of_steps (hk : ∀ s x, D s x → KeepsStaged s x) (hl : ∀ s x, D s x → FastLate s x)
    (hs : Grounded cfg hist s) (h : Steps (Move cfg D) s obs s') : Grounded cfg (hist ++ obs) s' :=
  h.history (fun _ _ _ _ hP hm => hm.grounded hk hl hP) hs

end Flat

end Novarand.Agreement
