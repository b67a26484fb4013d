import Novarand.Agreement.Voting

/-!
# Thresholds rest on quorums

A quorum is a set of votes with different senders, each of which votes for the value or belongs to
an equivocator, whose weights reach the threshold of the step. Every threshold a vote tracker
reports, and so every value the player stages or carries into its next period, has a quorum among
the votes counted so far.
-/

namespace Novarand.Agreement

open Finset Dict VoteTracker

/-! ## Quorums among given votes -/

/-- The votes `S` which satisfy `P` make up a quorum for `pv` in one round, period and step. -/
structure Quorum (cfg : Consensus) (P : Vote → ConsensusVersion → Prop) (r : Round) (p : Period)
    (q : Step) (pv : ProposalValue) (S : Finset Vote) : Prop where
  votes : ∀ v ∈ S, Flat.At r p q v ∧ ∃ proto, P v proto
  support : ∀ v ∈ S, v.r.proposal = pv ∨ ∃ w proto, P w proto ∧ Flat.At r p q w ∧
    w.r.sender = v.r.sender ∧ w.r.proposal ≠ v.r.proposal
  senders : Set.InjOn (fun v : Vote => v.r.sender) S
  weight : ∃ v proto, P v proto ∧ Flat.At r p q v ∧
    reachesQuorum q (cfg proto) (∑ v ∈ S, v.cred.weight) = true

/-- There is a quorum for `pv` among the votes which satisfy `P`. -/
def HasQuorum (cfg : Consensus) (P : Vote → ConsensusVersion → Prop) (r : Round) (p : Period)
    (q : Step) (pv : ProposalValue) : Prop := ∃ S, Quorum cfg P r p q pv S

/-- There is a next quorum of the last period among the votes which satisfy `P`; it takes a player in
period 0 back to the start of the period. -/
def Rewound (cfg : Consensus) (P : Vote → ConsensusVersion → Prop) (r : Round) : Prop :=
  ∃ v q, next ≤ q ∧ HasQuorum cfg P r lastPeriod q v

section Mono

variable {cfg : Consensus} {P P' : Vote → ConsensusVersion → Prop} {r : Round} {p : Period} {q : Step}
  {pv : ProposalValue} (hsub : ∀ v proto, P v proto → P' v proto)
include hsub

theorem Quorum.mono {S : Finset Vote} (h : Quorum cfg P r p q pv S) :
    Quorum cfg P' r p q pv S where
  votes v hv := by
    obtain ⟨ha, pr, hP⟩ := h.votes v hv
    exact ⟨ha, pr, hsub v pr hP⟩
  support v hv := (h.support v hv).imp_right fun ⟨w, pr, hP, hr⟩ =>
    ⟨w, pr, hsub w pr hP, hr⟩
  senders := h.senders
  weight := by
    obtain ⟨v, pr, hP, hr⟩ := h.weight
    exact ⟨v, pr, hsub v pr hP, hr⟩

theorem HasQuorum.mono (h : HasQuorum cfg P r p q pv) : HasQuorum cfg P' r p q pv :=
  h.imp fun _ hS => hS.mono hsub

theorem Rewound.mono (h : Rewound cfg P r) : Rewound cfg P' r :=
  h.imp fun _ => Exists.imp fun _ hQ => ⟨hQ.1, hQ.2.mono hsub⟩

end Mono

/-! ## The weights of a vote tracker -/

variable {proto : ConsensusVersion}

namespace VoteTracker

variable {P Q : Vote → Prop} {t t' : VoteTracker} {v old : Vote}

/-- The counters of a tracker are backed by recorded votes of the same weight. -/
structure Backed (P : Vote → Prop) (t : VoteTracker) : Prop where
  holds : Holds P t
  counts : ∀ pv, ∃ S : Finset Vote,
    (∀ v ∈ S, t.voters.lookup v.r.sender = some v ∧ v.r.proposal = pv) ∧
      (t.counts.getD pv {}).count ≤ ∑ v ∈ S, v.cred.weight
  equivocators : ∃ E : Finset Vote,
    (∀ v ∈ E, P v ∧ (t.equivocators.lookup v.r.sender).isSome = true) ∧
      Set.InjOn (fun v : Vote => v.r.sender) E ∧
      t.equivocatorsCount ≤ ∑ v ∈ E, v.cred.weight

theorem backed_empty : Backed P {} where
  holds := holds_empty
  counts pv := ⟨∅, by simp, by simp [getD]⟩
  equivocators := ⟨∅, by simp, by simp, by simp⟩

theorem Backed.mono (h : Backed P t) (hp : ∀ v, P v → Q v) : Backed Q t where
  holds := h.holds.mono hp
  counts := h.counts
  equivocators := by
    obtain ⟨E, hE, hr⟩ := h.equivocators
    exact ⟨E, fun v hv => ⟨hp v (hE v hv).1, (hE v hv).2⟩, hr⟩

theorem Backed.addVote (h : Backed P t) (hP : P v)
    (hn : t.equivocators.lookup v.r.sender = none) (ht : t.voters.lookup v.r.sender = none) :
    Backed P (t.addVote v) where
  holds := h.holds.addVote hP hn
  counts pv := by
    obtain ⟨S, hS, hc⟩ := h.counts pv
    -- the recorded votes of other senders are still there
    have ho : ∀ w ∈ S, (t.addVote v).voters.lookup w.r.sender = some w := by
      intro w hw
      have he : w.r.sender ≠ v.r.sender := by
        intro hq
        rw [← hq, (hS w hw).1] at ht
        cases ht
      simp only [VoteTracker.addVote, lookup_insert', if_neg he]
      exact (hS w hw).1
    by_cases hp : pv = v.r.proposal
    · subst hp
      have hf : v ∉ S := by
        intro hv
        rw [(hS v hv).1] at ht
        cases ht
      refine ⟨insert v S, fun w hw => ?_, ?_⟩
      · rcases mem_insert.mp hw with rfl | hw
        · exact ⟨by simp only [addVote, lookup_insert', if_true], rfl⟩
        · exact ⟨ho w hw, (hS w hw).2⟩
      · rw [sum_insert hf]
        simp only [VoteTracker.addVote, getD_insert, if_true]
        omega
    · refine ⟨S, fun w hw => ⟨ho w hw, (hS w hw).2⟩, ?_⟩
      simp only [VoteTracker.addVote, getD_insert, if_neg hp]
      exact hc
  equivocators := h.equivocators

theorem Backed.addEquivocator (h : Backed P t) (hP : P v)
    (hn : t.equivocators.lookup v.r.sender = none)
    (ho : t.voters.lookup v.r.sender = some old) (hne : old.r.proposal ≠ v.r.proposal) :
    Backed P (t.addEquivocator old v) where
  holds := h.holds.addEquivocator hP ho hne
  counts pv := by
    obtain ⟨S, hS, hc⟩ := h.counts pv
    have hk : ∀ w ∈ S, w ≠ old → (t.addEquivocator old v).voters.lookup w.r.sender = some w := by
      intro w hw h1
      have hs : w.r.sender ≠ v.r.sender := by
        intro he
        have hl := (hS w hw).1
        rw [he, ho, Option.some.injEq] at hl
        exact h1 hl.symm
      simp only [VoteTracker.addEquivocator, lookup_erase', if_neg hs]
      exact (hS w hw).1
    by_cases hp : pv = old.r.proposal
    · subst hp
      refine ⟨S.erase old, fun w hw => ?_, ?_⟩
      · obtain ⟨h1, hw⟩ := mem_erase.mp hw
        exact ⟨hk w hw h1, (hS w hw).2⟩
      · have hu : ∑ w ∈ S, w.cred.weight ≤ ∑ w ∈ S.erase old, w.cred.weight + old.cred.weight := by
          by_cases hm : old ∈ S
          · rw [sum_erase_add _ _ hm]
          · rw [erase_eq_of_notMem hm]
            exact Nat.le_add_right _ _
        have h3 : ((t.addEquivocator old v).counts.getD old.r.proposal {}).count ≤
            (t.counts.getD old.r.proposal {}).count - old.cred.weight := by
          simp only [VoteTracker.addEquivocator]
          split_ifs with hle
          · simp [getD]
          · simp [getD_insert]
        omega
    · refine ⟨S, fun w hw => ⟨hk w hw ?_, (hS w hw).2⟩, ?_⟩
      · rintro rfl
        exact hp (hS w hw).2.symm
      · have h3 : (t.addEquivocator old v).counts.getD pv {} = t.counts.getD pv {} := by
          simp only [VoteTracker.addEquivocator]
          split_ifs with hle
          · simp [getD, hp]
          · simp [getD_insert, hp]
        rw [h3]
        exact hc
  equivocators := by
    obtain ⟨E, hE, hi, hc⟩ := h.equivocators
    have h2 : ∀ w ∈ E, w.r.sender ≠ v.r.sender := by
      intro w hw he
      have h4 := (hE w hw).2
      rw [he, hn] at h4
      cases h4
    have hf : v ∉ E := fun hv => h2 v hv rfl
    refine ⟨insert v E, fun w hw => ?_, ?_, ?_⟩
    · simp only [VoteTracker.addEquivocator, lookup_insert']
      rcases mem_insert.mp hw with rfl | hw
      · exact ⟨hP, by simp⟩
      · rw [if_neg (h2 w hw)]
        exact hE w hw
    · rw [coe_insert, Set.injOn_insert (by exact_mod_cast hf)]
      refine ⟨hi, ?_⟩
      rintro ⟨w, hw, he⟩
      exact h2 w (by exact_mod_cast hw) he
    · rw [sum_insert hf]
      simp only [VoteTracker.addEquivocator]
      omega

/-- The weight counted for a value belongs to recorded votes with different senders. -/
theorem Backed.count_le (h : Backed P t) (pv : ProposalValue) :
    ∃ S : Finset Vote, (∀ v ∈ S, P v) ∧
      (∀ v ∈ S, v.r.proposal = pv ∨ ∃ w, P w ∧ w.r.sender = v.r.sender ∧
        w.r.proposal ≠ v.r.proposal) ∧
      Set.InjOn (fun v : Vote => v.r.sender) S ∧ t.count pv ≤ ∑ v ∈ S, v.cred.weight := by
  obtain ⟨S, hS, _⟩ := h.counts pv
  obtain ⟨E, hE, hi, _⟩ := h.equivocators
  have hd : ∀ v ∈ S, ∀ w ∈ E, v.r.sender ≠ w.r.sender := by
    intro v hv w hw hq
    obtain ⟨e, he⟩ := Option.isSome_iff_exists.mp (hE w hw).2
    have hn := (h.holds.equivocated _ e he).1
    rw [← hq, (hS v hv).1] at hn
    cases hn
  have hu : Disjoint S E := disjoint_left.mpr fun v hv hv' => hd v hv v hv' rfl
  refine ⟨S ∪ E, fun v hv => ?_, fun v hv => ?_, ?_, ?_⟩
  · rcases mem_union.mp hv with hv | hv
    · exact (h.holds.voters _ _ (hS v hv).1).2
    · exact (hE v hv).1
  · rcases mem_union.mp hv with hv | hv
    · exact .inl (hS v hv).2
    · -- one of the two votes of an equivocator differs from any given one
      obtain ⟨e, he⟩ := Option.isSome_iff_exists.mp (hE v hv).2
      obtain ⟨-, v₁, v₂, h1, h2, hs1, hs2, hne⟩ := h.holds.equivocated _ e he
      by_cases hq : v₁.r.proposal = v.r.proposal
      · exact .inr ⟨v₂, h2, hs2, fun h => hne (hq.trans h.symm)⟩
      · exact .inr ⟨v₁, h1, hs1, hq⟩
  · intro v hv w hw hq
    simp only [coe_union, Set.mem_union, mem_coe] at hv hw
    rcases hv with hv | hv <;> rcases hw with hw | hw
    · have hv' := (hS v hv).1
      have hw' := (hS w hw).1
      simp only at hq
      rw [hq, hw', Option.some.injEq] at hv'
      exact hv'.symm
    · exact absurd hq (hd v hv w hw)
    · exact absurd hq.symm (hd w hw v hv)
    · exact hi (by exact_mod_cast hv) (by exact_mod_cast hw) hq
  · rw [sum_union hu, count]
    omega

/-- A tracker stays backed, and the value of a threshold it reports is over the quorum. -/
theorem voteAccepted_backed {cfg : Consensus} {te : ThresholdEvent} (hb : Backed P t) (hP : P v)
    (h : t.voteAccepted cfg v proto = .ok (t', te)) :
    Backed P t' ∧ (te.t ≠ .none →
      reachesQuorum v.r.step (cfg proto) (t'.count te.proposal) = true) := by
  have hc : te.t ≠ .none → reachesQuorum v.r.step (cfg proto) (t'.count te.proposal) = true := by
    intro ht
    rcases (voteAccepted_holds hb.holds hP h).2 with rfl | ⟨-, hq⟩
    · exact absurd rfl ht
    · exact hq
  refine ⟨?_, hc⟩
  cases accepts_of_ok h with
  | known => exact hb
  | same => exact hb
  | counted hn _ ho hr =>
    have ha := hb.addVote hP hn ho
    obtain ⟨rfl, -⟩ := report_ok ha.holds hr
    exact ha
  | alone hn _ hv he => exact hb.addEquivocator hP hn hv he
  | equivocated hn _ hv he _ hr =>
    have ha := hb.addEquivocator hP hn hv he
    obtain ⟨rfl, -⟩ := report_ok ha.holds hr
    exact ha

end VoteTracker

/-! ## Along a run -/

namespace Flat

variable {cfg : Consensus} {D : State → Input → Prop} {s s' : State} {obs hist h1 h2 h : List Obs}

/-- The labels hold a counted vote. -/
def Saw (h : List Obs) (v : Vote) (proto : ConsensusVersion) : Prop := .saw v proto ∈ h

theorem saw_append_left (v : Vote) (proto : ConsensusVersion) (h : Saw h1 v proto) :
    Saw (h1 ++ h2) v proto := List.mem_append_left _ h

/-- The votes of one round, period and step counted so far. -/
def SawAt (h : List Obs) (r : Round) (p : Period) (q : Step) (v : Vote) : Prop :=
  At r p q v ∧ ∃ proto, Saw h v proto

variable {p : Period} {q : Step} {r : Round}

theorem SawAt.append (h2 : List Obs) (v : Vote) (h : SawAt h1 r p q v) :
    SawAt (h1 ++ h2) r p q v := by
  obtain ⟨ha, pr, hs⟩ := h
  exact ⟨ha, pr, saw_append_left v pr hs⟩

/-- A quorum among the votes of a run is one among those of a longer run. -/
theorem quorum_append (obs : List Obs) {pv : ProposalValue} (hq : HasQuorum cfg (Saw h) r p q pv) :
    HasQuorum cfg (Saw (h ++ obs)) r p q pv := hq.mono saw_append_left

/-- Everything thresholds leave behind in a state rests on a quorum of counted votes. -/
structure Evidence (cfg : Consensus) (h : List Obs) (s : State) : Prop where
  tracker : ∀ r p q, (((s.rounds r).period p).step q).voteTracker.Backed (SawAt h r p q)
  fresh : ∀ r, (s.rounds r).fresh.ok = true → HasQuorum cfg (Saw h) r
    (s.rounds r).fresh.freshest.period (s.rounds r).fresh.freshest.step
    (s.rounds r).fresh.freshest.proposal
  cachedBottom : ∀ r p, ((s.rounds r).period p).cached.bottom = true →
    ∃ q, next ≤ q ∧ HasQuorum cfg (Saw h) r p q bottom
  cachedValue : ∀ r p, ((s.rounds r).period p).cached.proposal ≠ bottom →
    ∃ q, next ≤ q ∧ HasQuorum cfg (Saw h) r p q ((s.rounds r).period p).cached.proposal
  staged : ∀ r p, (s.rounds r).staging p ≠ bottom →
    HasQuorum cfg (Saw h) r p soft ((s.rounds r).staging p) ∨
      CertAt (s.rounds r) p ∧ (s.rounds r).fresh.freshest.proposal = (s.rounds r).staging p

theorem Evidence.initial (pl : Player) : Evidence cfg [] { player := pl } where
  tracker _ _ _ := backed_empty
  fresh _ h := by cases h
  cachedBottom _ _ h := by cases h
  cachedValue _ _ h := absurd rfl h
  staged _ _ h := absurd rfl h

theorem thresholdType_eq_soft (h : thresholdType q = .softThreshold) : q = soft := by
  unfold thresholdType at h
  split_ifs at h with hq
  exact hq

theorem thresholdType_eq_cert (h : thresholdType q = .certThreshold) : q = cert := by
  unfold thresholdType at h
  split_ifs at h with h1 h2
  exact h2

variable {e te : ThresholdEvent}

/-- A next threshold is one of a step after `cert`. -/
theorem IsThreshold.next_le (h : IsThreshold r e) (ht : e.t = .nextThreshold) : next ≤ e.step := by
  have h1 := h.t.symm.trans ht
  have h2 := h.step
  unfold thresholdType at h1
  lia

/-- The tracker after a counted vote, and the quorum of a threshold it reports. -/
theorem Counted.backed {v : Vote} {sr : StepRouter} (hc : Counted cfg D s s' v proto sr te)
    (hb : (((s.rounds v.r.round).period v.r.period).step v.r.step).voteTracker.Backed
      (SawAt (hist ++ [.saw v proto]) v.r.round v.r.period v.r.step)) :
    sr.voteTracker.Backed (SawAt (hist ++ [.saw v proto]) v.r.round v.r.period v.r.step) ∧
      (te.t ≠ .none → HasQuorum cfg (Saw (hist ++ [.saw v proto])) v.r.round v.r.period v.r.step
        te.proposal) := by
  have hv : Saw (hist ++ [.saw v proto]) v proto :=
    List.mem_append_right _ (List.mem_singleton_self _)
  have hP : SawAt (hist ++ [.saw v proto]) v.r.round v.r.period v.r.step v :=
    ⟨⟨rfl, rfl, rfl⟩, proto, hv⟩
  obtain ⟨-, ha, -⟩ := StepRouter.voteAccepted_ok hc.count
  obtain ⟨hb', hr⟩ := voteAccepted_backed hb hP ha
  refine ⟨hb', fun ht => ?_⟩
  obtain ⟨S, hS, h1, hi, hl⟩ := hb'.count_le te.proposal
  refine ⟨S, hS, fun w hw => ?_, hi, v, proto, hv, ⟨rfl, rfl, rfl⟩, ?_⟩
  · rcases h1 w hw with hp | ⟨w', ⟨h2, pr', hs⟩, h3⟩
    · exact .inl hp
    · exact .inr ⟨w', pr', hs, h2, h3⟩
  · have hq := hr ht
    unfold reachesQuorum at hq ⊢
    split_ifs at hq ⊢
    rw [decide_eq_true_eq] at hq ⊢
    exact hq.trans hl

/-- A pending threshold rests on a quorum. -/
theorem Evidence.pending (hs : Evidence cfg hist s) (hw : Wf s) (he : s.pending = some e) :
    HasQuorum cfg (Saw hist) s.player.round e.period e.step e.proposal := by
  have hf : (s.rounds s.player.round).fresh = _ := hw.pending e he
  have hq := hs.fresh s.player.round (by rw [hf])
  rwa [hf] at hq

theorem Move.evidence (h : Move cfg D s obs s') (hw : Wf s) (hs : Evidence cfg hist s) :
    Evidence cfg (hist ++ obs) s' := by
  have hm : ∀ {r p q pv}, HasQuorum cfg (Saw hist) r p q pv →
      HasQuorum cfg (Saw (hist ++ obs)) r p q pv := quorum_append obs
  have h6 : ∀ r p q, (((s.rounds r).period p).step q).voteTracker.Backed
      (SawAt (hist ++ obs) r p q) := fun r p q =>
    (hs.tracker r p q).mono (SawAt.append obs)
  have hg : ∀ r p, (s'.rounds r).staging p ≠ bottom →
      HasQuorum cfg (Saw (hist ++ obs)) r p soft ((s'.rounds r).staging p) ∨
        CertAt (s'.rounds r) p ∧
          (s'.rounds r).fresh.freshest.proposal = (s'.rounds r).staging p := by
    intro r p hne
    rcases h.staging r p with ⟨heq, -⟩ | ⟨e, h2⟩
    · rw [heq] at hne ⊢
      rcases hs.staged r p hne with h1 | ⟨h4, ha⟩
      · exact .inl (hm h1)
      · refine .inr ⟨h.certAt h4, ?_⟩
        rw [h.certFresh h4.2.1, ha]
    · rw [h2.value]
      rcases h2.kind with ht | ht
      · have h1 := hs.pending hw h2.pending
        rw [thresholdType_eq_soft ((hw.isThreshold h2.pending).t.symm.trans ht),
          ← h2.period, ← h2.round] at h1
        exact .inl (hm h1)
      · have h4 := h2.certAt hw ht
        have hf : (s.rounds s.player.round).fresh = _ := hw.pending e h2.pending
        refine .inr ⟨h.certAt h4, ?_⟩
        rw [h.certFresh h4.2.1, h2.round, hf]
  rcases h.votes with ⟨h7, -⟩ | ⟨v, _, _, te, rfl, hc⟩
  · refine ⟨fun r p q => ?_, fun r hr => ?_, fun r p hb => ?_, fun r p hv => ?_, hg⟩
    · rw [((h7 r).2 p).1]
      exact h6 r p q
    · rw [(h7 r).1] at hr ⊢
      exact hm (hs.fresh r hr)
    · rw [((h7 r).2 p).2] at hb
      obtain ⟨q, hq, h1⟩ := hs.cachedBottom r p hb
      exact ⟨q, hq, hm h1⟩
    · rw [((h7 r).2 p).2] at hv ⊢
      obtain ⟨q, hq, h1⟩ := hs.cachedValue r p hv
      exact ⟨q, hq, hm h1⟩
  · obtain ⟨hb', h1⟩ := hc.backed (h6 v.r.round v.r.period v.r.step)
    obtain ⟨-, he⟩ := hc.isThreshold ((hs.tracker _ _ _).holds.mono fun _ hv => hv.1)
    -- the cached status changes for the period of the vote only
    have h8 : ∀ r p, ((s'.rounds r).period p).cached = ((s.rounds r).period p).cached ∨
        r = v.r.round ∧ p = v.r.period ∧ te.t ≠ .none ∧ next ≤ te.step ∧
          ((s'.rounds r).period p).cached =
            cacheNext ((s.rounds r).period p).cached te.proposal := by
      intro r p
      by_cases h5 : (r, p) = (v.r.round, v.r.period)
      · obtain ⟨rfl, rfl⟩ := Prod.mk.inj h5
        by_cases hn : te.t ≠ .none ∧ next ≤ te.step
        · exact .inr ⟨rfl, rfl, hn.1, hn.2, by rw [hc.cached, if_pos hn]⟩
        · exact .inl (by rw [hc.cached, if_neg hn])
      · exact .inl (by rw [hc.others r p h5])
    refine ⟨fun r p q => ?_, fun r hr => ?_, fun r p hb => ?_, fun r p hv => ?_, hg⟩
    · by_cases h5 : (r, p) = (v.r.round, v.r.period)
      · obtain ⟨rfl, rfl⟩ := Prod.mk.inj h5
        rw [hc.recorded, Function.update_apply]
        split_ifs with hq
        · subst hq
          exact hb'
        · exact h6 _ _ q
      · rw [hc.others r p h5]
        exact h6 r p q
    · rcases hc.fresh r with ⟨heq, -⟩ | ⟨rfl, hne, -, heq⟩
      · rw [heq] at hr ⊢
        exact hm (hs.fresh r hr)
      · rw [heq]
        obtain ⟨-, hp, h3⟩ := he hne
        rw [hp, h3]
        exact h1 hne
    · rcases h8 r p with heq | ⟨rfl, rfl, hne, h3, heq⟩
      · rw [heq] at hb
        obtain ⟨q, hq, ho⟩ := hs.cachedBottom r p hb
        exact ⟨q, hq, hm ho⟩
      · rw [heq, cacheNext] at hb
        split_ifs at hb with h9
        · rw [(he hne).2.2] at h3
          exact ⟨_, h3, h9 ▸ h1 hne⟩
        · obtain ⟨q, hq, ho⟩ := hs.cachedBottom _ _ hb
          exact ⟨q, hq, hm ho⟩
    · rcases h8 r p with heq | ⟨rfl, rfl, hne, h3, heq⟩
      · rw [heq] at hv ⊢
        obtain ⟨q, hq, ho⟩ := hs.cachedValue r p hv
        exact ⟨q, hq, hm ho⟩
      · rw [heq, cacheNext] at hv ⊢
        split_ifs at hv ⊢ with h9
        · obtain ⟨q, hq, ho⟩ := hs.cachedValue _ _ hv
          exact ⟨q, hq, hm ho⟩
        · rw [(he hne).2.2] at h3
          exact ⟨_, h3, h1 hne⟩

/-- A staged value has a soft or a cert quorum. -/
theorem Evidence.staged_quorum (hs : Evidence cfg hist s) (hw : Wf s)
    (hn : (s.rounds r).staging p ≠ bottom) :
    HasQuorum cfg (Saw hist) r p soft ((s.rounds r).staging p) ∨
      HasQuorum cfg (Saw hist) r p cert ((s.rounds r).staging p) := by
  rcases hs.staged r p hn with hq | ⟨⟨ho, ht, hp⟩, hv⟩
  · exact .inl hq
  · have hq := hs.fresh r ho
    rw [thresholdType_eq_cert ((hw.fresh r ho).t.symm.trans ht), hp, hv] at hq
    exact .inr hq

/-- The votes counted in a run were fed to it. -/
theorem fed_of_saw (h : Steps (Move cfg D) s obs s') {w : Vote} (hw : Saw obs w proto) :
    ∃ t, D t (.vote w proto) := by
  induction h with
  | refl => cases hw
  | tail _ hs ih =>
    rcases List.mem_append.mp hw with hw | hw
    · exact ih hw
    · rcases hs.votes with ⟨-, hn⟩ | ⟨_, _, _, _, rfl, hc⟩
      · exact absurd hw (hn _ _)
      · rw [List.mem_singleton] at hw
        obtain ⟨rfl, rfl⟩ := hw
        exact ⟨_, hc.delivered⟩

/-- The player only goes back on a next quorum of the last period. -/
theorem position_le_of_steps (hw : Wf s) (hs : Evidence cfg hist s)
    (h : Steps (Move cfg D) s obs s') (hn : ∀ r, ¬ Rewound cfg (Saw (hist ++ obs)) r) :
    s.player.position ≤ s'.player.position := by
  induction h with
  | refl => exact le_rfl
  | @tail t u o₁ o₂ hr hm ih =>
    rw [← List.append_assoc] at hn
    obtain ⟨hw₁, he₁⟩ : Wf t ∧ Evidence cfg (hist ++ o₁) t :=
      hr.history (P := fun h s => Wf s ∧ Evidence cfg h s)
        (fun _ _ _ _ hP hm => ⟨hm.wf hP.1, hm.evidence hP.1 hP.2⟩) ⟨hw, hs⟩
    refine (ih fun r hR => hn r (hR.mono saw_append_left)).trans ?_
    refine hm.shift.position_le fun e he hR => ?_
    have hQ := he₁.pending hw₁ he
    rw [hR.last] at hQ
    exact hn _ ⟨_, _, (hw₁.isThreshold he).next_le hR.t, quorum_append o₂ hQ⟩

end Flat

/-! ## The votes delivered to the player, and its position -/

open Flat Machine

/-- The votes which some event of a run delivers to the vote machines. -/
def DeliveredIn (l : List (Event × List Action)) (v : Vote) (proto : ConsensusVersion) : Prop :=
  ∃ me, .message me ∈ l.map Prod.fst ∧ DeliveredBy me v proto

variable {l l' : List (Event × List Action)}

theorem DeliveredIn.mono {v : Vote} (hs : l ⊆ l') (h : DeliveredIn l v proto) :
    DeliveredIn l' v proto := by
  obtain ⟨me, hm, hd⟩ := h
  exact ⟨me, List.map_subset _ hs hm, hd⟩

/-- The votes counted in a run of the player are among those delivered to it. -/
theorem delivered_of_saw {cfg : Consensus} {C : Machine → Event → Prop} {s s' : State}
    {obs : List Obs} (h : Steps (Move cfg (Fed C (l.map Prod.fst))) s obs s') {v : Vote}
    (hv : Saw obs v proto) : DeliveredIn l v proto := by
  obtain ⟨t, e, he, m, _, -, -, me, rfl, hd⟩ := fed_of_saw h hv
  exact ⟨me, he, hd⟩

/-- **The player never goes back, unless a next quorum of the last period is delivered to it, and its
period is fixed by the freshest threshold**: along every run from a fresh start, the period is the one
the freshest bundle of the round leads to. -/
theorem position_mono_and_period_fixed {cfg : Consensus} {r : Round} {d : Duration}
    {l₁ l₂ : List (Event × List Action)} {m₁ m₂ : Machine}
    (h₁ : Steps (Handles cfg) (.start r d) l₁ m₁) (h₂ : Steps (Handles cfg) m₁ l₂ m₂) :
    ((∀ r', ¬ Rewound cfg (DeliveredIn (l₁ ++ l₂)) r') → m₁.player.position ≤ m₂.player.position) ∧
      (0 < m₂.player.period → m₂.freshest.ok = true) ∧
      (m₂.freshest.ok = true →
        (m₂.freshest.freshest.t = .nextThreshold →
          m₂.player.period = nextPeriod m₂.freshest.freshest.period) ∧
        (m₂.freshest.freshest.t = .softThreshold → m₂.player.period = m₂.freshest.freshest.period) ∧
        (m₂.freshest.freshest.t = .certThreshold →
          m₂.freshest.freshest.period ≤ m₂.player.period)) := by
  obtain ⟨obs₁, _, hr1, -, hs1⟩ := simulates_of_steps h₁ (Synced.start r d)
  obtain ⟨obs₂, _, hr2, -, hs2⟩ := simulates_of_steps h₂ hs1
  have hf1 := periodFixed_of_steps hr1 (Wf.initial _) (.initial _ rfl)
  have hf2 := periodFixed_of_steps hr2 hs1.wf hf1
  have he := (hr1.history (P := fun h s => Wf s ∧ Evidence cfg h s)
    (fun _ _ _ _ hP hm => ⟨hm.wf hP.1, hm.evidence hP.1 hP.2⟩) ⟨Wf.initial _, .initial _⟩).2
  rw [List.nil_append] at he
  rw [hs1.rel.player, hs2.rel.player, hs2.rel.freshest]
  refine ⟨fun hn => ?_, ?_, fun ho => ?_⟩
  · refine position_le_of_steps hs1.wf he hr2 fun r' hR => hn r' (hR.mono fun w proto hw => ?_)
    rcases List.mem_append.mp hw with hw | hw
    · exact (delivered_of_saw hr1 hw).mono (List.subset_append_left _ _)
    · exact (delivered_of_saw hr2 hw).mono (List.subset_append_right _ _)
  · intro hp
    by_contra hn
    rw [hf2.unseen (Bool.eq_false_iff.mpr hn)] at hp
    exact absurd hp (lt_irrefl _)
  · have hl := hf2.lower ho hs2.idle
    have hu := hf2.upper ho
    refine ⟨fun ht => ?_, fun ht => ?_, fun ht => ?_⟩
    · rw [ThresholdEvent.target, if_pos ht] at hl hu
      exact le_antisymm (hu (by simp [ht])) hl
    · rw [ThresholdEvent.target, if_neg (by simp [ht])] at hl hu
      exact le_antisymm (hu (by simp [ht])) hl
    · rwa [ThresholdEvent.target, if_neg (by simp [ht])] at hl

/-- A next bundle of period 4 takes a fresh player to period 5. -/
theorem position_mono_and_period_fixed_jump :
    ∃ l m, Steps (Handles soloConsensus) (.start 1 0) l m ∧
      m.freshest.freshest.t = .nextThreshold ∧ m.freshest.freshest.period = 4 ∧
      (start 1 0).player.position ≤ m.player.position ∧ m.player.period = 5 := by
  have hr : ((start 1 0).run soloConsensus 1
      [soloBundle (soloVote 5 1 4 next ⟨0, 7, 8, 9⟩)]).map (fun x => (x.1.freshest.ok,
        x.1.freshest.freshest.t, x.1.freshest.freshest.period)) =
      some (true, .nextThreshold, 4) := by decide +kernel
  obtain ⟨⟨m, l⟩, hm, he⟩ := Option.map_eq_some_iff.mp hr
  simp only [Prod.mk.injEq] at he
  obtain ⟨ho, ht, hp⟩ := he
  obtain ⟨hs, hl⟩ := run_steps hm
  obtain ⟨hle, -, hf⟩ := position_mono_and_period_fixed (.refl (start 1 0)) hs
  refine ⟨l, m, hs, ht, hp, hle ?_, by rw [(hf ho).1 ht, hp]; rfl⟩
  -- the only vote delivered is of period 4
  rintro r' ⟨_, _, -, S, hS⟩
  obtain ⟨w, _, ⟨_, hd, -, -, hw⟩, ha, -⟩ := hS.weight
  rw [List.nil_append, hl, List.mem_singleton, soloBundle, Event.message.injEq] at hd
  subst hd
  simp only [reduceCtorEq, false_and, true_and, false_or, Bundle.allVotes, List.flatMap_nil,
    List.append_nil, List.mem_singleton] at hw
  rw [hw] at ha
  exact absurd ha.2.1 (by decide)

/-- A next bundle of the last period takes a player from the next step of period 0 back to its soft
step. -/
theorem next_bundle_of_last_period :
    ∃ l₁ m₁ l₂ m₂, Steps (Handles soloConsensus) (.start 1 0) l₁ m₁ ∧
      Steps (Handles soloConsensus) m₁ l₂ m₂ ∧
      (m₁.player.round, m₁.player.period, m₁.player.step) = (1, 0, next) ∧
      (m₂.player.round, m₂.player.period, m₂.player.step) = (1, 0, soft) ∧
      ¬ m₁.player.position ≤ m₂.player.position := by
  have hr : ((start 1 0).run soloConsensus 1 [.timeout 0, .timeout 0]).bind (fun x =>
      (x.1.run soloConsensus 1 [soloBundle (soloVote 5 1 lastPeriod next ⟨0, 7, 8, 9⟩)]).map
        fun y => decide ((x.1.player.round, x.1.player.period, x.1.player.step) = (1, 0, next) ∧
          (y.1.player.round, y.1.player.period, y.1.player.step) = (1, 0, soft))) = some true := by
    decide +kernel
  obtain ⟨⟨m₁, l₁⟩, hm1, hr⟩ := Option.bind_eq_some_iff.mp hr
  obtain ⟨⟨m₂, l₂⟩, hm2, hd⟩ := Option.map_eq_some_iff.mp hr
  obtain ⟨h1, h2⟩ := of_decide_eq_true hd
  refine ⟨l₁, m₁, l₂, m₂, (run_steps hm1).1, (run_steps hm2).1, h1, h2, ?_⟩
  simp only [Prod.mk.injEq] at h1 h2
  rw [Player.position_le_iff, h1.1, h1.2.1, h1.2.2, h2.1, h2.2.1, h2.2.2]
  decide

end Novarand.Agreement
