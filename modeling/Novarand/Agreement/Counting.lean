import Novarand.Agreement.VoteTracker

/-!
# What a vote tracker holds and reports

`Holds P t`: every vote recorded in `t`, whether counted or part of an equivocation, satisfies `P`.
A tracker keeps this for the votes delivered to it, and whatever threshold it emits has the
coordinates of the last vote and carries a bundle made of recorded votes.
-/

namespace Novarand.Agreement

open List Dict VoteTrackerContract

variable {s : Step} {b : UnauthenticatedBundle}

namespace VoteTracker

/-- All votes recorded by the tracker satisfy `P`, and an equivocator has voted for two values. -/
structure Holds (P : Vote → Prop) (t : VoteTracker) : Prop where
  voters : ∀ a v, t.voters.lookup a = some v → v.r.sender = a ∧ P v
  counted : ∀ pv c, t.counts.lookup pv = some c → ∀ a v, c.votes.lookup a = some v →
    v.r.proposal = pv ∧ P v
  equivocated : ∀ a e, t.equivocators.lookup a = some e → t.voters.lookup a = none ∧
    ∃ v₁ v₂, P v₁ ∧ P v₂ ∧ v₁.r.sender = a ∧ v₂.r.sender = a ∧ v₁.r.proposal ≠ v₂.r.proposal

variable {P Q : Vote → Prop} {t t' : VoteTracker} {v old : Vote}

theorem holds_empty : Holds P {} := by
  constructor <;> intros <;> simp_all

theorem Holds.mono (h : Holds P t) (hp : ∀ v, P v → Q v) : Holds Q t where
  voters a v hv := ⟨(h.voters a v hv).1, hp v (h.voters a v hv).2⟩
  counted pv c hc a v hv := ⟨(h.counted pv c hc a v hv).1, hp v (h.counted pv c hc a v hv).2⟩
  equivocated a e he := by
    obtain ⟨hn, v₁, v₂, h1, h2, hr⟩ := h.equivocated a e he
    exact ⟨hn, v₁, v₂, hp v₁ h1, hp v₂ h2, hr⟩

variable {pv : ProposalValue} {proto : ConsensusParams} {cfg : Consensus} {te : ThresholdEvent}

/-- The votes counted for a value are recorded votes for that value. -/
theorem Holds.counter (h : Holds P t) {a : Address}
    (hv : (t.counts.getD pv {}).votes.lookup a = some v) : v.r.proposal = pv ∧ P v := by
  unfold Dict.getD at hv
  cases hc : t.counts.lookup pv with
  | none => simp [hc] at hv
  | some c =>
    rw [hc] at hv
    exact h.counted pv c hc a v hv

theorem Holds.addVote (h : Holds P t) (hP : P v) (hn : t.equivocators.lookup v.r.sender = none) :
    Holds P (t.addVote v) where
  voters a w hw := by
    simp only [VoteTracker.addVote, lookup_insert'] at hw
    split_ifs at hw with ha
    · rw [Option.some.injEq] at hw
      subst hw ha
      exact ⟨rfl, hP⟩
    · exact h.voters a w hw
  counted pv c hc a w hw := by
    simp only [VoteTracker.addVote, lookup_insert'] at hc
    split_ifs at hc with hp
    · rw [Option.some.injEq] at hc
      subst hc hp
      simp only [lookup_insert'] at hw
      split_ifs at hw with ha
      · rw [Option.some.injEq] at hw
        subst hw
        exact ⟨rfl, hP⟩
      · exact h.counter hw
    · exact h.counted pv c hc a w hw
  equivocated a e he := by
    obtain ⟨ho, hr⟩ := h.equivocated a e he
    refine ⟨?_, hr⟩
    simp only [VoteTracker.addVote, lookup_insert']
    rw [if_neg, ho]
    rintro rfl
    exact absurd (hn.symm.trans he) (by simp)

theorem Holds.addEquivocator (h : Holds P t) (hP : P v)
    (ho : t.voters.lookup v.r.sender = some old) (hn : old.r.proposal ≠ v.r.proposal) :
    Holds P (t.addEquivocator old v) where
  voters a w hw := by
    simp only [VoteTracker.addEquivocator, lookup_erase'] at hw
    split_ifs at hw with ha
    exact h.voters a w hw
  counted pv c hc a w hw := by
    simp only [VoteTracker.addEquivocator] at hc
    split_ifs at hc with hle
    · rw [lookup_erase'] at hc
      split_ifs at hc with hp
      exact h.counted pv c hc a w hw
    · rw [lookup_insert'] at hc
      split_ifs at hc with hp
      · rw [Option.some.injEq] at hc
        subst hc hp
        simp only [lookup_erase'] at hw
        split_ifs at hw with ha
        exact h.counter hw
      · exact h.counted pv c hc a w hw
  equivocated a e he := by
    simp only [VoteTracker.addEquivocator, lookup_insert'] at he
    simp only [VoteTracker.addEquivocator, lookup_erase']
    by_cases ha : a = v.r.sender
    · subst ha
      obtain ⟨hs, hl⟩ := h.voters _ _ ho
      exact ⟨if_pos rfl, old, v, hl, hP, hs, rfl, hn⟩
    · rw [if_neg ha] at he
      rw [if_neg ha]
      exact h.equivocated a e he

/-! ## Emitted thresholds -/

/-- A bundle made from a vote which satisfies `P`. -/
def BundleFrom (P : Vote → Prop) (b : UnauthenticatedBundle) : Prop :=
  ∃ v, P v ∧ b.round = v.r.round ∧ b.period = v.r.period ∧ b.step = v.r.step

theorem mem_packQuorum {α : Type} {weight : α → ℕ} {a : α} {l : List α} {packed : ℕ}
    (h : a ∈ (packQuorum s proto weight packed l).1) : a ∈ l := by
  induction l generalizing packed with
  | nil => simp [packQuorum] at h
  | cons b l ih =>
    unfold packQuorum at h
    split_ifs at h with hq
    · simp at h
    · rcases mem_cons.mp h with rfl | h
      · exact mem_cons_self
      · exact mem_cons_of_mem _ (ih h)

theorem makeBundle_from {votes : List Vote} {pairs : List EquivocationVote}
    (h : makeBundle proto pv votes pairs = .ok b) (hP : ∀ v ∈ votes, P v) :
    BundleFrom P b ∧ b.proposal = pv := by
  unfold makeBundle at h
  cases votes with
  | nil => simp [throw_ok] at h
  | cons v0 _ =>
    simp only at h
    split_ifs at h with h1 h2
    rw [pure_ok] at h
    subst h
    exact ⟨⟨v0, hP v0 mem_cons_self, rfl, rfl, rfl⟩, rfl⟩

theorem genBundle_from {c : ProposalVoteCounter} (h : t.genBundle proto c = .ok b)
    (hP : ∀ a v, c.votes.lookup a = some v → v.r.proposal = pv ∧ P v) :
    BundleFrom P b ∧ b.proposal = pv := by
  unfold genBundle at h
  cases hs : sortVotes c.votes.values with
  | nil => simp [hs, throw_ok] at h
  | cons v vs =>
    rw [hs] at h
    simp only at h
    have hm : ∀ w ∈ (packQuorum v.r.step proto (fun v : Vote => v.cred.weight) 0 (v :: vs)).1,
        w.r.proposal = pv ∧ P w := by
      intro w hw
      have hw' : w ∈ sortVotes c.votes.values := by
        rw [hs]
        exact mem_packQuorum hw
      rw [sortVotes, mem_insertionSort, mem_values] at hw'
      obtain ⟨a, ha⟩ := hw'
      exact hP a w ha
    split at h
    · simp [throw_ok] at h
    · next v0 vs' hp =>
      have hb := makeBundle_from h fun w hw => (hm w hw).2
      refine ⟨hb.1, hb.2.trans (hm v0 ?_).1⟩
      rw [hp]
      exact mem_cons_self

theorem thresholdType_ne_none (s : Step) : thresholdType s ≠ .none := by
  unfold thresholdType
  split_ifs <;> simp

/-- `te` is a threshold reached by the vote `v`, with its coordinates and a bundle of votes which
satisfy `P`. -/
structure ReachedBy (P : Vote → Prop) (v : Vote) (proto : ConsensusVersion)
    (te : ThresholdEvent) : Prop where
  t : te.t = thresholdType v.r.step
  round : te.round = v.r.round
  period : te.period = v.r.period
  step : te.step = v.r.step
  proto : te.proto = proto
  bundle : BundleFrom P te.bundle
  proposal : te.bundle.proposal = te.proposal

theorem overThreshold_some (h : t.overThreshold proto s = .ok (some pv)) :
    reachesQuorum s proto (t.count pv) = true := by
  unfold overThreshold at h
  split at h
  · simp [pure, Except.pure] at h
  · next pv' hf =>
    simp only [pure, Except.pure, Except.ok.injEq, Option.some.injEq] at h
    have hm : pv' ∈ t.counts.keys.filter fun x => reachesQuorum s proto (t.count x) := by
      rw [hf]
      exact mem_singleton.mpr rfl
    subst h
    exact (mem_filter.mp hm).2
  · simp [throw_ok] at h

/-- Reporting does not change the tracker; an emitted threshold is over the quorum. -/
theorem report_ok {before : Bool} {proto : ConsensusVersion} (ho : Holds P t)
    (h : t.report cfg before v proto = .ok (t', te)) :
    t' = t ∧ (te = {} ∨ (before = false ∧ ReachedBy P v proto te ∧
      reachesQuorum v.r.step (cfg proto) (t.count te.proposal) = true)) := by
  simp only [report, bind_ok] at h
  obtain ⟨wn, hv, h⟩ := h
  cases wn with
  | none =>
    simp only [pure_pair] at h
    exact ⟨h.1.symm, .inl h.2.symm⟩
  | some _ =>
    split_ifs at h with hb
    · simp only [pure_pair] at h
      exact ⟨h.1.symm, .inl h.2.symm⟩
    · simp only [bind_ok, pure_pair] at h
      obtain ⟨b, hg, rfl, rfl⟩ := h
      obtain ⟨hf, hp⟩ := genBundle_from hg fun a w hw => ho.counter hw
      exact ⟨rfl, .inr ⟨by simpa using hb, ⟨rfl, rfl, rfl, rfl, rfl, hf, hp⟩,
        overThreshold_some hv⟩⟩

/-- What the tracker does with a vote: drop it, count it, or turn it into an equivocation. -/
inductive Accepts (cfg : Consensus) (proto : ConsensusVersion) (v : Vote) (t : VoteTracker) :
    VoteTracker → ThresholdEvent → Prop
  | known {e} (he : t.equivocators.lookup v.r.sender = some e) : Accepts cfg proto v t t {}
  | same {old before} (he : t.equivocators.lookup v.r.sender = none)
      (hbefore : t.overThreshold (cfg proto) v.r.step = .ok before)
      (hold : t.voters.lookup v.r.sender = some old) (heq : old.r.proposal = v.r.proposal) :
      Accepts cfg proto v t t {}
  | counted {before t' te} (he : t.equivocators.lookup v.r.sender = none)
      (hbefore : t.overThreshold (cfg proto) v.r.step = .ok before)
      (hv : t.voters.lookup v.r.sender = none)
      (hrep : (t.addVote v).report cfg before.isSome v proto = .ok (t', te)) :
      Accepts cfg proto v t t' te
  | alone {old before} (he : t.equivocators.lookup v.r.sender = none)
      (hbefore : t.overThreshold (cfg proto) v.r.step = .ok before)
      (hold : t.voters.lookup v.r.sender = some old) (hne : old.r.proposal ≠ v.r.proposal)
      (hquorum : ¬reachesQuorum v.r.step (cfg proto) (t.addEquivocator old v).equivocatorsCount)
      (hempty : (t.addEquivocator old v).voters.keys = []) :
      Accepts cfg proto v t (t.addEquivocator old v) {}
  | equivocated {old before t' te} (he : t.equivocators.lookup v.r.sender = none)
      (hbefore : t.overThreshold (cfg proto) v.r.step = .ok before)
      (hold : t.voters.lookup v.r.sender = some old) (hne : old.r.proposal ≠ v.r.proposal)
      (hquorum : ¬reachesQuorum v.r.step (cfg proto) (t.addEquivocator old v).equivocatorsCount)
      (hrep : (t.addEquivocator old v).report cfg before.isSome v proto = .ok (t', te)) :
      Accepts cfg proto v t t' te

theorem accepts_of_ok {proto : ConsensusVersion} (h : t.voteAccepted cfg v proto = .ok (t', te)) :
    Accepts cfg proto v t t' te := by
  unfold voteAccepted at h
  cases he : t.equivocators.lookup v.r.sender with
  | some e =>
    simp only [he, pure_pair] at h
    obtain ⟨rfl, rfl⟩ := h
    exact .known he
  | none =>
    simp only [he, bind_ok] at h
    obtain ⟨_, hb, h⟩ := h
    cases ho : t.voters.lookup v.r.sender with
    | none =>
      simp only [ho] at h
      exact .counted he hb ho h
    | some _ =>
      simp only [ho] at h
      split_ifs at h with hs hq hm
      · obtain ⟨rfl, rfl⟩ := pure_pair.mp h
        exact .same he hb ho hs
      · obtain ⟨rfl, rfl⟩ := pure_pair.mp h
        exact .alone he hb ho hs hq hm
      · exact .equivocated he hb ho hs hq h

/-- **A tracker holds what it is given**, and reports thresholds of the vote's own step. -/
theorem voteAccepted_holds {proto : ConsensusVersion} (ho : Holds P t) (hP : P v)
    (h : t.voteAccepted cfg v proto = .ok (t', te)) :
    Holds P t' ∧ (te = {} ∨ (ReachedBy P v proto te ∧
      reachesQuorum v.r.step (cfg proto) (t'.count te.proposal) = true)) := by
  cases accepts_of_ok h with
  | known => exact ⟨ho, .inl rfl⟩
  | same => exact ⟨ho, .inl rfl⟩
  | counted he _ _ hr =>
    have ha := ho.addVote hP he
    obtain ⟨rfl, ht⟩ := report_ok ha hr
    exact ⟨ha, ht.imp id And.right⟩
  | alone _ _ hv hn => exact ⟨ho.addEquivocator hP hv hn, .inl rfl⟩
  | equivocated _ _ hv hn _ hr =>
    have ha := ho.addEquivocator hP hv hn
    obtain ⟨rfl, ht⟩ := report_ok ha hr
    exact ⟨ha, ht.imp id And.right⟩

end VoteTracker

/-! ## The contract -/

variable {c c' : VoteTrackerContract}

theorem VoteTrackerContract.pre_ok (h : c.pre s = .ok c') :
    s ≠ propose ∧ c'.emitted = c.emitted := by
  unfold pre at h
  split_ifs at h with h0 h1 h2
  · rw [pure_ok] at h
    exact ⟨h0, by rw [h]⟩
  · rw [pure_ok] at h
    exact ⟨h0, by rw [← h]⟩

variable {out te : ThresholdEvent}

/-- What the contract guarantees of an emitted threshold. -/
theorem VoteTrackerContract.post_ok (h : c.post s out = .ok c') :
    c'.emitted = (c.emitted || out.t ≠ .none) ∧ (out.t ≠ .none → c.emitted = false) ∧
      (out.t = .softThreshold ∨ out.t = .certThreshold → out.proposal ≠ bottom) := by
  unfold post at h
  split_ifs at h with h0 h1 h2 h3 h4
  rw [pure_ok] at h
  refine ⟨by rw [← h], ?_, fun ht hb => h2 ⟨ht, hb⟩⟩
  intro ht
  by_contra hc
  exact h1 ⟨ht, by simpa using hc⟩

/-- The vote tracker behind its contract: a threshold is emitted at most once. -/
theorem StepRouter.voteAccepted_ok {cfg : Consensus} {sr sr' : StepRouter} {v : Vote}
    {proto : ConsensusVersion} (h : sr.voteAccepted cfg v proto = .ok (sr', te)) :
    v.r.step ≠ propose ∧ sr.voteTracker.voteAccepted cfg v proto = .ok (sr'.voteTracker, te) ∧
      sr'.voteTrackerContract.emitted = (sr.voteTrackerContract.emitted || te.t ≠ .none) ∧
      (te.t ≠ .none → sr.voteTrackerContract.emitted = false) ∧
      (te.t = .softThreshold ∨ te.t = .certThreshold → te.proposal ≠ bottom) := by
  simp only [voteAccepted, bind_ok, Prod.exists, pure_pair] at h
  obtain ⟨c, hp, t, _, ha, _, h1, rfl, rfl⟩ := h
  obtain ⟨hs, he⟩ := pre_ok hp
  obtain ⟨hp1, hp2, hp3⟩ := post_ok h1
  rw [he] at hp1 hp2
  exact ⟨hs, ha, hp1, hp2, hp3⟩

end Novarand.Agreement
