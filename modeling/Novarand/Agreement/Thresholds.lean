import Novarand.Agreement.Packing

/-!
# The threshold of a step

Votes delivered one after the other to a tracker: the tracker goes on counting the ballots it has
seen, a value which is over the threshold stays over it, and the one threshold event is emitted by
the vote which brings the first value there.
-/

namespace Novarand.Agreement

open List Finset

variable {vs votes : List Vote}

namespace VoteTracker

open Novarand.Tally

/-- Deliver votes one after the other, and collect the thresholds emitted. -/
def run (cfg : Consensus) (proto : ConsensusVersion) :
    VoteTracker → List Vote → M (VoteTracker × List ThresholdEvent)
  | t, [] => pure (t, [])
  | t, v :: vs => do
    let (t, e) ← t.voteAccepted cfg v proto
    let (t, es) ← run cfg proto t vs
    pure (t, if e.t = .none then es else e :: es)

/-- Some value is over the threshold. -/
def Over (proto : ConsensusParams) (s : Step) (t : VoteTracker) : Prop :=
  ∃ x ∈ t.counts, reachesQuorum s proto (t.count x) = true

/-- The equivocators alone are no quorum. -/
def Calm (proto : ConsensusParams) (s : Step) (t : VoteTracker) : Prop :=
  t.equivocatorsCount = 0 ∨ ¬reachesQuorum s proto t.equivocatorsCount = true

variable {w : Address → ℕ} {P : Vote → Prop} {B B' : Finset (Address × ProposalValue)}
  {t t' t0 : VoteTracker} {r : Round} {p : Period} {s : Step} {x : ProposalValue} {v : Vote}
  {cfg : Consensus} {proto : ConsensusVersion} {te : ThresholdEvent}

/-! ## Values over the threshold -/

variable {params : ConsensusParams} {es : List ThresholdEvent} {o before : Option ProposalValue}

theorem mem_overThreshold (h : t.overThreshold params s = .ok o) :
    o = some x ↔ x ∈ t.counts ∧ reachesQuorum s params (t.count x) = true := by
  have hm : (x ∈ t.counts ∧ reachesQuorum s params (t.count x) = true) ↔
      x ∈ t.counts.keys.filter fun x => reachesQuorum s params (t.count x) := by
    rw [mem_filter, AList.mem_keys]
  rw [hm]
  unfold overThreshold at h
  split at h
  · next hl =>
    rw [pure_ok] at h
    simp [hl, ← h]
  · next y hl =>
    rw [pure_ok] at h
    simp [hl, ← h, eq_comm]
  · simp [throw_ok] at h

theorem overThreshold_isSome (h : t.overThreshold params s = .ok o) :
    o.isSome ↔ Over params s t := by
  rw [Option.isSome_iff_exists]
  exact exists_congr fun x => mem_overThreshold h

theorem overThreshold_ok (h : ∀ x y, reachesQuorum s params (t.count x) = true →
      reachesQuorum s params (t.count y) = true → x = y) :
    ∃ o, t.overThreshold params s = .ok o := by
  have hn : (t.counts.keys.filter fun x => reachesQuorum s params (t.count x)).Nodup :=
    (AList.keys_nodup t.counts).filter _
  unfold overThreshold
  match hl : t.counts.keys.filter fun x => reachesQuorum s params (t.count x) with
  | [] => exact ⟨none, rfl⟩
  | [x] => exact ⟨some x, rfl⟩
  | x :: y :: l =>
    have hm : ∀ z ∈ x :: y :: l, reachesQuorum s params (t.count z) = true := by
      intro z hz
      rw [← hl, mem_filter] at hz
      exact hz.2
    have hx := h x y (hm x (by simp)) (hm y (by simp))
    rw [hl, hx] at hn
    simp at hn

/-- A bundle is only made of a positive quorum. -/
theorem quorum_pos_of_genBundle {c : ProposalVoteCounter} {b : UnauthenticatedBundle}
    (ht : ∀ a v, c.votes.lookup a = some v → v.r.step = s) (h : t.genBundle params c = .ok b) :
    ¬reachesQuorum s params 0 = true := by
  intro hq
  unfold genBundle at h
  cases hs : sortVotes c.votes.values with
  | nil => simp [hs, throw_ok] at h
  | cons v _ =>
    have hm : v ∈ sortVotes c.votes.values := hs ▸ mem_cons_self
    rw [sortVotes, mem_insertionSort, Dict.mem_values] at hm
    obtain ⟨a, ha⟩ := hm
    rw [hs] at h
    simp only [ht a v ha, packQuorum_of_reached hq, throw_ok] at h

/-- What reporting does: nothing, or the event for the value over the threshold. -/
theorem report_cases {before : Bool} (h : t.report cfg before v proto = .ok (t', te)) :
    t' = t ∧ ∃ o, t.overThreshold (cfg proto) v.r.step = .ok o ∧
      ((te.t = .none ∧ (o = none ∨ before = true)) ∨
        (te.t ≠ .none ∧ before = false ∧ o = some te.proposal ∧
          ∃ b, t.genBundle (cfg proto) (t.counts.getD te.proposal {}) = .ok b)) := by
  simp only [report, bind_ok] at h
  obtain ⟨o, ho, h⟩ := h
  cases o with
  | none =>
    obtain ⟨rfl, rfl⟩ := pure_pair.mp h
    exact ⟨rfl, none, ho, .inl ⟨rfl, .inl rfl⟩⟩
  | some x =>
    split_ifs at h with hb
    · obtain ⟨rfl, rfl⟩ := pure_pair.mp h
      exact ⟨rfl, some x, ho, .inl ⟨rfl, .inr hb⟩⟩
    · simp only [bind_ok, pure_pair] at h
      obtain ⟨b, hg, rfl, rfl⟩ := h
      exact ⟨rfl, some x, ho, .inr ⟨thresholdType_ne_none _, by simpa using hb, rfl, b, hg⟩⟩

/-! ## One vote -/

/-- What one delivered vote does to the tracker and says about the threshold. -/
structure Delivers (params : ConsensusParams) (s : Step) (w : Address → ℕ) (P : Vote → Prop)
    (B : Finset (Address × ProposalValue)) (t t' : VoteTracker) (te : ThresholdEvent) : Prop where
  tracks : Tracks w P B t'
  calm : Calm params s t → Calm params s t'
  silent : te.t = .none → Over params s t' → Over params s t
  emitted : te.t ≠ .none → ¬Over params s t ∧ te.proposal ∈ t'.counts ∧
    reachesQuorum s params (t'.count te.proposal) = true ∧ ¬reachesQuorum s params 0 = true

variable (h : Tracks w P B t)
include h in
/-- Reporting in the state `t` after the vote, when `t₀` was the state before it. -/
theorem Tracks.delivers_of_report (hP : ∀ v, P v → VerifiedAt w r p s v) (hs : v.r.step = s)
    (hl : Calm (cfg proto) s t0 → Calm (cfg proto) s t)
    (hf : t0.overThreshold (cfg proto) s = .ok before)
    (hr : t.report cfg before.isSome v proto = .ok (t', te)) :
    Delivers (cfg proto) s w P B t0 t' te := by
  obtain ⟨rfl, o, ho, hc⟩ := report_cases hr
  rw [hs] at ho
  constructor
  case tracks => exact h
  case calm => exact hl
  case silent =>
    intro hn ha
    rcases hc with ⟨-, rfl | hb⟩ | ⟨he, -⟩
    · simp [← overThreshold_isSome ho] at ha
    · exact (overThreshold_isSome hf).mp hb
    · exact absurd hn he
  case emitted =>
    intro he
    rcases hc with ⟨hn, -⟩ | ⟨-, hb, rfl, b, hg⟩
    · exact absurd hn he
    · obtain ⟨hk, hq⟩ := (mem_overThreshold ho).mp rfl
      refine ⟨fun ho0 => ?_, hk, hq, quorum_pos_of_genBundle (fun a u hu => ?_) hg⟩
      · rw [(overThreshold_isSome hf).mpr ho0] at hb
        cases hb
      · exact (hP u (h.voter (h.counted.mp hu).1).1).step

include h in
theorem Tracks.voteAccepted (hP : ∀ v, P v → VerifiedAt w r p s v) (hv : P v)
    (hk : t.voteAccepted cfg v proto = .ok (t', te)) :
    Delivers (cfg proto) s w P (insert v.ballot B) t t' te := by
  have ht := hP v hv
  cases accepts_of_ok hk with
  | known he =>
    exact ⟨h.known (h.pair he).1, id, fun _ => id, fun hne => absurd rfl hne⟩
  | same he hb ho heq =>
    exact ⟨h.same ho heq, id, fun _ => id, fun hne => absurd rfl hne⟩
  | counted he hb hn hr =>
    rw [ht.step] at hb
    exact (h.addVote hv ht.weight he hn).delivers_of_report hP ht.step id hb hr
  | alone he hb ho hne hq h1 =>
    rw [ht.step] at hb hq
    have hd := h.addEquivocator hv (fun u hu => ⟨(hP u hu).weight, (hP u hu).pos⟩) ho hne
    refine ⟨hd, fun _ => .inr hq, fun _ ⟨x, hx, _⟩ => ?_, fun hne => absurd rfl hne⟩
    obtain ⟨a, ha⟩ := hd.key.mp hx
    obtain ⟨u, hu⟩ := hd.voted ha
    have hm : a ∈ (t.addEquivocator _ v).voters.keys :=
      AList.mem_keys.mp (AList.lookup_isSome.mp (by rw [hu]; rfl))
    rw [h1] at hm
    cases hm
  | equivocated he hb ho hne hq hr =>
    rw [ht.step] at hb hq
    have hd := h.addEquivocator hv (fun u hu => ⟨(hP u hu).weight, (hP u hu).pos⟩) ho hne
    exact hd.delivers_of_report hP ht.step (fun _ => .inr hq) hb hr

/-- A value over the threshold stays over it. -/
theorem Tracks.over_mono (h' : Tracks w P B' t') (h : Tracks w P B t) (hB : B ⊆ B')
    (hc : Calm params s t') (h0 : ¬reachesQuorum s params 0 = true)
    (hq : reachesQuorum s params (t.count x) = true) :
    x ∈ t'.counts ∧ reachesQuorum s params (t'.count x) = true ∧
      ¬reachesQuorum s params 0 = true := by
  have hq' : reachesQuorum s params (t'.count x) = true := by
    rw [h.count_eq] at hq
    rw [h'.count_eq]
    exact reachesQuorum_mono hq (tally_mono hB)
  refine ⟨h'.key.mpr (supporters_nonempty (w := w) ?_), hq', h0⟩
  rw [← h'.count_eq, ← h'.equivocatorsCount]
  by_contra hl
  rcases hc with hz | hn
  · rw [hz] at hl
    exact h0 (reachesQuorum_mono hq' (not_lt.mp hl))
  · exact hn (reachesQuorum_mono hq' (not_lt.mp hl))

theorem Over.mono (ho : Over params s t) (h : Tracks w P B t) (h' : Tracks w P B' t') (hB : B ⊆ B')
    (hc : Calm params s t') (h0 : ¬reachesQuorum s params 0 = true) : Over params s t' := by
  obtain ⟨x, -, hq⟩ := ho
  obtain ⟨hk, hq', -⟩ := h'.over_mono h hB hc h0 hq
  exact ⟨x, hk, hq'⟩

/-! ## Progress -/

/-- Two values cannot both reach the quorum. -/
def OneWinner (params : ConsensusParams) (s : Step) (w : Address → ℕ)
    (B : Finset (Address × ProposalValue)) : Prop :=
  ∀ x y, reachesQuorum s params (tally w B x) = true →
    reachesQuorum s params (tally w B y) = true → x = y

theorem OneWinner.anti (h : OneWinner params s w B') (hB : B ⊆ B') :
    OneWinner params s w B := fun x y hx hy =>
  h x y (reachesQuorum_mono hx (tally_mono hB)) (reachesQuorum_mono hy (tally_mono hB))

/-- The equivocators count for every value, so they are no quorum when there is one winner. -/
theorem OneWinner.equivocators (h : OneWinner params s w B) :
    ¬reachesQuorum s params (∑ a ∈ Tally.equivocators B, w a) = true := by
  intro hq
  have hx := h { blockDigest := 0 } { blockDigest := 1 }
    (reachesQuorum_mono hq sum_equivocators_le_tally)
    (reachesQuorum_mono hq sum_equivocators_le_tally)
  simp at hx

theorem OneWinner.zero (h : OneWinner params s w B) :
    ¬reachesQuorum s params 0 = true := fun hq =>
  h.equivocators (reachesQuorum_mono hq (Nat.zero_le _))

include h in
theorem Tracks.overThreshold_ok (ho : OneWinner params s w B) :
    ∃ o, t.overThreshold params s = .ok o := by
  refine VoteTracker.overThreshold_ok fun x y hx hy => ?_
  rw [h.count_eq] at hx hy
  exact ho x y hx hy

include h in
theorem Tracks.report_ok (hP : ∀ v, P v → VerifiedAt w r p s v)
    (hs : v.r.step = s) (hn : OneWinner (cfg proto) s w B) (before : Bool) :
    ∃ res, t.report cfg before v proto = .ok res := by
  obtain ⟨o, ho⟩ := h.overThreshold_ok hn
  simp only [report, hs, ho, bind, Except.bind]
  cases o with
  | none => exact ⟨_, rfl⟩
  | some x =>
    obtain ⟨hk, hq⟩ := (mem_overThreshold ho).mp rfl
    cases before with
    | true => exact ⟨_, rfl⟩
    | false =>
      obtain ⟨_, _, -, hg⟩ := h.genBundle_ok hP hk hq hn.zero
      simp only [hg, Bool.false_eq_true, if_false]
      exact ⟨_, rfl⟩

include h in
/-- **No panic** when there is one winner. -/
theorem Tracks.voteAccepted_ok (hP : ∀ v, P v → VerifiedAt w r p s v)
    (hv : P v) (hn : OneWinner (cfg proto) s w (insert v.ballot B)) :
    ∃ res, t.voteAccepted cfg v proto = .ok res := by
  have ht := hP v hv
  obtain ⟨o, ho⟩ := h.overThreshold_ok (hn.anti (subset_insert _ _))
  unfold VoteTracker.voteAccepted
  cases he : t.equivocators.lookup v.r.sender with
  | some e => exact ⟨_, rfl⟩
  | none =>
    simp only [ht.step, ho, bind, Except.bind]
    cases hl : t.voters.lookup v.r.sender with
    | none => exact (h.addVote hv ht.weight he hl).report_ok hP ht.step hn _
    | some _ =>
      simp only
      split_ifs with hs hq hm
      · exact ⟨_, rfl⟩
      · have ha := h.addEquivocator hv (fun u hu => ⟨(hP u hu).weight, (hP u hu).pos⟩) hl hs
        rw [ha.equivocatorsCount] at hq
        exact absurd hq hn.equivocators
      · exact ⟨_, rfl⟩
      · have ha := h.addEquivocator hv (fun u hu => ⟨(hP u hu).weight, (hP u hu).pos⟩) hl hs
        exact ha.report_ok hP ht.step hn _

/-! ## Runs -/

theorem ballots_cons (v : Vote) (vs : List Vote) :
    ballots (v :: vs) = insert v.ballot (ballots vs) := by simp [ballots]

/-- What a run does to the tracker and says about the threshold. -/
structure Ran (params : ConsensusParams) (s : Step) (w : Address → ℕ) (P : Vote → Prop)
    (B : Finset (Address × ProposalValue)) (t t' : VoteTracker) (es : List ThresholdEvent) :
    Prop where
  tracks : Tracks w P B t'
  calm : Calm params s t'
  emits : Over params s t' → Over params s t ∨ es ≠ []
  once : es.length ≤ 1
  stays : Over params s t → ¬reachesQuorum s params 0 = true → es = []
  reached : ∀ e ∈ es, e.proposal ∈ t'.counts ∧
    reachesQuorum s params (t'.count e.proposal) = true ∧ ¬reachesQuorum s params 0 = true

include h in
theorem Tracks.run (hc : Calm (cfg proto) s t) (hP : ∀ v, P v → VerifiedAt w r p s v)
    (hv : ∀ v ∈ vs, P v) (hok : t.run cfg proto vs = .ok (t', es)) :
    Ran (cfg proto) s w P (B ∪ ballots vs) t t' es := by
  induction vs generalizing t B es with
  | nil =>
    obtain ⟨rfl, rfl⟩ := hok
    rw [show ballots [] = ∅ from rfl, union_empty]
    exact ⟨h, hc, .inl, Nat.zero_le _, fun _ _ => rfl, fun e he => by cases he⟩
  | cons v vs ih =>
    simp only [run, bind_ok, Prod.exists, pure_pair] at hok
    obtain ⟨t1, te, ha, _, _, hr, rfl, rfl⟩ := hok
    have ht := h.voteAccepted hP (hv v mem_cons_self) ha
    have h1 := ih ht.tracks (ht.calm hc) (fun u hu => hv u (mem_cons_of_mem v hu)) hr
    have hB : insert v.ballot B ∪ ballots vs = B ∪ ballots (v :: vs) := by
      rw [ballots_cons, insert_union, union_insert]
    have hs : insert v.ballot B ⊆ insert v.ballot B ∪ ballots vs := subset_union_left
    rw [← hB]
    by_cases h2 : te.t = .none
    · rw [if_pos h2]
      refine ⟨h1.tracks, h1.calm, fun ho => ?_, h1.once, fun ho h0 => ?_, h1.reached⟩
      · exact (h1.emits ho).imp (ht.silent h2) id
      · exact h1.stays (ho.mono h ht.tracks (subset_insert _ _) (ht.calm hc) h0)
          h0
    · rw [if_neg h2]
      obtain ⟨hb, hk, hq, h0⟩ := ht.emitted h2
      have hf : Over (cfg proto) s t1 := ⟨te.proposal, hk, hq⟩
      have hn := h1.stays hf h0
      subst hn
      refine ⟨h1.tracks, h1.calm, fun _ => .inr (by simp), le_rfl,
        fun ho _ => absurd ho hb, fun e he => ?_⟩
      rw [List.mem_singleton] at he
      subst he
      exact h1.tracks.over_mono ht.tracks hs h1.calm h0 hq

include h in
/-- **One winner, no panic**: a run goes through. -/
theorem Tracks.run_ok (hP : ∀ v, P v → VerifiedAt w r p s v) (hs : ∀ v ∈ vs, P v)
    (ho : OneWinner (cfg proto) s w (B ∪ ballots vs)) : ∃ res, t.run cfg proto vs = .ok res := by
  induction vs generalizing t B with
  | nil => exact ⟨_, rfl⟩
  | cons v vs ih =>
    have hB : insert v.ballot B ∪ ballots vs = B ∪ ballots (v :: vs) := by
      rw [ballots_cons, insert_union, union_insert]
    rw [← hB] at ho
    have hv := hs v mem_cons_self
    obtain ⟨⟨_, _⟩, ha⟩ := h.voteAccepted_ok hP hv (ho.anti subset_union_left)
    obtain ⟨⟨_, _⟩, hr⟩ := ih (h.voteAccepted hP hv ha).tracks
      (fun u hu => hs u (mem_cons_of_mem v hu)) ho
    simp only [VoteTracker.run, ha, hr, bind, Except.bind]
    exact ⟨_, rfl⟩

theorem calm_empty (params : ConsensusParams) (s : Step) : Calm params s {} := .inl rfl

theorem not_over_empty (params : ConsensusParams) (s : Step) : ¬Over params s {} := by
  rintro ⟨x, hx, -⟩
  exact AList.notMem_empty x hx

theorem ran_of_run (hP : ∀ v, P v → VerifiedAt w r p s v) (hv : ∀ v ∈ votes, P v)
    (ho : run cfg proto {} votes = .ok (t, es)) :
    Ran (cfg proto) s w P (ballots votes) {} t es := by
  have hr := tracks_empty.run (calm_empty (cfg proto) s) hP hv ho
  rwa [empty_union] at hr

/-- With one winner, a run emits a threshold exactly when some value reaches the quorum. -/
theorem Ran.emits_iff (h : Ran params s w P B {} t es) (ho : OneWinner params s w B) :
    es ≠ [] ↔ ∃ x, reachesQuorum s params (tally w B x) = true := by
  constructor
  · intro hn
    obtain ⟨e, he⟩ := exists_mem_of_ne_nil es hn
    exact ⟨e.proposal, h.tracks.count_eq _ ▸ (h.reached e he).2.1⟩
  · rintro ⟨x, hx⟩
    have hl : ∑ a ∈ Tally.equivocators B, w a < tally w B x := by
      by_contra hle
      exact ho.equivocators (reachesQuorum_mono hx (not_lt.mp hle))
    have hk := h.tracks.key.mpr (supporters_nonempty hl)
    exact (h.emits ⟨x, hk, h.tracks.count_eq x ▸ hx⟩).resolve_left (not_over_empty _ _)

/-- **The tally of a step.** For verified votes of one step, delivered in any order and any number of
times: (i) the tracker counts for every value the weight of the senders who voted for it alone and of
all equivocators, keeps the two kinds apart and emits at most one threshold; (ii) if no two values
reach the quorum then no vote panics, and a threshold is emitted exactly if some value reaches it;
(iii) counts and equivocators do not depend on the order. -/
theorem counts_and_threshold (cfg : Consensus) (proto : ConsensusVersion) {w : Address → ℕ}
    {r : Round} {p : Period} {s : Step} (votes : List Vote)
    (hv : ∀ v ∈ votes, VerifiedAt w r p s v) :
    (∀ t es, run cfg proto {} votes = .ok (t, es) →
      (∀ x, t.count x = ∑ a ∈ supporters (ballots votes) x, w a +
        ∑ a ∈ Tally.equivocators (ballots votes), w a) ∧
      (∀ a, ¬(a ∈ t.voters ∧ a ∈ t.equivocators)) ∧ es.length ≤ 1) ∧
    ((∀ x y, reachesQuorum s (cfg proto) (tally w (ballots votes) x) = true →
        reachesQuorum s (cfg proto) (tally w (ballots votes) y) = true → x = y) →
      ∃ t es, run cfg proto {} votes = .ok (t, es) ∧
        (es.length = 1 ↔ ∃ x, reachesQuorum s (cfg proto) (t.count x) = true) ∧
        ∀ e ∈ es, reachesQuorum s (cfg proto) (t.count e.proposal) = true) ∧
    (∀ votes', (∀ v, v ∈ votes' ↔ v ∈ votes) → ∀ t es t' es',
      run cfg proto {} votes = .ok (t, es) →
      run cfg proto {} votes' = .ok (t', es') →
      (∀ x, (t'.counts.getD x {}).count = (t.counts.getD x {}).count) ∧
        t'.equivocatorsCount = t.equivocatorsCount ∧
        ∀ a, a ∈ t'.equivocators ↔ a ∈ t.equivocators) := by
  have hr : ∀ {votes' t es}, (∀ v, v ∈ votes' ↔ v ∈ votes) →
      run cfg proto {} votes' = .ok (t, es) →
      Ran (cfg proto) s w (VerifiedAt w r p s) (ballots votes') {} t es := fun hm hk =>
    ran_of_run (fun _ h => h) (fun v hv' => hv v ((hm v).mp hv')) hk
  refine ⟨fun t es hk => ?_, fun ho => ?_, fun votes' hm t es t' es' hk hk' => ?_⟩
  · have h := hr (fun _ => Iff.rfl) hk
    exact ⟨h.tracks.count_eq, h.tracks.disjoint, h.once⟩
  · obtain ⟨⟨t, es⟩, hk⟩ := tracks_empty.run_ok (fun _ h => h) hv
      (show OneWinner (cfg proto) s w (∅ ∪ ballots votes) by rwa [empty_union])
    have h := hr (fun _ => Iff.rfl) hk
    refine ⟨t, es, hk, ?_, fun e he => (h.reached e he).2.1⟩
    simp only [h.tracks.count_eq, ← h.emits_iff ho, ← length_pos_iff_ne_nil]
    have := h.once
    omega
  · have hb : ballots votes' = ballots votes := by
      ext ⟨a, x⟩
      simp [mem_ballots, hm]
    have h := (hr (fun _ => Iff.rfl) hk).tracks
    have h' := (hr hm hk').tracks
    rw [hb] at h'
    refine ⟨fun x => by rw [h.count, h'.count], ?_, fun a => ?_⟩
    · rw [h.equivocatorsCount, h'.equivocatorsCount]
    · rw [h.mem_equivocators_iff, h'.mem_equivocators_iff]

/-- Three verified soft votes: the first sender equivocates. -/
def splitVotes : List Vote :=
  [{ r := { sender := 1, step := soft, proposal := { blockDigest := 7 } }, cred := { weight := 1 } },
   { r := { sender := 2, step := soft, proposal := { blockDigest := 7 } }, cred := { weight := 2 } },
   { r := { sender := 1, step := soft, proposal := { blockDigest := 8 } }, cred := { weight := 1 } }]

/-- Committees of three. -/
def threeConsensus : Consensus := fun _ =>
  { softCommitteeThreshold := 3, certCommitteeThreshold := 3, nextCommitteeThreshold := 3
    lateCommitteeThreshold := 3, redoCommitteeThreshold := 3, downCommitteeThreshold := 3
    agreementFilterTimeout := 0, agreementFilterTimeoutPeriod0 := 0, fastRecoveryLambda := 0 }

theorem splitVotes_winner
    (h : reachesQuorum soft (threeConsensus 0) (tally id (ballots splitVotes) x) = true) :
    x = { blockDigest := 7 } := by
  by_contra hne
  have he : supporters (ballots splitVotes) x = ∅ := by
    refine eq_empty_iff_forall_notMem.mpr fun a ha => ?_
    obtain ⟨hm, hn⟩ := mem_supporters.mp ha
    obtain ⟨v, hv, rfl, rfl⟩ := mem_ballots.mp hm
    simp only [splitVotes, List.mem_cons, List.not_mem_nil, or_false] at hv
    rcases hv with rfl | rfl | rfl
    · exact hne rfl
    · exact hne rfl
    · exact hn (by decide)
  have hq : ∑ a ∈ Tally.equivocators (ballots splitVotes), id a = 1 := by decide
  rw [tally, he, hq] at h
  simp [reachesQuorum, threshold, threeConsensus] at h

/-- One threshold for the value of the second sender, with the equivocator's help. -/
theorem counts_and_threshold_split :
    ∃ t es, run threeConsensus 0 {} splitVotes = .ok (t, es) ∧ es.length = 1 ∧
      ∀ e ∈ es, reachesQuorum soft (threeConsensus 0) (t.count e.proposal) = true := by
  have hv : ∀ v ∈ splitVotes, VerifiedAt id 0 0 soft v := by
    intro v hv
    simp only [splitVotes, List.mem_cons, List.not_mem_nil, or_false] at hv
    rcases hv with rfl | rfl | rfl <;> exact ⟨rfl, rfl, rfl, rfl, by decide⟩
  obtain ⟨t, es, ho, hi, he⟩ := (counts_and_threshold threeConsensus 0 splitVotes hv).2.1
    fun x y hx hy => (splitVotes_winner hx).trans (splitVotes_winner hy).symm
  have h := (counts_and_threshold threeConsensus 0 splitVotes hv).1 t es ho
  refine ⟨t, es, ho, hi.mpr ⟨{ blockDigest := 7 }, ?_⟩, he⟩
  rw [h.1]
  decide

end VoteTracker

end Novarand.Agreement
