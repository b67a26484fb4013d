import Novarand.Agreement.VoteCounts

/-!
# Packing a quorum into a bundle

`packQuorum` takes items until their weight reaches the threshold of the step. What it takes is a
prefix, is taken whole a second time, reaches the threshold whenever all items do, and has no more
items than the threshold when every item weighs something. So `genBundle` succeeds for every value
over the threshold, and the bundle is made of the tracker's own votes and pairs.
-/

namespace Novarand.Agreement

open List Dict Nat

variable {proto : ConsensusParams} {k n : ℕ} {s : Step}

theorem reachesQuorum_iff :
    reachesQuorum s proto n = true ↔ s ≠ propose ∧ threshold s proto ≤ n := by
  unfold reachesQuorum
  split_ifs with h <;> simp [h]

theorem reachesQuorum_mono (h : reachesQuorum s proto n = true) (hl : n ≤ k) :
    reachesQuorum s proto k = true := by
  rw [reachesQuorum_iff] at h ⊢
  exact ⟨h.1, h.2.trans hl⟩

section Pack

variable {α : Type} {s : Step} {proto : ConsensusParams} {weight : α → ℕ} {packed : ℕ} {l : List α}

theorem packQuorum_initial : (packQuorum s proto weight packed l).1 <+: l := by
  induction l generalizing packed with
  | nil => simp [packQuorum]
  | cons a l ih =>
    unfold packQuorum
    split_ifs
    · exact nil_prefix
    · exact cons_prefix_cons.mpr ⟨rfl, ih⟩

theorem packQuorum_total : (packQuorum s proto weight packed l).2 =
    packed + ((packQuorum s proto weight packed l).1.map weight).sum := by
  induction l generalizing packed with
  | nil => simp [packQuorum]
  | cons a l ih =>
    unfold packQuorum
    split_ifs
    · simp
    · simp [ih, add_assoc]

/-- Packing ends at a quorum or at the end of the list. -/
theorem packQuorum_stops : reachesQuorum s proto (packQuorum s proto weight packed l).2 = true ∨
    (packQuorum s proto weight packed l).1 = l := by
  induction l generalizing packed with
  | nil => exact .inr rfl
  | cons a l ih =>
    unfold packQuorum
    split_ifs with h
    · exact .inl h
    · exact ih.imp id (congrArg (a :: ·))

theorem packQuorum_again : packQuorum s proto weight packed (packQuorum s proto weight packed l).1 =
    packQuorum s proto weight packed l := by
  induction l generalizing packed with
  | nil => rfl
  | cons a l ih =>
    by_cases h : reachesQuorum s proto packed = true
    · simp [h, packQuorum]
    · simp [h, packQuorum, ih]

/-- If all items reach the quorum then the packed ones do. -/
theorem packQuorum_reaches (h : reachesQuorum s proto (packed + (l.map weight).sum) = true) :
    reachesQuorum s proto (packQuorum s proto weight packed l).2 = true := by
  have hs : _ ∨ (packQuorum s proto weight packed l).1 = l := packQuorum_stops
  rcases hs with hq | ha
  · exact hq
  · rw [packQuorum_total, ha]
    exact h

theorem packQuorum_of_reached (h : reachesQuorum s proto packed = true) :
    packQuorum s proto weight packed l = ([], packed) := by
  cases l <;> simp [packQuorum, h]

theorem packQuorum_ne_nil (hl : l ≠ []) (h : ¬reachesQuorum s proto packed = true) :
    (packQuorum s proto weight packed l).1 ≠ [] := by
  cases l with
  | nil => exact absurd rfl hl
  | cons a l => simp [packQuorum, h]

theorem packQuorum_size (hs : s ≠ propose) (hp : ∀ a ∈ l, 0 < weight a)
    (h : packed ≤ threshold s proto) :
    packed + (packQuorum s proto weight packed l).1.length ≤ threshold s proto := by
  induction l generalizing packed with
  | nil => simpa [packQuorum] using h
  | cons a l ih =>
    have ha := hp a mem_cons_self
    have hl := fun b hb => hp b (mem_cons_of_mem a hb)
    unfold packQuorum
    split_ifs with hq
    · simpa using h
    · have ht : packed < threshold s proto := by
        by_contra he
        exact hq (reachesQuorum_iff.mpr ⟨hs, not_lt.mp he⟩)
      simp only [length_cons]
      by_cases hn : packed + weight a ≤ threshold s proto
      · have := ih hl hn
        omega
      · have hq' : reachesQuorum s proto (packed + weight a) = true :=
          reachesQuorum_iff.mpr ⟨hs, (not_le.mp hn).le⟩
        rw [packQuorum_of_reached hq']
        exact ht

variable {β : Type} {weight' : β → ℕ} {l' : List β}

/-- Two lists packed one after the other: together they reach the quorum if all items do. -/
theorem packQuorum_two_reaches (h : reachesQuorum s proto ((l.map weight).sum +
    (l'.map weight').sum) = true) : reachesQuorum s proto
      (packQuorum s proto weight' (packQuorum s proto weight 0 l).2 l').2 = true := by
  refine packQuorum_reaches ?_
  have hs : _ ∨ (packQuorum s proto weight 0 l).1 = l := packQuorum_stops
  rcases hs with hq | ha
  · exact reachesQuorum_mono hq (le_add_right _ _)
  · rwa [packQuorum_total, ha, zero_add]

theorem packQuorum_two_total :
    (packQuorum s proto weight' (packQuorum s proto weight 0 l).2 l').2 =
      ((packQuorum s proto weight 0 l).1.map weight).sum +
        ((packQuorum s proto weight' (packQuorum s proto weight 0 l).2 l').1.map weight').sum := by
  have ht : (packQuorum s proto weight 0 l).2 = _ := packQuorum_total
  rw [packQuorum_total, ht, zero_add]

theorem packQuorum_two_size (hs : s ≠ propose) (hp : ∀ a ∈ l, 0 < weight a)
    (hp' : ∀ b ∈ l', 0 < weight' b) :
    (packQuorum s proto weight 0 l).1.length +
      (packQuorum s proto weight' (packQuorum s proto weight 0 l).2 l').1.length ≤
        threshold s proto := by
  have hz : 0 + _ ≤ threshold s proto := packQuorum_size hs hp (zero_le _)
  rw [zero_add] at hz
  by_cases hq : reachesQuorum s proto (packQuorum s proto weight 0 l).2 = true
  · rw [packQuorum_of_reached hq]
    exact hz
  · have he : (packQuorum s proto weight 0 l).2 ≤ threshold s proto := by
      by_contra ht
      exact hq (reachesQuorum_iff.mpr ⟨hs, (not_le.mp ht).le⟩)
    have hl : (packQuorum s proto weight 0 l).1.length ≤ (packQuorum s proto weight 0 l).2 := by
      rw [packQuorum_total, zero_add, ← length_map weight]
      refine length_le_sum_of_one_le _ fun n hn => ?_
      obtain ⟨a, ha, rfl⟩ := mem_map.mp hn
      exact hp a (packQuorum_initial.subset ha)
    have := packQuorum_size hs hp' he
    omega

end Pack

/-- A verified vote of the step `s` of round `r` and period `p`; `w` gives every sender's weight. -/
structure VerifiedAt (w : Address → ℕ) (r : Round) (p : Period) (s : Step) (v : Vote) : Prop where
  round : v.r.round = r
  period : v.r.period = p
  step : v.r.step = s
  weight : v.cred.weight = w v.r.sender
  pos : 0 < w v.r.sender

variable {e : EquivocationVote} {v0 v : Vote}

namespace VoteTracker

open Novarand.Tally

/-- `votes` and `pairs` are a quorum for `x` taken from the tracker `t`. -/
structure Packs (proto : ConsensusParams) (s : Step) (t : VoteTracker) (x : ProposalValue)
    (votes : List Vote) (pairs : List EquivocationVote) : Prop where
  nonempty : votes ≠ []
  ofVoters : ∀ v ∈ votes, t.voters.lookup v.r.sender = some v ∧ v.r.proposal = x
  nodup : (votes.map fun v => v.r.sender).Nodup
  ofEquivocators : ∀ e ∈ pairs, t.equivocators.lookup e.sender = some e
  nodupPairs : (pairs.map fun e => e.sender).Nodup
  quorum : reachesQuorum s proto ((votes.map fun v => v.cred.weight).sum +
    (pairs.map fun e => e.cred.weight).sum) = true
  size : votes.length + pairs.length ≤ threshold s proto

variable {w : Address → ℕ} {P : Vote → Prop} {B : Finset (Address × ProposalValue)}
  {t t' : VoteTracker} {r : Round} {p : Period} {s : Step} {x : ProposalValue}
  {proto : ConsensusParams}

/-- The senders of the values of a dictionary which is keyed by sender. -/
theorem nodup_values_map {V : Type} {m : Dict Address V} {f : V → Address}
    (h : ∀ a v, m.lookup a = some v → f v = a) : (m.values.map f).Nodup := by
  have hk : m.values.map f = m.keys := by
    rw [values, map_map, AList.keys]
    exact map_congr_left fun e he => h e.1 e.2 ((mem_dlookup_iff m.nodupKeys).mpr he)
  rw [hk]
  exact AList.keys_nodup m

theorem Tracks.sum_votes (h : Tracks w P B t) (hP : ∀ v, P v → VerifiedAt w r p s v) :
    ((t.counts.getD x {}).votes.values.map fun v => v.cred.weight).sum =
      ∑ a ∈ supporters B x, w a := by
  have hk : (t.counts.getD x {}).votes.keys.toFinset = supporters B x := by
    ext a
    rw [mem_toFinset, ← AList.mem_keys, mem_iff]
    constructor
    · rintro ⟨v, hv⟩
      obtain ⟨ht, rfl⟩ := h.counted.mp hv
      exact (h.voter ht).2.2
    · intro ha
      obtain ⟨v, hv⟩ := h.voted ha
      exact ⟨v, h.counted.mpr ⟨hv, h.choice ha hv⟩⟩
  rw [← hk]
  refine sum_values fun a v hv => ?_
  obtain ⟨hp, hs, -⟩ := h.voter (h.counted.mp hv).1
  rw [(hP v hp).weight, hs]

theorem Tracks.sum_pairs (h : Tracks w P B t) (hP : ∀ v, P v → VerifiedAt w r p s v) :
    (t.equivocators.values.map fun e => e.cred.weight).sum =
      ∑ a ∈ Tally.equivocators B, w a := by
  have hk : t.equivocators.keys.toFinset = Tally.equivocators B := by
    ext a
    rw [mem_toFinset, ← AList.mem_keys, h.mem_equivocators_iff, Tally.mem_equivocators]
  rw [← hk]
  refine sum_values fun a e he => ?_
  obtain ⟨-, old, v, ho, -, hs, -, -, rfl⟩ := h.pair he
  exact (hP old ho).weight.trans (by rw [hs])

theorem makeBundle_ok {vs : List Vote} {pairs : List EquivocationVote}
    (ha : ∀ v ∈ v0 :: vs, v.r.proposal = x)
    (hv : packQuorum v0.r.step proto (fun v : Vote => v.cred.weight) 0 (v0 :: vs) = (v0 :: vs, n))
    (hp : packQuorum v0.r.step proto (fun e : EquivocationVote => e.cred.weight) n pairs =
      (pairs, k)) (hq : reachesQuorum v0.r.step proto k = true) :
    makeBundle proto x (v0 :: vs) pairs =
      .ok { round := v0.r.round, period := v0.r.period, step := v0.r.step, proposal := x
            votes := (v0 :: vs).map voteAuthenticator
            equivocationVotes := pairs.map equivocationVoteAuthenticator } := by
  have hn : ¬(v0 :: vs).any (fun v => v.r.proposal ≠ x) = true := by
    simp only [any_eq_true, decide_eq_true_eq, not_exists, not_and, not_not]
    exact ha
  simp only [makeBundle, if_neg hn, hv, hp, if_pos hq]
  rfl

section

variable (h : Tracks w P B t)
include h

/-- The votes a bundle for `x` is packed from. -/
theorem Tracks.mem_sortVotes (hv : v ∈ sortVotes (t.counts.getD x {}).votes.values) :
    t.voters.lookup v.r.sender = some v ∧ v.r.proposal = x := by
  rw [sortVotes, mem_insertionSort, mem_values] at hv
  obtain ⟨a, ha⟩ := hv
  obtain ⟨ht, hx⟩ := h.counted.mp ha
  obtain ⟨-, rfl, -⟩ := h.voter ht
  exact ⟨ht, hx⟩

/-- The pairs a bundle is filled up with. -/
theorem Tracks.mem_sortEquivocations (he : e ∈ sortEquivocations t.equivocators.values) :
    t.equivocators.lookup e.sender = some e := by
  rw [sortEquivocations, mem_insertionSort, mem_values] at he
  obtain ⟨a, ha⟩ := he
  obtain ⟨-, _, v, -, -, rfl, -, -, rfl⟩ := h.pair ha
  exact ha

theorem Tracks.nodup_sortVotes :
    ((sortVotes (t.counts.getD x {}).votes.values).map fun v => v.r.sender).Nodup := by
  refine ((perm_insertionSort _ _).map _).nodup_iff.mpr (nodup_values_map fun a v hv => ?_)
  exact (h.voter (h.counted.mp hv).1).2.1

theorem Tracks.nodup_sortEquivocations :
    ((sortEquivocations t.equivocators.values).map fun e => e.sender).Nodup := by
  refine ((perm_insertionSort _ _).map _).nodup_iff.mpr (nodup_values_map fun a e he => ?_)
  obtain ⟨-, _, v, -, -, hs, -, -, rfl⟩ := h.pair he
  exact hs

theorem Tracks.weight_pos (hP : ∀ v, P v → VerifiedAt w r p s v)
    (he : t.equivocators.lookup e.sender = some e) : 0 < e.cred.weight := by
  obtain ⟨-, old, v, ho, -, -, -, -, rfl⟩ := h.pair he
  have hw := hP old ho
  exact hw.weight ▸ hw.pos

/-- **`genBundle` makes a bundle** for every value which is over the threshold. -/
theorem Tracks.genBundle_ok (hP : ∀ v, P v → VerifiedAt w r p s v) (hx : x ∈ t.counts)
    (hq : reachesQuorum s proto (t.count x) = true) (h0 : ¬reachesQuorum s proto 0 = true) :
    ∃ votes pairs, Packs proto s t x votes pairs ∧ t.genBundle proto (t.counts.getD x {}) =
      .ok { round := r, period := p, step := s, proposal := x
            votes := votes.map voteAuthenticator
            equivocationVotes := pairs.map equivocationVoteAuthenticator } := by
  have hs : s ≠ propose := (reachesQuorum_iff.mp hq).1
  have h1 : ∀ v ∈ sortVotes (t.counts.getD x {}).votes.values, VerifiedAt w r p s v :=
    fun v hv => hP v (h.voter (h.mem_sortVotes hv).1).1
  have hn : sortVotes (t.counts.getD x {}).votes.values ≠ [] := by
    obtain ⟨a, ha⟩ := h.key.mp hx
    obtain ⟨v, hv⟩ := h.voted ha
    refine ne_nil_of_mem (a := v) ?_
    rw [sortVotes, mem_insertionSort, mem_values]
    exact ⟨a, h.counted.mpr ⟨hv, h.choice ha hv⟩⟩
  have h3 : ((sortVotes (t.counts.getD x {}).votes.values).map fun v => v.cred.weight).sum +
      ((sortEquivocations t.equivocators.values).map fun e => e.cred.weight).sum = t.count x := by
    have hv := ((perm_insertionSort (fun a b : Vote => packsBefore a.cred.weight a.r.sender
      b.cred.weight b.r.sender) (t.counts.getD x {}).votes.values).map fun v => v.cred.weight).sum_eq
    have he := ((perm_insertionSort (fun a b : EquivocationVote => packsBefore a.cred.weight
      a.sender b.cred.weight b.sender) t.equivocators.values).map fun e => e.cred.weight).sum_eq
    rw [sortVotes, sortEquivocations, hv, he, h.sum_votes hP, h.sum_pairs hP, h.count_eq, tally]
  have hp : ∀ v ∈ sortVotes (t.counts.getD x {}).votes.values, 0 < v.cred.weight :=
    fun v hv => (h1 v hv).weight ▸ (h1 v hv).pos
  have h4 : ∀ e ∈ sortEquivocations t.equivocators.values, 0 < e.cred.weight :=
    fun e he => h.weight_pos hP (h.mem_sortEquivocations he)
  have hr := packQuorum_two_reaches (h3 ▸ hq)
  have hz : _ ≤ threshold s proto := packQuorum_two_size hs hp h4
  have hc : (packQuorum s proto (fun v : Vote => v.cred.weight) 0
    (sortVotes (t.counts.getD x {}).votes.values)).1 ≠ [] := packQuorum_ne_nil hn h0
  refine ⟨_, _, ⟨hc, fun v hv => h.mem_sortVotes (packQuorum_initial.subset hv),
    (packQuorum_initial.sublist.map _).nodup h.nodup_sortVotes,
    fun e he => h.mem_sortEquivocations (packQuorum_initial.subset he),
    (packQuorum_initial.sublist.map _).nodup h.nodup_sortEquivocations, ?_, hz⟩, ?_⟩
  · rw [packQuorum_two_total] at hr
    exact hr
  · obtain ⟨v, _, h2⟩ := exists_cons_of_ne_nil hn
    have ht := (h1 v (h2 ▸ mem_cons_self)).step
    obtain ⟨v0, vs, hv0⟩ := exists_cons_of_ne_nil hc
    have hm0 : ∀ u ∈ v0 :: vs, u ∈ sortVotes (t.counts.getD x {}).votes.values :=
      fun u hu => packQuorum_initial.subset (hv0 ▸ hu)
    have ha0 := h1 v0 (hm0 v0 mem_cons_self)
    have hx0 := (h.mem_sortVotes (hm0 v0 mem_cons_self)).2
    have hg : t.genBundle proto (t.counts.getD x {}) = makeBundle proto x (v0 :: vs)
        (packQuorum s proto (fun e : EquivocationVote => e.cred.weight)
          (packQuorum s proto (fun v : Vote => v.cred.weight) 0
            (sortVotes (t.counts.getD x {}).votes.values)).2
          (sortEquivocations t.equivocators.values)).1 := by
      rw [h2] at hv0 ⊢
      simp [genBundle, h2, ht, hv0, ha0.step, hx0]
    rw [hg, makeBundle_ok (fun u hu => (h.mem_sortVotes (hm0 u hu)).2), ha0.round, ha0.period,
      ha0.step, hv0]
    · rw [ha0.step, ← hv0, packQuorum_again]
    · rw [ha0.step, packQuorum_again]
    · rwa [ha0.step]

end

end VoteTracker

end Novarand.Agreement
