import Novarand.Agreement.Counting
import Novarand.Lib.Tally

/-!
# What a vote tracker counts

`Tracks w P B t` describes a tracker exactly by the ballots `B` delivered to it, in the terms of
`Tally`: its voters are the supporters of some value, its equivocators are the equivocators of `B`,
and its counters are their weights. Every vote delivered to a tracker keeps this description, so
the counts depend on the set of ballots only.
-/

namespace Novarand.Agreement

open Novarand.Tally Finset Dict

/-- What a vote says to the tally. -/
def Vote.ballot (v : Vote) : Address × ProposalValue := (v.r.sender, v.r.proposal)

def ballots (votes : List Vote) : Finset (Address × ProposalValue) :=
  (votes.map Vote.ballot).toFinset

variable {a : Address} {x : ProposalValue}

theorem mem_ballots {votes : List Vote} :
    (a, x) ∈ ballots votes ↔ ∃ v ∈ votes, v.r.sender = a ∧ v.r.proposal = x := by
  simp [ballots, Vote.ballot]

/-- The pair which two votes of one sender make. -/
def equivocationPair (old v : Vote) : EquivocationVote where
  sender := old.r.sender
  round := old.r.round
  period := old.r.period
  step := old.r.step
  cred := old.cred
  proposals := (old.r.proposal, v.r.proposal)
  sigs := (old.sig, v.sig)

namespace VoteTracker

structure Tracks (w : Address → ℕ) (P : Vote → Prop) (B : Finset (Address × ProposalValue))
    (t : VoteTracker) : Prop where
  voter : ∀ {a v}, t.voters.lookup a = some v → P v ∧ v.r.sender = a ∧ a ∈ supporters B v.r.proposal
  voted : ∀ {a x}, a ∈ supporters B x → ∃ v, t.voters.lookup a = some v
  pair : ∀ {a e}, t.equivocators.lookup a = some e → Equivocates B a ∧ ∃ old v, P old ∧ P v ∧
    old.r.sender = a ∧ v.r.sender = a ∧ old.r.proposal ≠ v.r.proposal ∧ e = equivocationPair old v
  paired : ∀ {a}, Equivocates B a → ∃ e, t.equivocators.lookup a = some e
  counted : ∀ {x a v}, (t.counts.getD x {}).votes.lookup a = some v ↔
    t.voters.lookup a = some v ∧ v.r.proposal = x
  key : ∀ {x}, x ∈ t.counts ↔ (supporters B x).Nonempty
  count : ∀ x, (t.counts.getD x {}).count = ∑ a ∈ supporters B x, w a
  equivocatorsCount : t.equivocatorsCount = ∑ a ∈ Tally.equivocators B, w a

variable {w : Address → ℕ} {P : Vote → Prop} {B : Finset (Address × ProposalValue)}
  {t t' : VoteTracker} {v old : Vote}

theorem tracks_empty : Tracks w P ∅ {} where
  voter h := by simp at h
  voted h := by simp [mem_supporters] at h
  pair h := by simp at h
  paired h := by simp [equivocates_iff] at h
  counted := by simp
  key := by simp [supporters]
  count := by simp [supporters]
  equivocatorsCount := by simp [Tally.equivocators]

theorem addEquivocator_getD (x : ProposalValue) :
    (t.addEquivocator old v).counts.getD x {} =
      if x = old.r.proposal then
        if (t.counts.getD old.r.proposal {}).count ≤ old.cred.weight then {}
        else { count := (t.counts.getD old.r.proposal {}).count - old.cred.weight
               votes := (t.counts.getD old.r.proposal {}).votes.erase v.r.sender }
      else t.counts.getD x {} := by
  simp only [addEquivocator]
  by_cases hl : (t.counts.getD old.r.proposal {}).count ≤ old.cred.weight
  · rw [if_pos hl, if_pos hl, getD_erase]
  · rw [if_neg hl, if_neg hl, getD_insert]

theorem mem_addEquivocator_counts (x : ProposalValue) :
    x ∈ (t.addEquivocator old v).counts ↔
      if (t.counts.getD old.r.proposal {}).count ≤ old.cred.weight then
        x ≠ old.r.proposal ∧ x ∈ t.counts
      else x = old.r.proposal ∨ x ∈ t.counts := by
  simp only [addEquivocator]
  by_cases hl : (t.counts.getD old.r.proposal {}).count ≤ old.cred.weight
  · rw [if_pos hl, if_pos hl, AList.mem_erase]
  · rw [if_neg hl, if_neg hl, AList.mem_insert]

namespace Tracks

section

variable (h : Tracks w P B t)
include h

theorem count_eq (x : ProposalValue) : t.count x = tally w B x := by
  rw [VoteTracker.count, h.count, h.equivocatorsCount, tally]

/-- A recorded voter's choice is the recorded one. -/
theorem choice (ha : a ∈ supporters B x) (hv : t.voters.lookup a = some v) : v.r.proposal = x := by
  obtain ⟨-, -, hm⟩ := h.voter hv
  rw [mem_supporters] at ha hm
  exact choice_unique ha.2 hm.1 ha.1

/-- A sender without a recorded vote or pair has no ballot. -/
theorem fresh (he : t.equivocators.lookup a = none) (hv : t.voters.lookup a = none)
    (x : ProposalValue) : (a, x) ∉ B := by
  intro hx
  by_cases hq : Equivocates B a
  · obtain ⟨e, hp⟩ := h.paired hq
    exact absurd (he.symm.trans hp) (by simp)
  · obtain ⟨v, ht⟩ := h.voted (mem_supporters.mpr ⟨hx, hq⟩)
    exact absurd (hv.symm.trans ht) (by simp)

theorem disjoint (a : Address) : ¬(a ∈ t.voters ∧ a ∈ t.equivocators) := by
  rintro ⟨hv, he⟩
  obtain ⟨v, hv⟩ := mem_iff.mp hv
  obtain ⟨e, he⟩ := mem_iff.mp he
  exact (mem_supporters.mp (h.voter hv).2.2).2 (h.pair he).1

theorem mem_equivocators_iff (a : Address) : a ∈ t.equivocators ↔ Equivocates B a := by
  rw [mem_iff]
  exact ⟨fun ⟨_, he⟩ => (h.pair he).1, h.paired⟩

end

/-! ## Delivering a vote -/

section

variable (h : Tracks w P B t)
include h

/-- A further vote of a known equivocator. -/
theorem known (hk : Equivocates B v.r.sender) : Tracks w P (insert v.ballot B) t := by
  have hs : ∀ x, supporters (insert v.ballot B) x = supporters B x := fun _ =>
    supporters_insert_known hk
  have he : ∀ a, Equivocates (insert v.ballot B) a ↔ Equivocates B a := fun _ =>
    equivocates_insert_known hk
  have h1 : Tally.equivocators (insert v.ballot B) = Tally.equivocators B :=
    equivocators_insert_known hk
  exact {
    voter := fun hv => by rw [hs]; exact h.voter hv
    voted := fun ha => h.voted (by rwa [hs] at ha)
    pair := fun hp => by rw [he]; exact h.pair hp
    paired := fun ha => h.paired ((he _).mp ha)
    counted := h.counted
    key := fun {x} => by rw [hs]; exact h.key
    count := fun x => by rw [hs]; exact h.count x
    equivocatorsCount := by rw [h1]; exact h.equivocatorsCount }

/-- A repeated vote. -/
theorem same (ho : t.voters.lookup v.r.sender = some old) (he : old.r.proposal = v.r.proposal) :
    Tracks w P (insert v.ballot B) t := by
  have hm : v.ballot ∈ B := by
    have := (mem_supporters.mp (h.voter ho).2.2).1
    rwa [he] at this
  rwa [insert_eq_of_mem hm]

theorem addVote (hP : P v) (hw : v.cred.weight = w v.r.sender)
    (he : t.equivocators.lookup v.r.sender = none) (hv : t.voters.lookup v.r.sender = none) :
    Tracks w P (insert v.ballot B) (t.addVote v) := by
  have hf := h.fresh he hv
  have hn : v.r.sender ∉ supporters B v.r.proposal := fun hm =>
    hf _ (mem_supporters.mp hm).1
  constructor
  case voter =>
    intro a u hu
    simp only [VoteTracker.addVote, lookup_insert'] at hu
    simp only [Vote.ballot, supporters_insert_fresh hf]
    split_ifs at hu with ha
    · rw [Option.some.injEq] at hu
      subst hu ha
      exact ⟨hP, rfl, by simp⟩
    · obtain ⟨h1, hs, hm⟩ := h.voter hu
      refine ⟨h1, hs, ?_⟩
      split_ifs
      · exact mem_insert_of_mem hm
      · exact hm
  case voted =>
    intro a x ha
    simp only [Vote.ballot, supporters_insert_fresh hf] at ha
    simp only [VoteTracker.addVote, lookup_insert']
    by_cases hs : a = v.r.sender
    · exact ⟨v, if_pos hs⟩
    · rw [if_neg hs]
      split_ifs at ha
      · exact h.voted ((mem_insert.mp ha).resolve_left hs)
      · exact h.voted ha
  case pair =>
    intro a e hp
    rw [Vote.ballot, equivocates_insert_fresh hf]
    exact h.pair hp
  case paired =>
    intro a ha
    rw [Vote.ballot, equivocates_insert_fresh hf] at ha
    exact h.paired ha
  case counted =>
    intro x a u
    simp only [VoteTracker.addVote, lookup_insert', getD_insert]
    by_cases hx : x = v.r.proposal
    · subst hx
      simp only [if_true, lookup_insert']
      by_cases ha : a = v.r.sender
      · simp only [if_pos ha, Option.some.injEq]
        exact ⟨fun h => ⟨h, by rw [h]⟩, And.left⟩
      · simp only [if_neg ha]
        exact h.counted
    · simp only [if_neg hx]
      by_cases ha : a = v.r.sender
      · subst ha
        rw [h.counted, hv]
        constructor
        · rintro ⟨⟨⟩, -⟩
        · rintro ⟨hu, h2⟩
          simp only [if_true, Option.some.injEq] at hu
          exact absurd (hu ▸ h2).symm hx
      · simp only [if_neg ha]
        exact h.counted
  case key =>
    intro x
    simp only [VoteTracker.addVote, Vote.ballot, supporters_insert_fresh hf, AList.mem_insert,
      h.key]
    split_ifs with hx
    · simp [hx]
    · simp [hx]
  case count =>
    intro x
    simp only [VoteTracker.addVote, Vote.ballot, supporters_insert_fresh hf, getD_insert]
    split_ifs with hx
    · subst hx
      rw [sum_insert hn, h.count, hw, add_comm]
    · exact h.count x
  case equivocatorsCount =>
    rw [show v.ballot = (v.r.sender, v.r.proposal) from rfl, equivocators_insert_fresh hf]
    exact h.equivocatorsCount

theorem addEquivocator (hP : P v) (hw : ∀ v, P v → v.cred.weight = w v.r.sender ∧ 0 < w v.r.sender)
    (ho : t.voters.lookup v.r.sender = some old) (hne : old.r.proposal ≠ v.r.proposal) :
    Tracks w P (insert v.ballot B) (t.addEquivocator old v) := by
  obtain ⟨h4, hn, he⟩ := h.voter ho
  have hi := (mem_supporters.mp he).1
  have h5 := (mem_supporters.mp he).2
  have h6 : old.cred.weight = w v.r.sender := by rw [(hw old h4).1, hn]
  have hp : ∀ b ∈ supporters B old.r.proposal, 0 < w b := by
    intro b hb
    obtain ⟨u, hu⟩ := h.voted hb
    obtain ⟨h2, rfl, -⟩ := h.voter hu
    exact (hw u h2).2
  have h7 := add_sum_erase _ w he
  -- the counter of the old value is deleted exactly when it had no other supporter
  have hl : (t.counts.getD old.r.proposal {}).count ≤ old.cred.weight ↔
      (supporters B old.r.proposal).erase v.r.sender = ∅ := by
    rw [h.count, h6, ← h7]
    constructor
    · intro hle
      rw [← not_nonempty_iff_eq_empty]
      rintro hn'
      have hlt : 0 < ∑ b ∈ (supporters B old.r.proposal).erase v.r.sender, w b :=
        sum_pos (fun b hb => hp b (mem_of_mem_erase hb)) hn'
      omega
    · intro h3
      rw [h3, sum_empty, add_zero]
  have ht : ∀ x, x ≠ old.r.proposal → v.r.sender ∉ supporters B x := fun x hx h8 =>
    hx (choice_unique h5 (mem_supporters.mp h8).1 hi)
  constructor
  case voter =>
    intro a u hu
    simp only [VoteTracker.addEquivocator, lookup_erase'] at hu
    split_ifs at hu with ha
    obtain ⟨h2, hs, hm⟩ := h.voter hu
    refine ⟨h2, hs, ?_⟩
    rw [Vote.ballot, supporters_insert_second hi hne]
    exact mem_erase.mpr ⟨ha, hm⟩
  case voted =>
    intro a x ha
    rw [Vote.ballot, supporters_insert_second hi hne, mem_erase] at ha
    simp only [VoteTracker.addEquivocator, lookup_erase', if_neg ha.1]
    exact h.voted ha.2
  case pair =>
    intro a e h1
    simp only [VoteTracker.addEquivocator, lookup_insert'] at h1
    rw [Vote.ballot, equivocates_insert_second hi hne]
    split_ifs at h1 with ha
    · rw [Option.some.injEq] at h1
      subst ha
      exact ⟨.inl rfl, old, v, h4, hP, hn, rfl, hne, h1.symm⟩
    · obtain ⟨hq, hr⟩ := h.pair h1
      exact ⟨.inr hq, hr⟩
  case paired =>
    intro a ha
    rw [Vote.ballot, equivocates_insert_second hi hne] at ha
    simp only [VoteTracker.addEquivocator, lookup_insert']
    by_cases hs : a = v.r.sender
    · simp [hs]
    · rw [if_neg hs]
      exact h.paired (ha.resolve_left hs)
  case counted =>
    intro x a u
    rw [addEquivocator_getD]
    simp only [VoteTracker.addEquivocator, lookup_erase']
    by_cases ha : a = v.r.sender
    · -- the sender's vote is in no counter any more
      simp only [if_pos ha, reduceCtorEq, false_and, iff_false]
      split_ifs with hx hle
      · simp
      · simp [lookup_erase', ha]
      · intro hu
        rw [h.counted, ha, ho, Option.some.injEq] at hu
        exact hx (hu.1 ▸ hu.2).symm
    · split_ifs with hx hle
      · simp only [AList.lookup_empty, reduceCtorEq, false_iff, not_and]
        rintro hu rfl
        have hm' : a ∈ (supporters B u.r.proposal).erase v.r.sender :=
          mem_erase.mpr ⟨ha, (h.voter hu).2.2⟩
        rw [hx, hl.mp hle] at hm'
        simp at hm'
      · rw [lookup_erase', if_neg ha, h.counted, hx]
      · exact h.counted
  case key =>
    intro x
    rw [mem_addEquivocator_counts, Vote.ballot, supporters_insert_second hi hne]
    by_cases hx : x = old.r.proposal
    · subst hx
      split_ifs with hle
      · simp [hl.mp hle]
      · simp only [true_or, true_iff, nonempty_iff_ne_empty]
        exact fun h3 => hle (hl.mpr h3)
    · rw [erase_eq_of_notMem (ht x hx), ← h.key]
      split_ifs
      · simp [hx]
      · simp [hx]
  case count =>
    intro x
    rw [addEquivocator_getD, Vote.ballot, supporters_insert_second hi hne]
    split_ifs with hx hle
    · rw [hx, hl.mp hle, sum_empty]
    · rw [hx, h.count, h6, ← h7, Nat.add_sub_cancel_left]
    · rw [erase_eq_of_notMem (ht x hx), h.count]
  case equivocatorsCount =>
    rw [Vote.ballot, equivocators_insert_second hi hne,
      sum_insert (fun ha => h5 (mem_equivocators.mp ha))]
    simp [VoteTracker.addEquivocator, h.equivocatorsCount, (hw v hP).1, add_comm]

end

end Tracks

end VoteTracker

end Novarand.Agreement
