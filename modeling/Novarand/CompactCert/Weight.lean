import Novarand.Ledger.Blocks

/-!
# The weight of a compact certificate

A certificate needs the weight of all its voters at first. The weight that is acceptable then falls
with the rounds, down to the proven weight.
-/

namespace Novarand.CompactCert

open Ledger Nat

/-- `Muldiv`: `none` on overflow. -/
def muldiv (a b c : ℕ) : Option ℕ := if a * b / c < 2 ^ 64 then some (a * b / c) else none

variable (proto : ConsensusParams) (votersHdr : BlockHeader) (firstValid : Agreement.Round)

/-- `AcceptableCompactCertWeight` under the protocol of the header. At an overflow, `none`, a warning
is logged and the weight is 0. -/
def acceptableCompactCertWeight : Option ℕ :=
  let certRound := (votersHdr.round + proto.compactCertRounds) % 2 ^ 64
  let total := votersHdr.basicCompactCert.votersTotal
  let offset := subSaturate firstValid certRound
  if offset = 0 then some total
  else
    let offset := subSaturate offset (proto.compactCertRounds / 2 + 2)
    if offset = 0 then some total
    else do
      let provenWeight ← muldiv total proto.compactCertWeightThreshold (2 ^ 32)
      guard (provenWeight ≤ total)
      if proto.compactCertRounds / 2 ≤ offset then some provenWeight
      else
        let scaledWeight ← muldiv (total - provenWeight) (proto.compactCertRounds / 2 - offset)
          (proto.compactCertRounds / 2)
        oAdd provenWeight scaledWeight

/-- The acceptable weight `k` rounds after it began to fall. -/
def fallen (total proven half k : ℕ) : ℕ :=
  if k = 0 then total else proven + (total - proven) * (half - k) / half

section

variable {a b c total proven half : ℕ}

theorem share_le (h : b ≤ c) : a * b / c ≤ a :=
  Nat.div_le_of_le_mul (by rw [mul_comm c]; gcongr)

theorem muldiv_eq (ha : a < 2 ^ 64) (h : b ≤ c) : muldiv a b c = some (a * b / c) :=
  if_pos ((share_le h).trans_lt ha)

variable (h : proven ≤ total) (k : ℕ)
include h

theorem surplus_le : proven + (total - proven) * (half - k) / half ≤ total := by
  have hs := share_le (a := total - proven) (Nat.sub_le half k)
  omega

theorem fallen_bounds :
    proven ≤ fallen total proven half k ∧ fallen total proven half k ≤ total := by
  unfold fallen
  split_ifs
  · exact ⟨h, le_rfl⟩
  · exact ⟨le_add_right _ _, surplus_le h k⟩

theorem fallen_antitone : Antitone (fallen total proven half) := by
  intro j k hj
  by_cases h0 : j = 0
  · rw [h0]
    exact (fallen_bounds h k).2
  · rw [fallen, fallen, if_neg h0, if_neg (by omega)]
    gcongr

end

variable {proto votersHdr}

/-- **The acceptable weight never overflows, and falls from the total to the proven weight.** -/
theorem acceptableCompactCertWeight_antitone (hw : proto.compactCertWeightThreshold ≤ 2 ^ 32)
    (ht : votersHdr.basicCompactCert.votersTotal < 2 ^ 64) :
    ∃ weight : ℕ → ℕ, (∀ r, acceptableCompactCertWeight proto votersHdr r = some (weight r)) ∧
      Antitone weight ∧ ∀ r,
        votersHdr.basicCompactCert.votersTotal * proto.compactCertWeightThreshold / 2 ^ 32 ≤
          weight r ∧ weight r ≤ votersHdr.basicCompactCert.votersTotal := by
  have hl := @share_le votersHdr.basicCompactCert.votersTotal _ _ hw
  refine ⟨fun r => fallen _ _ (proto.compactCertRounds / 2) (r -
    (votersHdr.round + proto.compactCertRounds) % 2 ^ 64 - (proto.compactCertRounds / 2 + 2)),
    fun r => ?_, fun q r hq => fallen_antitone hl ?_, fun r => fallen_bounds hl _⟩
  · simp only [acceptableCompactCertWeight, subSaturate, muldiv_eq ht hw, guard, if_pos hl,
      Option.bind_eq_bind, Option.bind_some, muldiv_eq ((Nat.sub_le _ _).trans_lt ht) (Nat.sub_le _ _),
      oAdd, if_pos ((surplus_le hl _).trans_lt ht), fallen]
    split_ifs with h1 h2 h3 h4
    · rfl
    · exact absurd (by rw [h1, Nat.zero_sub]) h2
    · rfl
    · rw [Nat.sub_eq_zero_of_le h4, mul_zero, Nat.zero_div]
      rfl
    · rfl
  · gcongr

/-- Half of a weight of 1000 is to be proven, for the voters of round 0 and certificates every 128
rounds. In round 226 half of the surplus is gone. -/
theorem acceptableCompactCertWeight_antitone_half :
    ∃ weight : ℕ → ℕ, (∀ r, acceptableCompactCertWeight
        { compactCertRounds := 128, compactCertWeightThreshold := 2 ^ 31 }
        { compactCert := AList.singleton 0 { votersTotal := 1000 } } r = some (weight r)) ∧
      Antitone weight ∧ weight 226 = 750 ∧ ∀ r, 500 ≤ weight r ∧ weight r ≤ 1000 := by
  obtain ⟨weight, h, ha, hb⟩ := @acceptableCompactCertWeight_antitone
    { compactCertRounds := 128, compactCertWeightThreshold := 2 ^ 31 }
    { compactCert := AList.singleton 0 { votersTotal := 1000 } } (by decide) (by decide)
  refine ⟨weight, h, ha, ?_, hb⟩
  exact Option.some.inj ((h 226).symm.trans (by decide))

end Novarand.CompactCert
