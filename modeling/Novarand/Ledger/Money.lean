import Novarand.Lib.Total
import Novarand.Ledger.Calls

/-!
# Money is conserved

The worth of an account is its balance with the pending rewards. The rewards of a block raise the worth
of all accounts by what the pool pays; after that every step of the evaluation keeps the sum of all
worths. The totals of `CalculateTotals` are the sums over all accounts, by status, so its check that
the sum of money did not change cannot fail.
-/

namespace Novarand.Ledger

open List Function Dict Option Nat

/-! ## The worth of an account -/

variable {m amt : MicroNovas}

namespace AccountData

variable {proto : ConsensusParams} {level : ℕ} {u u' : AccountData}

/-- The balance with the pending rewards: `Money`, without a bound. -/
def worth (proto : ConsensusParams) (level : ℕ) (u : AccountData) : ℕ :=
  if u.status = .notParticipating then u.microNovas
  else u.microNovas + rewardUnits proto u.microNovas * (level - u.rewardsBase)

theorem UpToDate.worth_eq (h : u.UpToDate level) : u.worth proto level = u.microNovas := by
  unfold worth
  rcases h with hs | hb
  · rw [if_pos hs]
  · rw [hb]
    simp

/-- An account that claimed its rewards is worth whatever its balance is set to. -/
theorem worth_of_claimed (h : u.withUpdatedRewards proto level = some u') (amt : MicroNovas) :
    ({ u' with microNovas := amt } : AccountData).worth proto level = amt := by
  have hu := (withUpdatedRewards_ok h).1
  exact UpToDate.worth_eq hu

theorem Edited.worth_eq (h : u.Edited level u') : u'.worth proto level = u.worth proto level := by
  unfold worth
  rw [h.microNovas, h.rewardsBase]
  rcases h.status with ⟨hu, hu'⟩ | ⟨hu, hu'⟩
  · rw [if_pos hu, if_pos hu']
  · rw [if_neg hu]
    by_cases hs : u'.status = .notParticipating
    · rw [hu' hs]
      simp
    · rw [if_neg hs]

theorem worth_of_zero (h : u.microNovas = 0) : u.worth proto level = 0 := by
  unfold worth
  rw [h]
  simp [rewardUnits]

theorem worth_default : ({} : AccountData).worth proto level = 0 := worth_of_zero rfl

/-- `Money` is the worth, where it is defined. -/
theorem money_eq_some_iff : u.money proto level = some m ↔
    m = u.worth proto level ∧
      (u.status = .notParticipating ∨ u.rewardsBase ≤ level ∧ u.worth proto level < 2 ^ 64) := by
  unfold money withUpdatedRewards worth
  by_cases hs : u.status = .notParticipating
  · simp [hs, eq_comm]
  · simp only [hs, if_false, false_or, map_eq_some_iff, bind_eq_bind,
      Option.bind_eq_some_iff, Option.pure_def, oSub_eq_some, oMul_eq_some, oAdd_eq_some]
    constructor
    · rintro ⟨_, ⟨_, ⟨he, rfl⟩, _, ⟨-, rfl⟩, _, ⟨hl, rfl⟩, h⟩, rfl⟩
      cases h
      exact ⟨rfl, he, hl⟩
    · rintro ⟨rfl, he, hl⟩
      refine ⟨_, ⟨_, ⟨he, rfl⟩, _, ⟨?_, rfl⟩, _, ⟨hl, rfl⟩, rfl⟩, rfl⟩
      exact (le_add_left _ _).trans_lt hl

theorem worth_of_withUpdatedRewards (h : u.withUpdatedRewards proto level = some u') :
    u'.microNovas = u.worth proto level := by
  have hm : u.money proto level = some u'.microNovas := by rw [money, h, map_some]
  exact (money_eq_some_iff.mp hm).1

end AccountData

open AccountData

/-! ## Steps keep the sum -/

variable {v u : AccountData} {src dst a : Address}

namespace World

variable {x : BlockContext} {num : Prop} {busy : List AppIndex} {w w' : World}

/-- The sum of a measure over all accounts. -/
noncomputable def sum (g : AccountData → ℕ) (w : World) : ℕ := sumOf g w.account

/-- All but finitely many accounts are empty. -/
def FewAccounts (w : World) : Prop := AlmostAll {} w.account

variable {g : AccountData → ℕ}

theorem FewAccounts.put (h : w.FewAccounts) (a : Address) (u : AccountData) :
    (w.put a u).FewAccounts := AlmostAll.update h a u

theorem sum_put (h : w.FewAccounts) (hg : g {} = 0) (a : Address) (u : AccountData) :
    (w.put a u).sum g + g (w.account a) = w.sum g + g u := sumOf_update h hg a u

variable {u : AccountData}

section

variable (h : w.FewAccounts)
include h

theorem sum_put_eq (hg : g {} = 0) (hu : g u = g (w.account a)) : (w.put a u).sum g = w.sum g := by
  have := sum_put h hg a u
  lia

theorem FewAccounts.step (ht : Step x num busy w w') : w'.FewAccounts := by
  cases ht with
  | move _ ha _ _ => exact (h.put _ _).put _ _
  | transferAsset _ ha hw₁ _ =>
    subst hw₁
    exact (h.put _ _).put _ _
  | write | count => exact h
  | _ => exact h.put _ _

/-- A step keeps the sum of all worths. -/
theorem Step.sum_worth (ht : Step x num busy w w') :
    w'.sum (·.worth x.proto x.rewardsLevel) = w.sum (·.worth x.proto x.rewardsLevel) := by
  have hz : ({} : AccountData).worth x.proto x.rewardsLevel = 0 := worth_default
  cases ht with
  | @move src dst amt u v hu ha hv _ =>
    have hs := sum_put h hz src { u with microNovas := u.microNovas - amt }
    have hd := sum_put (h.put src { u with microNovas := u.microNovas - amt }) hz dst
      { v with microNovas := v.microNovas + amt }
    rw [worth_of_claimed hu, ← worth_of_withUpdatedRewards hu] at hs
    rw [worth_of_claimed hv, ← worth_of_withUpdatedRewards hv] at hd
    lia
  | edit hu => exact sum_put_eq h hz hu.worth_eq
  | close hm _ _ _ _ =>
    refine sum_put_eq h hz ?_
    rw [hz, worth_of_zero hm]
  | transferAsset hs ha hw₁ hd =>
    have ho := (congrArg (sum (·.worth x.proto x.rewardsLevel)) hw₁).trans (sum_put_eq h hz rfl)
    refine Eq.trans ?_ ho
    exact sum_put_eq (hw₁ ▸ h.put _ _) hz rfl
  | write | count => rfl
  | _ => exact sum_put_eq h hz rfl

theorem Steps.sum_worth (hp : Steps x num busy w w') :
    w'.FewAccounts ∧
      w'.sum (·.worth x.proto x.rewardsLevel) = w.sum (·.worth x.proto x.rewardsLevel) := by
  induction hp with
  | refl => exact ⟨h, rfl⟩
  | tail _ hs ih => exact ⟨ih.1.step hs, (hs.sum_worth ih.1).trans ih.2⟩

end

end World

/-! ## Totals -/

/-- The money an account adds to the count of a status. -/
def AccountData.moneyOf (proto : ConsensusParams) (level : ℕ) (s : Status) (u : AccountData) : ℕ :=
  if u.status = s then u.worth proto level else 0

/-- The units an account adds to the count of a status. -/
def AccountData.unitsOf (proto : ConsensusParams) (s : Status) (u : AccountData) : ℕ :=
  if u.status = s then rewardUnits proto u.microNovas else 0

section

variable (proto : ConsensusParams) (level : ℕ) (s : Status)

theorem AccountData.moneyOf_default :
    ({} : AccountData).moneyOf proto level s = 0 := by
  unfold moneyOf
  rw [worth_default, ite_self]

theorem AccountData.unitsOf_default : ({} : AccountData).unitsOf proto s = 0 := by
  unfold unitsOf
  simp [rewardUnits]

/-- The worth of an account is counted under its one status. -/
theorem AccountData.worth_eq_moneyOf (u : AccountData) :
    u.worth proto level = u.moneyOf proto level .notParticipating +
      (u.moneyOf proto level .online + u.moneyOf proto level .offline) := by
  unfold moneyOf
  cases hs : u.status <;> simp

end

/-- The rewards up to the level of the account can be computed. -/
def AccountData.Counted (level : ℕ) (u : AccountData) : Prop :=
  u.status = .notParticipating ∨ u.rewardsBase ≤ level

variable {level' units prevLevel : ℕ}

theorem AccountData.Counted.mono {level : ℕ} (h : u.Counted level) (hl : level ≤ level') :
    u.Counted level' :=
  h.imp id fun hb => hb.trans hl

theorem AccountData.counted_default (level : ℕ) : ({} : AccountData).Counted level :=
  .inr (zero_le level)

variable {proto : ConsensusParams} {s status : Status}

/-- A higher level raises the worth of an account by its units. -/
theorem AccountData.moneyOf_level {level : ℕ} (h : u.Counted level) (hl : level ≤ level')
    (hs : s ≠ .notParticipating) :
    u.moneyOf proto level' s =
      u.moneyOf proto level s + u.unitsOf proto s * (level' - level) := by
  unfold moneyOf unitsOf
  by_cases ht : u.status = s
  · subst ht
    rw [if_pos rfl, if_pos rfl, if_pos rfl]
    have hb : u.rewardsBase ≤ level := h.resolve_left hs
    have hd : level' - u.rewardsBase = level - u.rewardsBase + (level' - level) := by omega
    unfold worth
    rw [if_neg hs, if_neg hs, hd, mul_add, add_assoc]
  · rw [if_neg ht, if_neg ht, if_neg ht, Nat.zero_mul]

theorem AccountData.moneyOf_notParticipating (proto : ConsensusParams) (level level' : ℕ)
    (u : AccountData) :
    u.moneyOf proto level' .notParticipating = u.moneyOf proto level .notParticipating := by
  unfold moneyOf worth
  by_cases hs : u.status = .notParticipating
  · rw [if_pos hs, if_pos hs, if_pos hs, if_pos hs]
  · rw [if_neg hs, if_neg hs]

variable {accounts : Dict Address AccountData} {us : List AccountData} {t1 prev t : AccountTotals}

namespace AccountTotals

variable {proto : ConsensusParams} {level : ℕ} {t t' : AccountTotals} {f : Address → AccountData}

theorem ext_count (hl : t.rewardsLevel = t'.rewardsLevel) (h : ∀ s, t.count s = t'.count s) :
    t = t' := by
  obtain ⟨online, offline, notParticipating, rewardsLevel⟩ := t
  obtain ⟨online', offline', notParticipating', rewardsLevel'⟩ := t'
  obtain rfl : online = online' := h .online
  obtain rfl : offline = offline' := h .offline
  obtain rfl : notParticipating = notParticipating' := h .notParticipating
  obtain rfl : rewardsLevel = rewardsLevel' := hl
  rfl

/-- The totals are the sums over all accounts, and fit. -/
structure Exact (proto : ConsensusParams) (level : ℕ) (f : Address → AccountData)
    (t : AccountTotals) : Prop where
  level_eq : t.rewardsLevel = level
  money : ∀ s, (t.count s).money = sumOf (moneyOf proto level s) f
  units : ∀ s, (t.count s).rewardUnits = sumOf (unitsOf proto s) f
  money_lt : ∀ s, (t.count s).money < 2 ^ 64
  units_lt : ∀ s, (t.count s).rewardUnits < 2 ^ 64

theorem updateStatus_ok {g : AlgoCount → Option AlgoCount} (h : t.updateStatus status g = some t') :
    t'.rewardsLevel = t.rewardsLevel ∧ g (t.count status) = some (t'.count status) ∧
      ∀ s, s ≠ status → t'.count s = t.count s := by
  cases status <;>
  · obtain ⟨c, hc, rfl⟩ := map_eq_some_iff.mp h
    refine ⟨rfl, hc, fun s hs => ?_⟩
    cases s <;> first | rfl | exact absurd rfl hs

variable {m : MicroNovas} {u : AccountData}

theorem addAccount_ok (h : t.addAccount proto u m = some t') :
    t'.rewardsLevel = t.rewardsLevel ∧ ∀ s,
      (t'.count s).money = (t.count s).money + (if u.status = s then m else 0) ∧
      (t'.count s).rewardUnits = (t.count s).rewardUnits + u.unitsOf proto s ∧
      ((t.count s).money < 2 ^ 64 → (t'.count s).money < 2 ^ 64) ∧
      ((t.count s).rewardUnits < 2 ^ 64 → (t'.count s).rewardUnits < 2 ^ 64) := by
  obtain ⟨hl, ha, ho⟩ := updateStatus_ok h
  simp only [AlgoCount.add, Option.bind_eq_bind, Option.bind_eq_some_iff, Option.pure_def,
    oAdd_eq_some, Option.some.injEq] at ha
  obtain ⟨_, ⟨hm, rfl⟩, _, ⟨hu, rfl⟩, hc⟩ := ha
  refine ⟨hl, fun s => ?_⟩
  unfold unitsOf
  by_cases hs : u.status = s
  · subst hs
    rw [if_pos rfl, if_pos rfl, ← hc]
    exact ⟨rfl, rfl, fun _ => hm, fun _ => hu⟩
  · rw [if_neg hs, if_neg hs, ho s (Ne.symm hs)]
    exact ⟨rfl, rfl, id, id⟩

theorem delAccount_ok (h : t.delAccount proto u m = some t') :
    t'.rewardsLevel = t.rewardsLevel ∧ ∀ s,
      (t'.count s).money + (if u.status = s then m else 0) = (t.count s).money ∧
      (t'.count s).rewardUnits + u.unitsOf proto s = (t.count s).rewardUnits := by
  obtain ⟨hl, hd, ho⟩ := updateStatus_ok h
  simp only [AlgoCount.del, Option.bind_eq_bind, Option.bind_eq_some_iff, Option.pure_def,
    oSub_eq_some, Option.some.injEq] at hd
  obtain ⟨_, ⟨hm, rfl⟩, _, ⟨hu, rfl⟩, hc⟩ := hd
  refine ⟨hl, fun s => ?_⟩
  unfold unitsOf
  by_cases hs : u.status = s
  · subst hs
    rw [if_pos rfl, if_pos rfl, ← hc]
    exact ⟨Nat.sub_add_cancel hm, Nat.sub_add_cancel hu⟩
  · rw [if_neg hs, if_neg hs, ho s (Ne.symm hs)]
    exact ⟨rfl, rfl⟩

/-- Replacing what an account was by what it is. -/
theorem Exact.replace (h : Exact proto level f t) (hf : AlmostAll {} f)
    (hd : t.delAccount proto (f a) ((f a).worth proto level) = some t1)
    (ha : t1.addAccount proto u (u.worth proto level) = some t') :
    Exact proto level (update f a u) t' := by
  obtain ⟨hl1, hd⟩ := delAccount_ok hd
  obtain ⟨hl, ha⟩ := addAccount_ok ha
  have hm := fun s => sumOf_update hf (moneyOf_default proto level s) a u
  have hu := fun s => sumOf_update hf (unitsOf_default proto s) a u
  refine ⟨(hl.trans hl1).trans h.level_eq, fun s => ?_, fun s => ?_, fun s => ?_, fun s => ?_⟩
  · have h1 := (hd s).1
    have h2 := (ha s).1
    have h3 := hm s
    have h4 := h.money s
    simp only [moneyOf] at h3 h4 ⊢
    lia
  · have h1 := (hd s).2
    have h2 := (ha s).2.1
    have h3 := hu s
    have h4 := h.units s
    omega
  · have h1 := (hd s).1
    have h4 := h.money_lt s
    exact (ha s).2.2.1 (by lia)
  · have h1 := (hd s).2
    have h4 := h.units_lt s
    exact (ha s).2.2.2 (by omega)

/-! ### Totals from scratch -/

theorem addAll_ok (h : addAll proto level us t = some t') :
    t'.rewardsLevel = t.rewardsLevel ∧ (∀ u ∈ us, u.Counted level) ∧ ∀ s,
      (t'.count s).money = (t.count s).money + (us.map (·.moneyOf proto level s)).sum ∧
      (t'.count s).rewardUnits = (t.count s).rewardUnits + (us.map (·.unitsOf proto s)).sum ∧
      ((t.count s).money < 2 ^ 64 → (t'.count s).money < 2 ^ 64) ∧
      ((t.count s).rewardUnits < 2 ^ 64 → (t'.count s).rewardUnits < 2 ^ 64) := by
  induction us generalizing t with
  | nil =>
    obtain rfl := Option.some.inj h
    exact ⟨rfl, forall_mem_nil _, fun s => ⟨rfl, rfl, id, id⟩⟩
  | cons u us ih =>
    simp only [addAll, bind_eq_bind, bind_eq_some_iff] at h
    obtain ⟨m, hm, _, ha, hr⟩ := h
    obtain ⟨rfl, hc⟩ := money_eq_some_iff.mp hm
    obtain ⟨hl1, ha⟩ := addAccount_ok ha
    obtain ⟨hl, h9, hr⟩ := ih hr
    refine ⟨hl.trans hl1, ?_, fun s => ?_⟩
    · rw [forall_mem_cons]
      exact ⟨hc.imp id And.left, h9⟩
    · obtain ⟨h1, h2, h3, h4⟩ := ha s
      obtain ⟨h5, h6, h7, h8⟩ := hr s
      refine ⟨?_, ?_, h7 ∘ h3, h8 ∘ h4⟩
      · rw [h5, h1, map_cons, sum_cons, ← add_assoc]
        rfl
      · rw [h6, h2, map_cons, sum_cons, ← add_assoc]

theorem addAccount_isSome (hm : (t.count u.status).money + m < 2 ^ 64)
    (hu : (t.count u.status).rewardUnits + rewardUnits proto u.microNovas < 2 ^ 64) :
    ∃ t', t.addAccount proto u m = some t' := by
  have ha : AlgoCount.add m (rewardUnits proto u.microNovas) (t.count u.status) = some
      ⟨(t.count u.status).money + m,
        (t.count u.status).rewardUnits + rewardUnits proto u.microNovas⟩ := by
    simp only [AlgoCount.add, oAdd, if_pos hm, if_pos hu, bind_eq_bind,
      Option.bind_some, Option.pure_def]
  unfold addAccount updateStatus
  cases hs : u.status <;>
  · simp only [hs, count] at ha
    simp only [ha, map_some]
    exact ⟨_, rfl⟩

/-- Accounts whose sums fit can be added up. -/
theorem addAll_isSome (ha : ∀ u ∈ us, u.Counted level)
    (hn : ∀ s, (t.count s).money + (us.map (·.moneyOf proto level s)).sum < 2 ^ 64)
    (h3 : ∀ s, (t.count s).rewardUnits + (us.map (·.unitsOf proto s)).sum < 2 ^ 64) :
    ∃ t', addAll proto level us t = some t' := by
  induction us generalizing t with
  | nil => exact ⟨t, rfl⟩
  | cons u us ih =>
    simp only [map_cons, sum_cons] at hn h3
    have hm := hn u.status
    have hu := h3 u.status
    simp only [moneyOf, unitsOf, if_true] at hm hu
    obtain ⟨t1, ht1⟩ : ∃ t1, t.addAccount proto u (u.worth proto level) = some t1 :=
      addAccount_isSome (by lia) (by lia)
    obtain ⟨-, hd⟩ := addAccount_ok ht1
    obtain ⟨hc, ha⟩ := forall_mem_cons.mp ha
    have hw : u.money proto level = some (u.worth proto level) :=
      money_eq_some_iff.mpr ⟨rfl, hc.imp id fun hl => ⟨hl, by lia⟩⟩
    obtain ⟨t', ht'⟩ := ih (t := t1) ha
      (fun s => by
        have h1 := (hd s).1
        have h2 := hn s
        simp only [moneyOf] at h1 h2 ⊢
        lia)
      (fun s => by
        have h1 := (hd s).2.1
        have h2 := h3 s
        lia)
    refine ⟨t', ?_⟩
    simp only [addAll, hw, bind_eq_bind, bind_some, ht1]
    exact ht'

/-- Totals computed from scratch are the sums over all accounts. -/
theorem recompute_eq_some_iff :
    recompute proto level accounts = some t ↔
      (∀ u ∈ accounts.values, u.Counted level) ∧
        Exact proto level (fun a => accounts.getD a {}) t := by
  have hn := fun s => sumOf_getD accounts (moneyOf_default proto level s)
  have h1 := fun s => sumOf_getD accounts (unitsOf_default proto s)
  have hz : ∀ s, (count { rewardsLevel := level } s) = {} := fun s => by cases s <;> rfl
  constructor
  · intro h
    obtain ⟨hl, ha, hs⟩ := addAll_ok h
    refine ⟨ha, hl, fun s => ?_, fun s => ?_, fun s => ?_, fun s => ?_⟩
    · rw [(hs s).1, hz, hn]
      exact zero_add _
    · rw [(hs s).2.1, hz, h1]
      exact zero_add _
    · exact (hs s).2.2.1 (by rw [hz]; exact Nat.two_pow_pos 64)
    · exact (hs s).2.2.2 (by rw [hz]; exact Nat.two_pow_pos 64)
  · rintro ⟨ha, hexact⟩
    have hm : ∀ s, (count { rewardsLevel := level } s).money +
        (accounts.values.map (·.moneyOf proto level s)).sum = (t.count s).money := fun s => by
      rw [hexact.money, hn, hz]
      exact zero_add _
    have hu : ∀ s, (count { rewardsLevel := level } s).rewardUnits +
        (accounts.values.map (·.unitsOf proto s)).sum = (t.count s).rewardUnits := fun s => by
      rw [hexact.units, h1, hz]
      exact zero_add _
    obtain ⟨t', ht'⟩ := addAll_isSome ha (fun s => (hm s).symm ▸ hexact.money_lt s)
      (fun s => (hu s).symm ▸ hexact.units_lt s)
    obtain ⟨hl, -, hs⟩ := addAll_ok ht'
    obtain rfl : t' = t := by
      refine ext_count (hl.trans hexact.level_eq.symm) fun s => ?_
      exact AlgoCount.ext ((hs s).1.trans (hm s)) ((hs s).2.1.trans (hu s))
    exact ht'

/-! ### A new rewards level -/

variable {level' : ℕ}

/-- The sums at a higher level. -/
theorem sumOf_moneyOf_level (hf : AlmostAll {} f) (ha : ∀ a, (f a).Counted level)
    (hl : level ≤ level') (hs : s ≠ .notParticipating) :
    sumOf (moneyOf proto level' s) f =
      sumOf (moneyOf proto level s) f +
        sumOf (unitsOf proto s) f * (level' - level) := by
  rw [← sumOf_mul_right, ← sumOf_add hf (moneyOf_default proto level s)
    (by rw [unitsOf_default, zero_mul])]
  exact sumOf_congr fun a => moneyOf_level (ha a) hl hs

theorem sumOf_worth (hf : AlmostAll {} f) :
    sumOf (·.worth proto level) f = sumOf (moneyOf proto level .notParticipating) f +
      (sumOf (moneyOf proto level .online) f +
        sumOf (moneyOf proto level .offline) f) := by
  have hz := fun s => moneyOf_default proto level s
  rw [← sumOf_add hf (hz _) (hz _), ← sumOf_add hf (hz _) (by rw [hz, hz])]
  exact sumOf_congr fun a => worth_eq_moneyOf proto level (f a)

section

variable (h : Exact proto level f t) (hf : AlmostAll {} f)
include h hf

theorem Exact.applyRewards (ha : ∀ a, (f a).Counted level) (hr : t.applyRewards level' = some t')
    : Exact proto level' f t' := by
  simp only [AccountTotals.applyRewards, AlgoCount.applyRewards, bind_eq_bind,
    Option.bind_eq_some_iff, Option.pure_def, oSub_eq_some, oMul_eq_some, oAdd_eq_some,
    Option.some.injEq] at hr
  obtain ⟨_, ⟨hl, rfl⟩, _, ⟨_, ⟨-, rfl⟩, _, ⟨hn, rfl⟩, rfl⟩, _, ⟨_, ⟨-, rfl⟩, _, ⟨ho, rfl⟩, rfl⟩,
    rfl⟩ := hr
  rw [h.level_eq] at hl hn ho ⊢
  refine ⟨rfl, fun s => ?_, fun s => ?_, fun s => ?_, fun s => ?_⟩
  · cases s with
    | online | offline =>
      rw [sumOf_moneyOf_level hf ha hl Status.noConfusion, ← h.money, ← h.units]
      rfl
    | notParticipating =>
      rw [sumOf_congr fun a => moneyOf_notParticipating proto level level' (f a)]
      exact h.money .notParticipating
  · rw [← h.units]
    cases s <;> rfl
  · cases s with
    | online => exact hn
    | offline => exact ho
    | notParticipating => exact h.money_lt .notParticipating
  · have ht := h.units_lt s
    cases s <;> exact ht

/-- `All` is the sum of all worths. -/
theorem Exact.all_eq (hm : t.all = some m) : m = sumOf (·.worth proto level) f := by
  simp only [all, bind_eq_bind, bind_eq_some_iff, oAdd_eq_some] at hm
  obtain ⟨_, ⟨-, rfl⟩, -, rfl⟩ := hm
  rw [sumOf_worth hf, ← h.money, ← h.money, ← h.money]
  rfl

/-- The rewards of a level are the units times the difference of the levels. -/
theorem Exact.sum_worth_level (ha : ∀ a, (f a).Counted level) (hl : level ≤ level')
    (hu : t.totalRewardUnits = some units) :
    sumOf (·.worth proto level') f = sumOf (·.worth proto level) f + units * (level' - level) := by
  obtain ⟨-, rfl⟩ := oAdd_eq_some.mp hu
  have hn : t.online.rewardUnits = sumOf (unitsOf proto .online) f := h.units .online
  have ho : t.offline.rewardUnits = sumOf (unitsOf proto .offline) f :=
    h.units .offline
  rw [sumOf_worth hf, sumOf_worth hf,
    sumOf_congr fun a => moneyOf_notParticipating proto level level' (f a),
    sumOf_moneyOf_level (s := .online) hf ha hl Status.noConfusion,
    sumOf_moneyOf_level (s := .offline) hf ha hl Status.noConfusion, ← hn, ← ho]
  lia

end

end AccountTotals

open AccountTotals

/-! ## The totals of a block -/

variable {b : RoundCowBase}

namespace Cow

variable {x : BlockContext} {p c : Cow} {es : List (Σ _ : Address, AccountData)}
  {result totals : Option AccountTotals}

theorem updateTotals_error {e : EvalError} (hr : updateTotals x p es totals = .error e) :
    e = .rewardsOverflowPanic := by
  induction es generalizing totals with
  | nil => cases hr
  | cons _ es ih =>
    simp only [updateTotals, bind_error_iff, orThrow_error_iff] at hr
    rcases hr with ⟨-, rfl⟩ | ⟨_, -, ⟨-, rfl⟩ | ⟨_, -, hs⟩⟩
    · rfl
    · rfl
    · exact ih hs

/-- The loop replaces, one after the other, what the accounts were by what they are. -/
theorem updateTotals_exact (h1 : es.NodupKeys) {f : Address → AccountData} (hf : AlmostAll {} f)
    (hp : ∀ e ∈ es, f e.1 = p.lookup e.1)
    (ht : ∀ t, totals = some t → t.Exact x.proto x.rewardsLevel f)
    (hr : updateTotals x p es totals = .ok result) :
    (∀ e ∈ es, e.2.Counted x.rewardsLevel) ∧
      ∀ t, result = some t →
        t.Exact x.proto x.rewardsLevel fun a => (es.dlookup a).getD (f a) := by
  induction es generalizing totals f with
  | nil =>
    obtain rfl := pure_ok.mp hr
    exact ⟨forall_mem_nil _, ht⟩
  | cons e es ih =>
    obtain ⟨addr, up⟩ := e
    simp only [updateTotals, bind_ok, orThrow_ok] at hr
    obtain ⟨_, h2, _, hm, h3⟩ := hr
    obtain ⟨rfl, -⟩ := money_eq_some_iff.mp h2
    obtain ⟨rfl, hc⟩ := money_eq_some_iff.mp hm
    obtain ⟨hn, h4⟩ := nodupKeys_cons.mp h1
    obtain ⟨hh, hl⟩ := forall_mem_cons.mp hp
    have h5 : ∀ e ∈ es, update f addr up e.1 = p.lookup e.1 := by
      intro e he
      have hne : e.1 ≠ addr := fun hq => absurd (mem_keys_of_mem he) (hq ▸ hn)
      rw [update_of_ne hne]
      exact hl e he
    have hx : ∀ t, (do
          let t0 ← totals
          let t1 ← t0.delAccount x.proto (p.lookup addr)
            ((p.lookup addr).worth x.proto x.rewardsLevel)
          t1.addAccount x.proto up (up.worth x.proto x.rewardsLevel)) = some t →
        t.Exact x.proto x.rewardsLevel (update f addr up) := by
      intro t hs
      simp only [bind_eq_bind, bind_eq_some_iff] at hs
      obtain ⟨t0, h6, t1, hd, h7⟩ := hs
      rw [← hh] at hd
      exact (ht t0 h6).replace hf hd h7
    obtain ⟨h8, hexact⟩ := ih h4 (hf.update addr up) h5 hx h3
    refine ⟨forall_mem_cons.mpr ⟨hc.imp id And.left, h8⟩, fun t h9 => ?_⟩
    have hu : (fun a => (es.dlookup a).getD (update f addr up a)) =
        fun a => (List.dlookup a (⟨addr, up⟩ :: es)).getD (f a) := by
      funext a
      by_cases ha : a = addr
      · subst ha
        rw [dlookup_cons_eq, dlookup_eq_none.mpr hn, update_self]
        rfl
      · rw [dlookup_cons_ne _ _ ha, update_of_ne ha]
    exact hu ▸ hexact t h9

theorem lookup_over (h : Over (.base b) c) :
    c.lookup = fun a => (b.accounts.merge c.top.accts).getD a {} := by
  obtain ⟨⟨l, rfl⟩, -⟩ := h
  funext a
  rw [lookup_layer, getD_merge]
  rfl

/-- The sum of the worths of all accounts. -/
def moneyIn (proto : ConsensusParams) (level : ℕ) (accounts : Dict Address AccountData) : ℕ :=
  (accounts.values.map (·.worth proto level)).sum

theorem moneyIn_eq (proto : ConsensusParams) (level : ℕ) (accounts : Dict Address AccountData) :
    moneyIn proto level accounts =
      sumOf (·.worth proto level) fun a => accounts.getD a ({} : AccountData) :=
  (sumOf_getD accounts worth_default).symm

/-- What `CalculateTotals` has to get right in the state `c` over accounts with the totals `prev` at
the level `prevLevel`. -/
structure Conserved (x : BlockContext) (prevLevel : ℕ) (accounts : Dict Address AccountData)
    (prev : AccountTotals) (c : Cow) : Prop where
  /-- The sum of all balances with pending rewards is unchanged. -/
  money : moneyIn x.proto x.rewardsLevel (accounts.merge c.top.accts) =
    moneyIn x.proto prevLevel accounts
  /-- The error about it is not returned. -/
  noError : ∀ before now, c.calculateTotals x prev ≠ .error (.sumOfMoneyChanged before now)
  /-- The totals are those computed from scratch. -/
  totals : ∀ t, c.calculateTotals x prev = .ok t →
    recompute x.proto x.rewardsLevel (accounts.merge c.top.accts) = some t ∧ t.all = prev.all

/-- Accounts that can be added up can be counted, those without an entry included. -/
theorem counted_getD {level : ℕ} (h : ∀ u ∈ accounts.values, u.Counted level) (a : Address) :
    (accounts.getD a {}).Counted level := by
  rw [Dict.getD]
  cases ha : accounts.lookup a with
  | none => exact counted_default _
  | some u => exact h u (mem_values.mpr ⟨a, ha⟩)

/-- The totals after the loop over the changed accounts are those computed from scratch. -/
theorem updateTotals_recompute {l : Layer} (h1 : recompute x.proto prevLevel accounts = some prev)
    (hle : prevLevel ≤ x.rewardsLevel) (hp : p.lookup = fun a => accounts.getD a {})
    (hr : updateTotals x p l.accts.entries (prev.applyRewards x.rewardsLevel) = .ok (some t)) :
    recompute x.proto x.rewardsLevel (accounts.merge l.accts) = some t := by
  obtain ⟨hc, hexact⟩ := recompute_eq_some_iff.mp h1
  have he : AlmostAll {} fun a => accounts.getD a ({} : AccountData) := almostAll_getD _
  have hs : ∀ t, prev.applyRewards x.rewardsLevel = some t →
      t.Exact x.proto x.rewardsLevel fun a => accounts.getD a {} :=
    fun t ht => hexact.applyRewards he (counted_getD hc) ht
  obtain ⟨hh, hn⟩ := updateTotals_exact l.accts.nodupKeys he
    (fun e _ => (congrFun hp e.1).symm) hs hr
  refine recompute_eq_some_iff.mpr ⟨fun u hu => ?_, ?_⟩
  · obtain ⟨a, ha⟩ := mem_values.mp hu
    rw [lookup_merge] at ha
    cases hl : l.accts.lookup a with
    | none =>
      rw [hl] at ha
      exact (hc u (mem_values.mpr ⟨a, ha⟩)).mono hle
    | some u' =>
      rw [hl] at ha
      obtain rfl : u' = u := Option.some.inj ha
      exact hh ⟨a, u'⟩ (of_mem_dlookup hl)
  · simp only [getD_merge]
    exact hn t rfl

/-- A state over accounts with exact totals that keeps the sum of money gets the right totals. -/
theorem Conserved.of_money (hp : recompute x.proto prevLevel b.accounts = some prev)
    (hl : prevLevel ≤ x.rewardsLevel) (hc : Over (.base b) c)
    (h1 : moneyIn x.proto x.rewardsLevel (b.accounts.merge c.top.accts) =
      moneyIn x.proto prevLevel b.accounts) : Conserved x prevLevel b.accounts prev c := by
  obtain ⟨⟨l, rfl⟩, -⟩ := hc
  have hr : ∀ t, updateTotals x (.base b) l.accts.entries
        (prev.applyRewards x.rewardsLevel) = .ok (some t) →
      recompute x.proto x.rewardsLevel (b.accounts.merge l.accts) = some t :=
    fun t ht => updateTotals_recompute hp hl rfl ht
  have hexact := (recompute_eq_some_iff.mp hp).2
  -- both sums are the sums of all worths, which are equal
  have ha : ∀ t, updateTotals x (.base b) l.accts.entries
        (prev.applyRewards x.rewardsLevel) = .ok (some t) →
      ∀ m m', t.all = some m → prev.all = some m' → m = m' := by
    intro t ht m m' hm hm'
    have hn := (recompute_eq_some_iff.mp (hr t ht)).2
    rw [hn.all_eq (almostAll_getD _) hm, hexact.all_eq (almostAll_getD _) hm', ← moneyIn_eq,
      ← moneyIn_eq]
    exact h1
  refine ⟨h1, fun bf now he => ?_, fun t ho => ?_⟩
  · simp only [calculateTotals, bind_error_iff, orThrow_error_iff, orThrow_ok, failIf_ok,
      failIf_error_iff] at he
    rcases he with hu | ⟨_, hu, ⟨-, h⟩ | ⟨t, rfl, ⟨-, h⟩ | ⟨m, hm, ⟨-, h⟩ | ⟨m', hm', ⟨hne, -⟩ |
      ⟨_, -, h⟩⟩⟩⟩⟩
    · cases updateTotals_error hu
    · cases h
    · cases h
    · cases h
    · exact hne (ha t hu m m' hm hm')
    · cases h
  · simp only [calculateTotals, bind_ok, orThrow_ok, failIf_ok, pure_ok] at ho
    obtain ⟨_, hu, t', rfl, m, hm, m', hm', ⟨⟩, -, rfl⟩ := ho
    refine ⟨hr t' hu, ?_⟩
    rw [hm, hm', ha t' hu m m' hm hm']

end Cow

open Cow

/-! ## Blocks -/

variable {addrs : List Address} {p c : Cow}

namespace BlockEvaluator

variable {P : Type} {env : Environment P} {ev₀ ev : BlockEvaluator} {l : LedgerForEvaluator}

open AccountTotals (recompute)

theorem fewAccounts_base (b : RoundCowBase) : (base b).view.FewAccounts := almostAll_getD _

/-- Taking accounts offline that participate keeps the sum. -/
theorem sum_offline {w : World} {level : ℕ}
    (h : ∀ a ∈ addrs, (w.account a).status ≠ .notParticipating) :
    (w.offline addrs).sum (·.worth proto level) = w.sum (·.worth proto level) := by
  refine sumOf_congr fun a => ?_
  simp only [World.offline]
  split_ifs with ha
  · unfold worth
    rw [if_neg (h a ha)]
    rfl
  · rfl

section

variable (h : Started env l ev₀)
  (hexact : recompute ev₀.ctx.proto ev₀.prevHeader.rewardsLevel l.accounts = some l.latestTotals.2)
include h hexact

/-- What the withdrawal takes from the pool is what the new level gives to all accounts. -/
theorem Started.sum_worth :
    ev₀.prevHeader.rewardsLevel ≤ ev₀.ctx.rewardsLevel ∧
      Over (.base (l.base ev₀.prevHeader)) ev₀.state ∧ ev₀.state.view.FewAccounts ∧
      ev₀.state.view.sum (·.worth ev₀.ctx.proto ev₀.ctx.rewardsLevel) =
        moneyIn ev₀.ctx.proto ev₀.prevHeader.rewardsLevel l.accounts := by
  obtain ⟨un, hu, hw⟩ := h.state
  rw [h.prevTotals] at hu
  obtain ⟨hc, ht⟩ := recompute_eq_some_iff.mp hexact
  have hr : Over (.base (l.base ev₀.prevHeader))
      (.layer (.base (l.base ev₀.prevHeader)) {}) := .child trivial
  obtain ⟨c1, poolOld, left, he, -, h1, hle, hl, hs⟩ :
      ∃ c1 poolOld left, Evolves ev₀.ctx False [] _ _ c1 ∧ _ := withdraw_ok hr hw
  -- the transfer into the pool keeps the sum at the new level
  obtain ⟨h2, _⟩ := he.steps.sum_worth
    ((view_child _).symm ▸ fewAccounts_base (l.base ev₀.prevHeader))
  have hb : (layer (.base (l.base ev₀.prevHeader)) {}).view.sum
      (·.worth ev₀.ctx.proto ev₀.ctx.rewardsLevel) =
      moneyIn ev₀.ctx.proto ev₀.prevHeader.rewardsLevel l.accounts +
        un * (ev₀.ctx.rewardsLevel - ev₀.prevHeader.rewardsLevel) := by
    rw [moneyIn_eq]
    refine Eq.trans ?_ (ht.sum_worth_level (almostAll_getD _) (counted_getD hc) hle hu)
    exact congrArg (World.sum _) (view_child (.base (l.base ev₀.prevHeader)))
  have hz : ({} : AccountData).worth ev₀.ctx.proto ev₀.ctx.rewardsLevel = 0 :=
    worth_default
  have hp := World.sum_put h2 hz ev₀.prevHeader.rewardsPool
    { poolOld with microNovas := left }
  rw [worth_of_claimed h1] at hp
  have ho := worth_of_withUpdatedRewards h1
  have hv : ev₀.state.view = c1.view.put ev₀.prevHeader.rewardsPool
      { poolOld with microNovas := left } := by
    rw [hs]
    exact he.toOver.view_put _ _
  refine ⟨hle, hs ▸ he.toOver.put _ _, hv ▸ h2.put _ _, ?_⟩
  have hk : (c1.view.account ev₀.prevHeader.rewardsPool).worth ev₀.ctx.proto
      ev₀.ctx.rewardsLevel = poolOld.microNovas := ho.symm
  lia

/-- A state that keeps the sum since the start of the block is conserved. -/
theorem Started.conserved (hc : Over (.base (l.base ev₀.prevHeader)) c)
    (hs : c.view.sum (·.worth ev₀.ctx.proto ev₀.ctx.rewardsLevel) =
      ev₀.state.view.sum (·.worth ev₀.ctx.proto ev₀.ctx.rewardsLevel)) :
    Conserved ev₀.ctx ev₀.prevHeader.rewardsLevel l.accounts l.latestTotals.2 c := by
  obtain ⟨hl, -, -, ht⟩ := h.sum_worth hexact
  refine Conserved.of_money (b := l.base ev₀.prevHeader) hexact hl hc ?_
  refine Eq.trans ?_ (hs.trans ht)
  rw [moneyIn_eq, ← lookup_over hc]
  rfl

end

/-- Money conservation. Start a block on a ledger with exact totals and offer any groups. The state
after them has the money of the ledger, and `CalculateTotals` finds the totals computed from scratch.
The same holds at the end of the block, after the expired accounts were taken offline: validated ones
are online, and without validation they have to participate. -/
theorem money_conserved {hdr : BlockHeader} {validate generate : Bool} {maxBytes : ℤ}
    (hstart : startEvaluator env l hdr validate generate maxBytes = .ok ev₀)
    (hexact : recompute ev₀.ctx.proto ev₀.prevHeader.rewardsLevel l.accounts =
      some l.latestTotals.2)
    (rewardAddresses : List Address) (groups : List (List SignedTxnWithAD)) :
    let ev := offerGroups env groups { ev₀ with rewardAddresses }
    let Participating (ev₁ : BlockEvaluator) := validate = true ∨
      ∀ a ∈ ev₁.block.expiredParticipationAccounts, (ev.state.lookup a).status ≠ .notParticipating
    Conserved ev₀.ctx ev₀.prevHeader.rewardsLevel l.accounts l.latestTotals.2 ev.state ∧
      (∀ ev₁, ev.generateHeader env = .ok ev₁ → ev₁.validateExpired = .ok () → Participating ev₁ →
        Conserved ev₀.ctx ev₀.prevHeader.rewardsLevel l.accounts l.latestTotals.2
          (resetAccounts ev₁.block.expiredParticipationAccounts ev.state)) ∧
      ∀ ev', ev.endOfBlock env = .ok ev' → Participating ev' →
        recompute ev₀.ctx.proto ev₀.ctx.rewardsLevel (l.accounts.merge ev'.state.top.accts) =
          some ev'.totals := by
  intro ev Participating
  have h1 := startEvaluator_started hstart
  obtain ⟨-, _, hf0, -⟩ := h1.sum_worth hexact
  have h2 : Evolves ev₀.ctx False [] _ ev₀.state ev.state :=
    ((h1.withRewardAddresses rewardAddresses).evolves False.elim groups).1
  obtain ⟨-, hs⟩ := h2.steps.sum_worth hf0
  have h3 : GroupFrame { ev₀ with rewardAddresses } ev := offerGroups_frame groups _
  have hm := (startEvaluator_mode hstart).1
  have hr : ∀ ev₁, ev.generateHeader env = .ok ev₁ → ev₁.validateExpired = .ok () →
      Participating ev₁ →
      Conserved ev₀.ctx ev₀.prevHeader.rewardsLevel l.accounts l.latestTotals.2
        (resetAccounts ev₁.block.expiredParticipationAccounts ev.state) := by
    intro ev₁ hg he hp
    have hg' := generateHeader_frame hg
    have hstt : ev₁.state = ev.state := by rw [hg']
    have hl : ev₁.validate = validate := by
      rw [hg', ← hm]
      rw [h3]
    have hp' : ∀ a ∈ ev₁.block.expiredParticipationAccounts,
        (ev.state.lookup a).status ≠ .notParticipating := by
      rcases hp with hv | hp
      · intro a ha
        rw [← hstt, (validateExpired_ok (hl.trans hv) he a ha).1]
        exact Status.noConfusion
      · exact hp
    obtain ⟨ho, hv⟩ := resetAccounts_view h2.toOver ev₁.block.expiredParticipationAccounts
    exact h1.conserved hexact ho ((hv ▸ sum_offline hp').trans hs)
  refine ⟨h1.conserved hexact h2.toOver hs, hr, fun ev' hn hp => ?_⟩
  obtain ⟨ev₁, totals, hg, he, -, ht, rfl⟩ := endOfBlock_ok hn
  have hc : ev.ctx = ev₀.ctx := by rw [h3]
  have h5 : ev.prevTotals = l.latestTotals.2 := by rw [h3, ← h1.prevTotals]
  rw [hc, h5] at ht
  exact ((hr ev₁ hg he hp).totals totals ht).1

end BlockEvaluator

/-- Two payments of the sender 1; it cannot afford the second. -/
def Sample.payments : List (List SignedTxnWithAD) :=
  [[signed 1 { type := .payment, receiver := 4, amount := 2500000 }],
   [signed 2 { type := .payment, receiver := 4, amount := 7000000 }]]

open Sample

open BlockEvaluator

theorem money_conserved_payments :
    ∃ ev₀ ev, block [] payments = .ok (ev₀, ev) ∧
      ev.totals.offline.money + ev.totals.notParticipating.money = 16000000 ∧
      recompute ev₀.ctx.proto ev₀.ctx.rewardsLevel
        (ledger.accounts.merge ev.state.top.accts) = some ev.totals := by
  have hr : (block [] payments).toOption.map
      (fun r => r.2.totals.offline.money + r.2.totals.notParticipating.money) = some 16000000 := by
    decide +kernel
  obtain ⟨⟨ev₀, ev⟩, hb, hm⟩ := exists_ok_of_toOption hr
  obtain ⟨hs, he⟩ := block_ok hb
  obtain ⟨-, -, hp, h1⟩ := startEvaluator_mode hs
  have hexact : recompute ev₀.ctx.proto ev₀.prevHeader.rewardsLevel
      ledger.accounts = some ledger.latestTotals.2 := by
    rw [← Option.some.inj h1, ← Except.ok.inj hp]
    decide +kernel
  obtain ⟨-, -, ht⟩ := money_conserved hs hexact [] payments
  exact ⟨ev₀, ev, hb, hm, ht ev he (.inl rfl)⟩

end Novarand.Ledger
