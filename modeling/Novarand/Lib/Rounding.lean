import Mathlib

/-!
# Rounding to a fixed number of bits

The positive numbers `m * 2 ^ e` with a mantissa of `b + 1` bits, and what it means that one of them
is another number rounded down or up: it is the greatest one below or the least one above. Rounding
is monotone for this reason alone, and the mantissas and exponents are compared like the values.
-/

namespace Novarand.Rounding

/-- The number `m * 2 ^ e`. -/
def value (m : ℕ) (e : ℤ) : ℚ := m * 2 ^ e

/-- The mantissa has exactly `b + 1` bits. -/
def Canonical (b m : ℕ) : Prop := 2 ^ b ≤ m ∧ m < 2 ^ (b + 1)

/-- The numbers with a canonical mantissa. -/
def Representable (b : ℕ) (x : ℚ) : Prop := ∃ m e, Canonical b m ∧ x = value m e

/-- `r` is `x` rounded down. -/
def Down (b : ℕ) (x r : ℚ) : Prop := IsGreatest {y | Representable b y ∧ y ≤ x} r

/-- `r` is `x` rounded up. -/
def Up (b : ℕ) (x r : ℚ) : Prop := IsLeast {y | Representable b y ∧ x ≤ y} r

variable {b m m' : ℕ} {e e' : ℤ} {x y r s : ℚ}

theorem two_zpow_pos (e : ℤ) : (0 : ℚ) < 2 ^ e := zpow_pos (by norm_num) e

theorem value_le_value (h : m ≤ m') : value m e ≤ value m' e :=
  mul_le_mul_of_nonneg_right (by exact_mod_cast h) (two_zpow_pos e).le

theorem value_lt_value (h : m < m') : value m e < value m' e :=
  mul_lt_mul_of_pos_right (by exact_mod_cast h) (two_zpow_pos e)

/-- Doubling the mantissa is adding one to the exponent. -/
theorem value_two_pow_mul (k : ℕ) : value (2 ^ k * m) e = value m (e + k) := by
  unfold value
  rw [zpow_add₀ two_ne_zero, zpow_natCast]
  push_cast
  ring

theorem value_mul : value m e * value m' e' = value (m * m') (e + e') := by
  unfold value
  rw [zpow_add₀ two_ne_zero]
  push_cast
  ring

/-- A canonical mantissa plus one is at most every canonical mantissa at a larger exponent. -/
theorem value_succ_le_of_exp_lt (hm : m < 2 ^ (b + 1)) (hm' : 2 ^ b ≤ m') (he : e < e') :
    value (m + 1) e ≤ value m' e' := by
  obtain ⟨k, rfl⟩ : ∃ k : ℕ, e' = e + (k + 1 : ℕ) := ⟨(e' - e - 1).toNat, by omega⟩
  rw [← value_two_pow_mul]
  refine value_le_value ?_
  calc m + 1
    _ ≤ 2 ^ (b + 1) := hm
    _ = 2 * 2 ^ b := by ring
    _ ≤ 2 ^ (k + 1) * m' := Nat.mul_le_mul (Nat.le_self_pow (by omega) 2) hm'

/-- Canonical numbers compare by their exponents, then by their mantissas. -/
theorem value_le_value_iff (hm : Canonical b m) (hm' : Canonical b m') :
    value m e ≤ value m' e' ↔ e < e' ∨ e = e' ∧ m ≤ m' := by
  rcases lt_trichotomy e e' with hl | rfl | hg
  · have he : value m e ≤ value m' e' :=
      (value_le_value (Nat.le_succ m)).trans (value_succ_le_of_exp_lt hm.2 hm'.1 hl)
    simp [hl, he]
  · simp only [lt_irrefl, true_and, false_or]
    refine ⟨fun h => ?_, value_le_value⟩
    by_contra hn
    exact absurd h (not_le_of_gt (value_lt_value (Nat.lt_of_not_le hn)))
  · have hl : value m' e' < value m e :=
      (value_lt_value (Nat.lt_succ_self m')).trans_le (value_succ_le_of_exp_lt hm'.2 hm.1 hg)
    simp [hg.not_gt, hg.ne', hl.not_ge]

theorem Representable.of_canonical (h : Canonical b m) : Representable b (value m e) := ⟨m, e, h, rfl⟩

/-- Cutting off the low bits rounds down. -/
theorem down_of_floor (hm : Canonical b m) (hl : value m e ≤ x) (ht : x < value (m + 1) e) :
    Down b x (value m e) := by
  refine ⟨⟨.of_canonical hm, hl⟩, ?_⟩
  rintro _ ⟨⟨m', e', hm', rfl⟩, _⟩
  rw [value_le_value_iff hm' hm]
  rcases lt_trichotomy e' e with he | rfl | he
  · exact .inl he
  · refine .inr ⟨rfl, ?_⟩
    by_contra hg
    have : value (m + 1) e' ≤ value m' e' := value_le_value (Nat.lt_of_not_le hg)
    linarith
  · have := value_succ_le_of_exp_lt hm.2 hm'.1 he
    linarith

/-- Adding one to what is left after cutting off the low bits rounds up. -/
theorem up_of_ceil (hm : Canonical b m) (hl : value m e < x) (he : x ≤ value (m + 1) e) :
    Up b x (value (m + 1) e) := by
  have hr : Representable b (value (m + 1) e) := by
    rcases Nat.lt_or_ge (m + 1) (2 ^ (b + 1)) with h | h
    · exact .of_canonical ⟨hm.1.trans (Nat.le_succ m), h⟩
    · have hq : m + 1 = 2 ^ 1 * 2 ^ b := by
        rw [← pow_add, add_comm 1 b]
        exact le_antisymm hm.2 h
      rw [hq, value_two_pow_mul]
      exact .of_canonical ⟨le_rfl, Nat.pow_lt_pow_right (by norm_num) (Nat.lt_succ_self b)⟩
  refine ⟨⟨hr, he⟩, ?_⟩
  rintro _ ⟨⟨m', e', hm', rfl⟩, hl'⟩
  have hg : ¬value m' e' ≤ value m e := not_le_of_gt (hl.trans_le hl')
  rw [value_le_value_iff hm' hm, not_or, not_and] at hg
  rcases eq_or_ne e' e with rfl | _
  · exact value_le_value (Nat.lt_of_not_le (hg.2 rfl))
  · exact value_succ_le_of_exp_lt hm.2 hm'.1 (by omega)

theorem up_self (h : Canonical b m) : Up b (value m e) (value m e) :=
  ⟨⟨.of_canonical h, le_rfl⟩, fun _ hy => hy.2⟩

theorem Down.mono (hr : Down b x r) (hs : Down b y s) (h : x ≤ y) : r ≤ s :=
  hs.2 ⟨hr.1.1, hr.1.2.trans h⟩

theorem Up.mono (hr : Up b x r) (hs : Up b y s) (h : x ≤ y) : r ≤ s :=
  hr.2 ⟨hs.1.1, h.trans hs.1.2⟩

end Novarand.Rounding
