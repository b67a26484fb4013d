import Novarand.Lib.Outcome
import Novarand.Lib.Rounding

/-!
# The number of reveals of a compact certificate

`numReveals` compares powers of the weights in floating-point numbers of its own: mantissas of 32
bits, the signed side rounded down and the proven side rounded up. The exponents are `int32` and
wrap.

As long as the exponents do not wrap, an operation gives the exact result rounded down or up to 32
bits (`Rounding`), so a comparison that succeeds also holds of the exact powers.
-/

namespace Novarand.CompactCert

open Rounding Nat

/-- Arithmetic of the type `int32`. -/
def int32 (z : ℤ) : ℤ := z.bmod (2 ^ 32)

structure BigFloat where
  mantissa : ℕ := 0
  exp : ℤ := 0
  deriving DecidableEq

namespace BigFloat

variable (a b : BigFloat)

/-- The loop of `canonicalize`; a mantissa that is not zero needs at most 31 turns. -/
def canonicalizeLoop : ℕ → BigFloat → BigFloat
  | 0, a => a
  | fuel + 1, a =>
    if a.mantissa &&& 2 ^ 31 = 0 then
      canonicalizeLoop fuel { mantissa := a.mantissa <<< 1 % 2 ^ 32, exp := int32 (a.exp - 1) }
    else a

def canonicalize : BigFloat :=
  if a.mantissa = 0 then a else canonicalizeLoop 32 a

def doRoundUp : BigFloat :=
  if a.mantissa = 2 ^ 32 - 1 then { mantissa := 2 ^ 31, exp := int32 (a.exp + 1) }
  else { a with mantissa := a.mantissa + 1 }

/-- `geRaw`, which is also `ge`. -/
def ge : Bool :=
  if b.exp < a.exp then true
  else if a.exp < b.exp then false
  else b.mantissa ≤ a.mantissa

/-- The loop of `setu64Dn`: the bits from 32 on are shifted out, at most 32 of them. -/
def shiftLoop : ℕ → ℕ → ℤ → Bool → ℕ × ℤ × Bool
  | 0, x, e, truncated => (x, e, truncated)
  | fuel + 1, x, e, truncated =>
    if 2 ^ 32 ≤ x then shiftLoop fuel (x >>> 1) (e + 1) (truncated || x &&& 1 != 0)
    else (x, e, truncated)

/-- `setu64Dn`, with whether bits were cut off; `none` is its error. -/
def setu64Dn (x : ℕ) : Option (BigFloat × Bool) :=
  if x = 0 then none
  else
    let (m, e, truncated) := shiftLoop 32 x 0 false
    some (canonicalize { mantissa := m, exp := e }, truncated)

/-- `setu64` of `bigFloatUp`. -/
def setu64Up (x : ℕ) : Option BigFloat :=
  (setu64Dn x).map fun (a, truncated) => if truncated then a.doRoundUp else a

/-- `setu64` of `bigFloatDn`. -/
def setu64Down (x : ℕ) : Option BigFloat := (setu64Dn x).map Prod.fst

def setpow2 (x : ℤ) : BigFloat := canonicalize { mantissa := 1, exp := x }

/-- `mulDn`, with whether bits were cut off. -/
def mulDn : BigFloat × Bool :=
  let hi := a.mantissa * b.mantissa / 2 ^ 32
  let lo := a.mantissa * b.mantissa % 2 ^ 32
  let exp := int32 (a.exp + b.exp + 32)
  if hi &&& 2 ^ 31 = 0 then
    ({ mantissa := (hi <<< 1 % 2 ^ 32) ||| (lo >>> 31), exp := int32 (exp - 1) },
      lo <<< 1 % 2 ^ 32 != 0)
  else ({ mantissa := hi, exp }, lo != 0)

/-- `mul` of `bigFloatUp`. -/
def mulUp : BigFloat :=
  let (c, truncated) := a.mulDn b
  if truncated then c.doRoundUp else c

/-- `mul` of `bigFloatDn`. -/
def mulDown : BigFloat := (a.mulDn b).1

end BigFloat

def maxReveals : ℕ := 1024

inductive RevealsError
  | zeroWeight
  | tooManyReveals
  deriving DecidableEq

/-- The loop of `numReveals` in turn `n`, with `left` turns to the bound. -/
def revealsLoop (sw pw : BigFloat) : ℕ → ℕ → BigFloat → BigFloat → Except RevealsError ℕ
  | left, n, lhs, rhs =>
    if lhs.ge rhs then .ok n
    else match left with
      | 0 => .error .tooManyReveals
      | left + 1 => revealsLoop sw pw left (n + 1) (lhs.mulDown sw) (rhs.mulUp pw)

def numReveals (signedWeight provenWeight secKQ bound : ℕ) : Except RevealsError ℕ := do
  let sw ← orThrow .zeroWeight (BigFloat.setu64Down signedWeight)
  let pw ← orThrow .zeroWeight (BigFloat.setu64Up provenWeight)
  let lhs ← orThrow .zeroWeight (BigFloat.setu64Down 1)
  revealsLoop sw pw bound 0 lhs (BigFloat.setpow2 (int32 secKQ))

/-! ## Machine numbers and the numbers they stand for -/

theorem int32_eq {z : ℤ} (h : -2 ^ 31 ≤ z) (h' : z < 2 ^ 31) : int32 z = z := by
  rw [int32, Int.bmod_eq_emod]
  split <;> omega

theorem int32_sub (z y : ℤ) : int32 (int32 z - y) = int32 (z - y) := Int.bmod_sub_bmod

theorem int32_add (z y : ℤ) : int32 (int32 z + y) = int32 (z + y) := Int.bmod_add_bmod

theorem and_two_pow_eq_zero {m : ℕ} (hm : m < 2 ^ 32) : m &&& 2 ^ 31 = 0 ↔ m < 2 ^ 31 := by
  rw [and_two_pow, testBit_eq_decide_div_mod_eq]
  by_cases h : m / 2 ^ 31 % 2 = 1
  · simp only [h, decide_true, Bool.toNat_true, one_mul]
    omega
  · simp only [h, decide_false, Bool.toNat_false, zero_mul, true_iff]
    omega

variable {bound k p secKQ w : ℕ} (z : ℤ)

namespace BigFloat

variable {a b : BigFloat} {x y : ℚ} {m : ℕ} {e : ℤ}

/-- The float stands for the number, apart from the wrapping of its exponent. -/
def Stands (a : BigFloat) (x : ℚ) : Prop :=
  ∃ m e, Canonical 31 m ∧ a = { mantissa := m, exp := int32 e } ∧ x = value m e

theorem canonicalizeLoop_eq {fuel : ℕ} (hm : m < 2 ^ 32) (hf : 2 ^ 31 ≤ 2 ^ fuel * m) :
    ∃ k : ℕ, canonicalizeLoop fuel { mantissa := m, exp := int32 e } =
        { mantissa := 2 ^ k * m, exp := int32 (e - k) } ∧ Canonical 31 (2 ^ k * m) := by
  induction fuel generalizing m e with
  | zero => exact ⟨0, by simp [canonicalizeLoop], by simpa using hf, by simpa using hm⟩
  | succ fuel ih =>
    unfold canonicalizeLoop
    split
    next hl =>
      rw [and_two_pow_eq_zero hm] at hl
      have hd : m <<< 1 % 2 ^ 32 = 2 * m := by omega
      have hr : 2 ^ (fuel + 1) * m = 2 ^ fuel * (2 * m) := by ring
      obtain ⟨k, hk, hc⟩ := ih (m := 2 * m) (e := e - 1) (by omega) (hr ▸ hf)
      refine ⟨k + 1, ?_, ?_⟩
      · simp only [hd, int32_sub, hk]
        congr 1
        · ring
        · push_cast
          ring_nf
      · rw [pow_succ]
        simpa only [mul_assoc] using hc
    next hh =>
      rw [and_two_pow_eq_zero hm] at hh
      exact ⟨0, by simp, by simpa using Nat.le_of_not_lt hh, by simpa using hm⟩

/-- `canonicalize` does not change the number. -/
theorem canonicalize_stands (hm : m < 2 ^ 32) (hps : 0 < m) :
    Stands (canonicalize { mantissa := m, exp := int32 e }) (value m e) := by
  have hf : 2 ^ 31 ≤ 2 ^ 32 * m := by omega
  obtain ⟨k, hk, hc⟩ := canonicalizeLoop_eq (e := e) hm hf
  refine ⟨2 ^ k * m, e - k, hc, ?_, ?_⟩
  · rw [canonicalize, if_neg (ne_of_gt hps), hk]
  · rw [value_two_pow_mul, sub_add_cancel]

/-- The number `x` with its low bits cut off: what is left stands for `value m e`. -/
structure Cuts (x : ℚ) (a : BigFloat) (truncated : Bool) (m : ℕ) (e : ℤ) : Prop where
  canonical : Canonical 31 m
  eq : a = { mantissa := m, exp := int32 e }
  le : value m e ≤ x
  lt : x < value (m + 1) e
  exact : truncated = false → value m e = x
  cut : truncated = true → value m e < x

theorem Cuts.down {truncated : Bool} (h : Cuts x a truncated m e) : ∃ y, Down 31 x y ∧ Stands a y :=
  ⟨value m e, down_of_floor h.canonical h.le h.lt, m, e, h.canonical, h.eq, rfl⟩

/-- The mantissa plus one, also where it wraps. -/
theorem doRoundUp_stands (hm : Canonical 31 m) :
    Stands (doRoundUp { mantissa := m, exp := int32 e }) (value (m + 1) e) := by
  unfold doRoundUp
  split
  next hl =>
    have hm' : m = 2 ^ 32 - 1 := hl
    refine ⟨2 ^ 31, e + 1, ⟨le_rfl, by norm_num⟩, by rw [int32_add], ?_⟩
    rw [show m + 1 = 2 ^ 1 * 2 ^ 31 by omega, value_two_pow_mul]
    rfl
  next hr =>
    have ht : m ≠ 2 ^ 32 - 1 := hr
    have h1 := hm.2
    exact ⟨m + 1, e, ⟨hm.1.trans (le_succ m), by omega⟩, rfl, rfl⟩

theorem Cuts.up {truncated : Bool} (h : Cuts x a truncated m e) :
    ∃ y, Up 31 x y ∧ Stands (if truncated then a.doRoundUp else a) y := by
  cases ht : truncated with
  | false =>
    rw [← h.exact ht]
    exact ⟨value m e, up_self h.canonical, m, e, h.canonical, h.eq, rfl⟩
  | true =>
    refine ⟨value (m + 1) e, up_of_ceil h.canonical (h.cut ht) h.lt.le, ?_⟩
    rw [h.eq]
    exact doRoundUp_stands h.canonical

/-- Dividing a mantissa by a power of two cuts off its low bits. -/
theorem cuts_div (hm : Canonical 31 (p / 2 ^ k)) :
    Cuts (value p e) { mantissa := p / 2 ^ k, exp := int32 (e + k) } (p % 2 ^ k != 0) (p / 2 ^ k)
      (e + k) := by
  have hd : 2 ^ k * (p / 2 ^ k) + p % 2 ^ k = p := div_add_mod p (2 ^ k)
  refine ⟨hm, rfl, ?_, ?_, fun h => ?_, fun h => ?_⟩
  · rw [← value_two_pow_mul]
    exact value_le_value (by omega)
  · rw [← value_two_pow_mul]
    refine value_lt_value ?_
    rw [mul_succ]
    omega
  · rw [← value_two_pow_mul]
    congr 1
    have : p % 2 ^ k = 0 := by simpa using h
    omega
  · rw [← value_two_pow_mul]
    refine value_lt_value ?_
    have : p % 2 ^ k ≠ 0 := by simpa using h
    omega

/-! ## The operations -/

/-- The product of two mantissas has its top bit at 63 or 62. -/
theorem mulDn_eq (ha : Canonical 31 a.mantissa) (hb : Canonical 31 b.mantissa) :
    ∃ k : ℕ, Canonical 31 (a.mantissa * b.mantissa / 2 ^ k) ∧
      a.mulDn b = ({ mantissa := a.mantissa * b.mantissa / 2 ^ k, exp := int32 (a.exp + b.exp + k) },
        a.mantissa * b.mantissa % 2 ^ k != 0) := by
  obtain ⟨ha, ha'⟩ := ha
  obtain ⟨hb, hb'⟩ := hb
  have hl : 2 ^ 62 ≤ a.mantissa * b.mantissa := by
    calc 2 ^ 62 = 2 ^ 31 * 2 ^ 31 := by norm_num
      _ ≤ a.mantissa * b.mantissa := Nat.mul_le_mul ha hb
  have hh : a.mantissa * b.mantissa < 2 ^ 64 := by
    calc a.mantissa * b.mantissa < 2 ^ 32 * 2 ^ 32 := mul_lt_mul'' ha' hb'
      _ = 2 ^ 64 := by norm_num
  unfold mulDn
  generalize a.mantissa * b.mantissa = p at hl hh ⊢
  have hi : p / 2 ^ 32 < 2 ^ 32 := by omega
  simp only [and_two_pow_eq_zero hi]
  split
  next hs =>
    have h1 : p % 2 ^ 32 / 2 ^ 31 < 2 ^ 1 := by omega
    have hm : ((p / 2 ^ 32) <<< 1 % 2 ^ 32) ||| ((p % 2 ^ 32) >>> 31) = p / 2 ^ 31 := by
      rw [shiftLeft_eq, shiftRight_eq_div_pow,
        show p / 2 ^ 32 * 2 ^ 1 % 2 ^ 32 = 2 ^ 1 * (p / 2 ^ 32) by omega,
        ← two_pow_add_eq_or_of_lt h1]
      omega
    have h2 : (p % 2 ^ 32) <<< 1 % 2 ^ 32 = 2 * (p % 2 ^ 31) := by omega
    refine ⟨31, ⟨by omega, by omega⟩, ?_⟩
    rw [hm, h2, int32_sub]
    congr 1
    · congr 2
      ring
    · rw [Bool.eq_iff_iff]
      simp
  next hs => exact ⟨32, ⟨by omega, by omega⟩, rfl⟩

section

variable (ha : Stands a x) (hb : Stands b y)
include ha hb

theorem mulDn_cuts : ∃ m e, Cuts (x * y) (a.mulDn b).1 (a.mulDn b).2 m e := by
  obtain ⟨m, e, hm, rfl, rfl⟩ := ha
  obtain ⟨m', e', hm', rfl, rfl⟩ := hb
  obtain ⟨k, hk, hu⟩ := mulDn_eq (a := { mantissa := m, exp := int32 e })
    (b := { mantissa := m', exp := int32 e' }) hm hm'
  have he : int32 (int32 e + int32 e' + k) = int32 (e + e' + k) := by
    rw [add_assoc, int32_add, add_left_comm, int32_add, add_left_comm, add_assoc]
  simp only [hu, he, value_mul]
  exact ⟨_, _, cuts_div hk⟩

theorem mulDown_stands : ∃ z, Down 31 (x * y) z ∧ Stands (a.mulDown b) z := by
  obtain ⟨m, e, hc⟩ := mulDn_cuts ha hb
  exact hc.down

theorem mulUp_stands : ∃ z, Up 31 (x * y) z ∧ Stands (a.mulUp b) z := by
  obtain ⟨m, e, hc⟩ := mulDn_cuts ha hb
  exact hc.up

end

theorem setpow2_stands : Stands (setpow2 (int32 z)) (2 ^ z) := by
  have h := canonicalize_stands (e := z) (show 1 < 2 ^ 32 by norm_num) one_pos
  rwa [value, cast_one, one_mul] at h

/-- The loop of `setu64Dn` shifts out the bits from 32 on. -/
theorem shiftLoop_eq {fuel n : ℕ} {truncated : Bool} (hn : n < 2 ^ (32 + fuel)) :
    ∃ k : ℕ, shiftLoop fuel n e truncated = (n / 2 ^ k, e + k, truncated || n % 2 ^ k != 0) ∧
      k ≤ fuel ∧ n / 2 ^ k < 2 ^ 32 ∧ (k ≠ 0 → 2 ^ 31 ≤ n / 2 ^ k) := by
  induction fuel generalizing n e truncated with
  | zero => exact ⟨0, by simp [shiftLoop, mod_one], le_rfl, by simpa using hn, by simp⟩
  | succ fuel ih =>
    unfold shiftLoop
    split
    next hi =>
      have hh : n / 2 < 2 ^ (32 + fuel) := by
        rw [← add_assoc] at hn
        omega
      obtain ⟨k, hk, hf, hl, he⟩ := @ih (e + 1) (n / 2) (truncated || n &&& 1 != 0) hh
      rw [Nat.div_div_eq_div_mul, ← pow_succ'] at hl he hk
      rw [shiftRight_eq_div_pow]
      refine ⟨k + 1, ?_, succ_le_succ hf, hl, fun _ => ?_⟩
      · rw [hk, and_one_is_mod, pow_succ', mod_mul]
        congr 2
        · push_cast
          ring
        · rw [Bool.or_assoc]
          congr 1
          rw [Bool.eq_iff_iff]
          simp only [Bool.or_eq_true, bne_iff_ne]
          omega
      · by_cases hk0 : k = 0
        · subst hk0
          omega
        · exact he hk0
    next hs => exact ⟨0, by simp [mod_one], zero_le _, by simpa using hs, by simp⟩

theorem canonicalize_eq (hm : Canonical 31 m) :
    canonicalize { mantissa := m, exp := e } = { mantissa := m, exp := e } := by
  have hps : m ≠ 0 := by
    have := hm.1
    omega
  have hh : ¬m &&& 2 ^ 31 = 0 := by
    rw [and_two_pow_eq_zero hm.2]
    exact Nat.not_lt_of_le hm.1
  rw [canonicalize, if_neg hps, canonicalizeLoop, if_neg hh]

section

variable {n : ℕ} (hps : 0 < n) (hn : n < 2 ^ 64)
include hps hn

/-- The weight that a float is set to. -/
theorem setu64Dn_cuts :
    ∃ a truncated m e, setu64Dn n = some (a, truncated) ∧ Cuts n a truncated m e := by
  obtain ⟨k, hk, _, hl, hle⟩ := @shiftLoop_eq 0 32 n false hn
  have hs : setu64Dn n =
      some (canonicalize { mantissa := n / 2 ^ k, exp := int32 (0 + k) }, n % 2 ^ k != 0) := by
    rw [setu64Dn, if_neg (ne_of_gt hps), hk, int32_eq (by omega) (by omega)]
    simp
  have hv : (n : ℚ) = value n 0 := by rw [value, zpow_zero, mul_one]
  by_cases hk0 : k = 0
  · subst hk0
    rw [pow_zero, Nat.div_one] at hl
    obtain ⟨m, e, hm, ha, he⟩ := canonicalize_stands (e := 0) hl hps
    refine ⟨_, _, m, e, hs, hm, ?_, ?_, ?_, fun _ => ?_, ?_⟩
    · rw [← ha]
      simp
    · rw [hv, he]
    · rw [hv, he]
      exact value_lt_value (lt_succ_self m)
    · rw [hv, he]
    · simp [mod_one]
  · have hm : Canonical 31 (n / 2 ^ k) := ⟨hle hk0, hl⟩
    rw [canonicalize_eq hm] at hs
    rw [hv]
    exact ⟨_, _, _, _, hs, cuts_div hm⟩

theorem setu64Down_stands : ∃ a x, setu64Down n = some a ∧ Down 31 n x ∧ Stands a x := by
  obtain ⟨a, _, m, e, hs, hc⟩ := setu64Dn_cuts hps hn
  obtain ⟨x, hd, ht⟩ := hc.down
  exact ⟨a, x, by rw [setu64Down, hs]; rfl, hd, ht⟩

theorem setu64Up_stands : ∃ a x, setu64Up n = some a ∧ Up 31 n x ∧ Stands a x := by
  obtain ⟨a, _, m, e, hs, hc⟩ := setu64Dn_cuts hps hn
  obtain ⟨x, hu, ht⟩ := hc.up
  exact ⟨_, x, by rw [setu64Up, hs]; rfl, hu, ht⟩

end

/-- Floats whose exponents did not wrap compare like the numbers they stand for. -/
theorem ge_iff {k : ℤ} (ha : Stands a x) (hb : Stands b y) (hk : k ≤ 2 ^ 31 + 30) (hx : 1 ≤ x)
    (h1 : x ≤ 2 ^ k) (hy : 1 ≤ y) (h2 : y ≤ 2 ^ k) : a.ge b = true ↔ y ≤ x := by
  have hr : ∀ m e, Canonical 31 m → 1 ≤ value m e → value m e ≤ 2 ^ k → int32 e = e := by
    intro m e hm _ ht
    have hl : -32 < e := by
      by_contra he
      have hm' : (m : ℚ) < 2 ^ (32 : ℤ) := by exact_mod_cast hm.2
      have : value m e < 1 := by
        calc value m e
          _ < 2 ^ (32 : ℤ) * 2 ^ e := mul_lt_mul_of_pos_right hm' (two_zpow_pos e)
          _ = 2 ^ (32 + e) := (zpow_add₀ two_ne_zero _ _).symm
          _ ≤ 1 := zpow_le_one_of_nonpos₀ one_le_two (by omega)
      linarith
    have hh : 31 + e ≤ k := by
      have hm' : (2 : ℚ) ^ (31 : ℤ) ≤ m := by exact_mod_cast hm.1
      have : (2 : ℚ) ^ (31 + e) ≤ 2 ^ k := by
        calc (2 : ℚ) ^ (31 + e)
          _ = 2 ^ (31 : ℤ) * 2 ^ e := zpow_add₀ two_ne_zero _ _
          _ ≤ value m e := mul_le_mul_of_nonneg_right hm' (two_zpow_pos e).le
          _ ≤ 2 ^ k := ht
      exact (zpow_le_zpow_iff_right₀ one_lt_two).mp this
    exact int32_eq (by omega) (by omega)
  obtain ⟨m, e, hm, rfl, rfl⟩ := ha
  obtain ⟨m', e', hm', rfl, rfl⟩ := hb
  rw [value_le_value_iff hm' hm, ge, hr m e hm hx h1, hr m' e' hm' hy h2]
  simp only
  split
  next h => simp [h]
  next h =>
    split
    next h' => simp [h, h'.ne']
    next h' =>
      obtain rfl : e = e' := by omega
      simp

end BigFloat

/-! ## The powers -/

open BigFloat

/-- The signed side after `n` turns. -/
def lhsAt (sw lhs : BigFloat) (n : ℕ) : BigFloat := (fun a => a.mulDown sw)^[n] lhs

/-- The proven side after `n` turns. -/
def rhsAt (pw rhs : BigFloat) (n : ℕ) : BigFloat := (fun a => a.mulUp pw)^[n] rhs

section

variable {sw sw' pw pw' lhs rhs : BigFloat} {left n r : ℕ} {x x' y y' z : ℚ}

theorem lhsAt_succ (n : ℕ) : lhsAt sw lhs (n + 1) = (lhsAt sw lhs n).mulDown sw :=
  Function.iterate_succ_apply' _ n lhs

theorem rhsAt_zero : rhsAt pw rhs 0 = rhs := rfl

theorem rhsAt_succ (n : ℕ) : rhsAt pw rhs (n + 1) = (rhsAt pw rhs n).mulUp pw :=
  Function.iterate_succ_apply' _ n rhs

/-- The loop ends in a turn in which the comparison succeeds. -/
theorem ge_of_revealsLoop (h : revealsLoop sw pw left n lhs rhs = .ok r) :
    ∃ k ≤ left, r = n + k ∧ (lhsAt sw lhs k).ge (rhsAt pw rhs k) = true := by
  induction left generalizing n lhs rhs with
  | zero =>
    unfold revealsLoop at h
    split at h
    next hge => exact ⟨0, le_rfl, (Except.ok.inj h).symm, hge⟩
    next => cases h
  | succ left ih =>
    unfold revealsLoop at h
    split at h
    next hge => exact ⟨0, zero_le _, (Except.ok.inj h).symm, hge⟩
    next =>
      obtain ⟨k, hk, rfl, hge⟩ := ih h
      exact ⟨k + 1, succ_le_succ hk, by omega, hge⟩

variable {c k w w' : ℕ}

/-- The loop ends by a turn in which the comparison succeeds. -/
theorem revealsLoop_of_ge (hk : k ≤ left) (hge : (lhsAt sw lhs k).ge (rhsAt pw rhs k) = true) :
    ∃ j ≤ k, revealsLoop sw pw left n lhs rhs = .ok (n + j) := by
  induction k generalizing left n lhs rhs with
  | zero =>
    refine ⟨0, le_rfl, ?_⟩
    unfold revealsLoop
    exact if_pos hge
  | succ k ih =>
    obtain ⟨left, rfl⟩ := exists_eq_add_one_of_ne_zero (ne_zero_of_lt hk)
    unfold revealsLoop
    split
    next => exact ⟨0, zero_le _, rfl⟩
    next =>
      obtain ⟨j, hj, ho⟩ := ih (le_of_succ_le_succ hk) hge (n := n + 1)
      exact ⟨j + 1, succ_le_succ hj, ho.trans (by rw [add_assoc, add_comm 1 j])⟩

theorem representable_two_zpow (z : ℤ) : Representable 31 (2 ^ z) := by
  refine ⟨2 ^ 31, z - 31, ⟨le_rfl, by norm_num⟩, ?_⟩
  rw [value, cast_pow, cast_ofNat, ← zpow_natCast, ← zpow_add₀ two_ne_zero]
  congr 1
  omega

theorem representable_one : Representable 31 1 := by
  simpa using representable_two_zpow 0

/-- The signed side for two weights: below the exact powers, and in their order. -/
theorem lhs_run (hw : 0 < w) (he : w ≤ w') (hx : Down 31 w x) (hs : Stands sw x)
    (hx' : Down 31 w' x') (hs' : Stands sw' x') (hh : Stands lhs 1) (n : ℕ) :
    ∃ l l', Stands (lhsAt sw lhs n) l ∧ Stands (lhsAt sw' lhs n) l' ∧ 1 ≤ l ∧ l ≤ l' ∧
      l ≤ (w : ℚ) ^ n ∧ l' ≤ (w' : ℚ) ^ n := by
  have ho : 1 ≤ x := hx.2 ⟨representable_one, by exact_mod_cast hw⟩
  have h1' : x ≤ x' := hx.mono hx' (by exact_mod_cast he)
  induction n with
  | zero => exact ⟨1, 1, hh, hh, le_rfl, le_rfl, by simp, by simp⟩
  | succ n ih =>
    obtain ⟨l, l', hl, hl', hps, h2', hp, hp'⟩ := ih
    obtain ⟨m, hd, _⟩ := mulDown_stands hl hs
    obtain ⟨m', hd', _⟩ := mulDown_stands hl' hs'
    refine ⟨m, m', ?_, ?_, ?_, ?_, ?_, ?_⟩
    · rwa [lhsAt_succ]
    · rwa [lhsAt_succ]
    · exact hd.2 ⟨representable_one, one_le_mul_of_one_le_of_one_le hps ho⟩
    · exact hd.mono hd' (mul_le_mul h2' h1' (by linarith) (by linarith))
    · rw [pow_succ]
      exact hd.1.2.trans (mul_le_mul hp hx.1.2 (by linarith) (by positivity))
    · rw [pow_succ]
      exact hd'.1.2.trans (mul_le_mul hp' hx'.1.2 (by linarith) (by positivity))

/-- The proven side for two weights: above the exact products, in their order, and bounded. -/
theorem rhs_run (hw' : 0 < w') (hl : w' ≤ w) (hc : w ≤ 2 ^ c) (hy : Up 31 w y) (h : Stands pw y)
    (hy' : Up 31 w' y') (h2' : Stands pw' y') (hh : Stands rhs (2 ^ (k : ℤ))) (n : ℕ) :
    ∃ r r', Stands (rhsAt pw rhs n) r ∧ Stands (rhsAt pw' rhs n) r' ∧ r' ≤ r ∧
      2 ^ k * (w : ℚ) ^ n ≤ r ∧ 2 ^ k * (w' : ℚ) ^ n ≤ r' ∧ r ≤ 2 ^ ((k + c * n : ℕ) : ℤ) := by
  have h2 : y ≤ 2 ^ (c : ℤ) := hy.2 ⟨representable_two_zpow c, by exact_mod_cast hc⟩
  have h3' : y' ≤ y := hy'.mono hy (by exact_mod_cast hl)
  have hw : (w : ℚ) ≤ y := hy.1.2
  have h4' : (w' : ℚ) ≤ y' := hy'.1.2
  induction n with
  | zero => exact ⟨2 ^ (k : ℤ), 2 ^ (k : ℤ), hh, hh, le_rfl, by simp, by simp, by simp⟩
  | succ n ih =>
    obtain ⟨r, r', hr, hr', h1', hp, hp', ht⟩ := ih
    obtain ⟨m, hu, _⟩ := mulUp_stands hr h
    obtain ⟨m', hu', _⟩ := mulUp_stands hr' h2'
    have h1 : 0 ≤ r' := le_trans (by positivity) hp'
    have hs : 0 ≤ r := h1.trans h1'
    refine ⟨m, m', ?_, ?_, ?_, ?_, ?_, ?_⟩
    · rwa [rhsAt_succ]
    · rwa [rhsAt_succ]
    · exact hu'.mono hu (mul_le_mul h1' h3' (by linarith) hs)
    · rw [pow_succ, ← mul_assoc]
      exact (mul_le_mul hp hw (by positivity) hs).trans hu.1.2
    · rw [pow_succ, ← mul_assoc]
      exact (mul_le_mul hp' h4' (by positivity) h1).trans hu'.1.2
    · refine hu.2 ⟨representable_two_zpow _, ?_⟩
      calc r * y
        _ ≤ 2 ^ ((k + c * n : ℕ) : ℤ) * 2 ^ (c : ℤ) := mul_le_mul ht h2 (by linarith) (by positivity)
        _ = 2 ^ ((k + c * (n + 1) : ℕ) : ℤ) := by
          rw [← zpow_add₀ two_ne_zero]
          congr 1
          push_cast
          ring

end

/-! ## The number of reveals -/

/-- The float 1. -/
def floatOne : BigFloat := { mantissa := 2 ^ 31, exp := -31 }

theorem floatOne_stands : Stands floatOne 1 :=
  ⟨2 ^ 31, -31, ⟨le_rfl, by norm_num⟩, rfl, by norm_num [value]⟩

variable {lhs pw rhs sw : BigFloat}

theorem numReveals_eq (hs : setu64Down w = some sw) (hp : setu64Up p = some pw) :
    numReveals w p secKQ bound =
      revealsLoop sw pw bound 0 floatOne (setpow2 (int32 (secKQ % 2 ^ 32 : ℕ))) := by
  have ho : setu64Down 1 = some floatOne := by decide +kernel
  have hw : int32 (secKQ % 2 ^ 32 : ℕ) = int32 secKQ := Int.emod_bmod secKQ (2 ^ 32)
  rw [numReveals, hs, hp, ho, hw]
  rfl

variable {e : RevealsError}

section

variable {w w' p p' k bound n left : ℕ}

theorem setu64Down_eq_none_iff : setu64Down w = none ↔ w = 0 := by
  unfold setu64Down setu64Dn
  split <;> simp_all

theorem setu64Up_eq_none_iff : setu64Up w = none ↔ w = 0 := by
  unfold setu64Up setu64Dn
  split <;> simp_all

theorem revealsLoop_error (h : revealsLoop sw pw left n lhs rhs = .error e) :
    e = .tooManyReveals := by
  induction left generalizing n lhs rhs with
  | zero =>
    rw [revealsLoop] at h
    split at h
    · cases h
    · exact (Except.error.inj h).symm
  | succ left ih =>
    rw [revealsLoop] at h
    split at h
    · cases h
    · exact ih h

/-- `numReveals` fails for weights of zero, and at the bound. -/
theorem numReveals_error (hw : 0 < w) (h : numReveals w p secKQ bound = .error e) :
    e = .tooManyReveals ∧ p ≠ 0 ∨ e = .zeroWeight ∧ p = 0 := by
  simp only [numReveals, bind_error_iff, orThrow_error_iff, orThrow_ok,
    setu64Down_eq_none_iff, setu64Up_eq_none_iff] at h
  obtain ⟨hz, -⟩ | ⟨_, -, ⟨hz, rfl⟩ | ⟨_, hp, ⟨h1, -⟩ | ⟨_, -, h⟩⟩⟩ := h
  · omega
  · exact .inr ⟨rfl, hz⟩
  · cases h1
  · refine .inl ⟨revealsLoop_error h, fun hz => ?_⟩
    rw [setu64Up_eq_none_iff.mpr hz] at hp
    cases hp

/-- While no exponent wraps: the exact inequality, for the exponent `secKQ` wraps to, and fewer
reveals for more signed and less proven weight. -/
theorem numReveals_sound (hk : secKQ % 2 ^ 32 ≤ 2 ^ 31 + 30 - 64 * maxReveals)
    (h3 : bound ≤ maxReveals) (h1' : w ≤ w') (hw' : w' < 2 ^ 64) (hp' : 0 < p') (h2' : p' ≤ p)
    (hp : p < 2 ^ 64) (h : numReveals w p secKQ bound = .ok n) :
    2 ^ (secKQ % 2 ^ 32) * p ^ n ≤ w ^ n ∧
      ∃ n' ≤ n, numReveals w' p' secKQ bound = .ok n' := by
  have hw : 0 < w := by
    refine pos_of_ne_zero fun hz => ?_
    rw [numReveals, setu64Down_eq_none_iff.mpr hz] at h
    cases h
  obtain ⟨_, x, hs, hx, h4⟩ := setu64Down_stands hw (h1'.trans_lt hw')
  obtain ⟨_, _, hs', hx', h5'⟩ := setu64Down_stands (hw.trans_le h1') hw'
  obtain ⟨_, y, h5, hy, h6⟩ := setu64Up_stands (hp'.trans_le h2') hp
  obtain ⟨_, _, ht', hy', h6'⟩ := setu64Up_stands hp' (h2'.trans_lt hp)
  rw [numReveals_eq hs h5] at h
  rw [numReveals_eq hs' ht']
  generalize secKQ % 2 ^ 32 = k at hk h ⊢
  obtain ⟨n, hn, rfl, hge⟩ := ge_of_revealsLoop h
  rw [zero_add]
  obtain ⟨l, l', hl, hl', hps, h3', ho, ho'⟩ :=
    lhs_run hw h1' hx h4 hx' h5' floatOne_stands n
  obtain ⟨r, r', hr, hr', h4', h7, h7', ht⟩ :=
    rhs_run hp' h2' hp.le hy h6 hy' h6' (setpow2_stands k) n
  -- the exponents on both sides stay in range
  have hn' : n ≤ maxReveals := hn.trans h3
  have h1 : ((k + 64 * maxReveals : ℕ) : ℤ) ≤ 2 ^ 31 + 30 := by
    unfold maxReveals at hk ⊢
    omega
  have hg : r ≤ 2 ^ ((k + 64 * maxReveals : ℕ) : ℤ) :=
    ht.trans (zpow_le_zpow_right₀ one_le_two (by gcongr))
  have hf : l' ≤ 2 ^ ((k + 64 * maxReveals : ℕ) : ℤ) := by
    calc l'
      _ ≤ (w' : ℚ) ^ n := ho'
      _ ≤ ((2 ^ 64 : ℕ) : ℚ) ^ n := pow_le_pow_left₀ (cast_nonneg _) (cast_le.mpr hw'.le) n
      _ = 2 ^ ((64 * n : ℕ) : ℤ) := by rw [zpow_natCast, pow_mul, cast_pow, cast_ofNat]
      _ ≤ _ := zpow_le_zpow_right₀ one_le_two (cast_le.mpr (by omega))
  have h2 : 1 ≤ r' := by
    refine le_trans ?_ h7'
    exact_mod_cast Nat.mul_pos (Nat.two_pow_pos k) (Nat.pow_pos hp')
  have he : r ≤ l := (ge_iff hl hr h1 hps (h3'.trans hf) (h2.trans h4') hg).mp hge
  constructor
  · have := h7.trans (he.trans ho)
    exact_mod_cast this
  · have hge' := (ge_iff hl' hr' h1 (hps.trans h3') hf h2 (h4'.trans hg)).mpr
      (h4'.trans (he.trans h3'))
    obtain ⟨j, _, hok⟩ := revealsLoop_of_ge (n := 0) hn hge'
    exact ⟨0 + j, by omega, hok⟩

/-- No power of a weight reaches a security parameter beyond all the reveals. -/
theorem pow_lt_of_bound (hw : w < 2 ^ 64) (hn : n ≤ maxReveals) (hk : 64 * maxReveals ≤ k)
    (hp : 0 < p) : w ^ n < 2 ^ k * p ^ n := by
  have ho : w ^ n < 2 ^ k := by
    rcases Nat.eq_zero_or_pos n with rfl | hps
    · refine Nat.one_lt_two_pow fun hz => ?_
      rw [maxReveals] at hk
      omega
    · calc w ^ n
        _ < (2 ^ 64) ^ n := Nat.pow_lt_pow_left hw (Nat.ne_of_gt hps)
        _ = 2 ^ (64 * n) := (pow_mul 2 64 n).symm
        _ ≤ 2 ^ k := Nat.pow_le_pow_right Nat.two_pos (by omega)
  exact ho.trans_le (Nat.le_mul_of_pos_right _ (Nat.pow_pos hp))

/-! ### Security parameters that wrap -/

/-- The largest weight with 32 significant bits: `n` turns lose at most `n` units of the last place.
-/
theorem lhs_largest (hs : Stands sw (value (2 ^ 32 - 1) 32)) (hn : n ≤ maxReveals) :
    ∃ l, Stands (lhsAt sw floatOne n) l ∧ value (2 ^ 32 - n) (64 * n - 32) ≤ l ∧
      l ≤ 2 ^ ((64 * n : ℕ) : ℤ) := by
  induction n with
  | zero => exact ⟨1, floatOne_stands, by norm_num [value], by simp⟩
  | succ n ih =>
    obtain ⟨l, hl, ho, hh⟩ := ih (le_of_succ_le hn)
    obtain ⟨m, hd, _⟩ := mulDown_stands hl hs
    refine ⟨m, by rwa [lhsAt_succ], hd.2 ⟨.of_canonical ?_, ?_⟩, hd.1.2.trans ?_⟩
    · unfold maxReveals at hn
      exact ⟨by omega, by omega⟩
    · have ht : 2 ^ 32 * (2 ^ 32 - (n + 1)) ≤ (2 ^ 32 - n) * (2 ^ 32 - 1) := by omega
      calc value (2 ^ 32 - (n + 1)) (64 * (n + 1 : ℕ) - 32)
        _ = value (2 ^ 32 * (2 ^ 32 - (n + 1))) (64 * n) := by
          rw [value_two_pow_mul]
          congr 1
          push_cast
          ring
        _ ≤ value ((2 ^ 32 - n) * (2 ^ 32 - 1)) (64 * n) := value_le_value ht
        _ = value (2 ^ 32 - n) (64 * n - 32) * value (2 ^ 32 - 1) 32 := by
          rw [value_mul, sub_add_cancel]
        _ ≤ l * value (2 ^ 32 - 1) 32 :=
          mul_le_mul_of_nonneg_right ho (mul_nonneg (cast_nonneg _) (two_zpow_pos _).le)
    · have hw : value (2 ^ 32 - 1) 32 ≤ 2 ^ (64 : ℤ) := by norm_num [value]
      calc l * value (2 ^ 32 - 1) 32
        _ ≤ 2 ^ ((64 * n : ℕ) : ℤ) * 2 ^ (64 : ℤ) :=
          mul_le_mul hh hw (mul_nonneg (cast_nonneg _) (two_zpow_pos _).le) (two_zpow_pos _).le
        _ = 2 ^ ((64 * (n + 1) : ℕ) : ℤ) := by
          rw [← zpow_add₀ two_ne_zero]
          congr 1

/-- A parameter that wraps to a small one: too few reveals. -/
theorem numReveals_small (h1 : secKQ % 2 ^ 32 < 64 * maxReveals) :
    ∃ n ≤ maxReveals, numReveals (2 ^ 64 - 2 ^ 32) 1 secKQ maxReveals = .ok n := by
  have hs : setu64Down (2 ^ 64 - 2 ^ 32) = some { mantissa := 2 ^ 32 - 1, exp := int32 32 } := by
    decide +kernel
  have hs' : setu64Up 1 = some floatOne := by decide +kernel
  have hw : Stands { mantissa := 2 ^ 32 - 1, exp := int32 32 } (value (2 ^ 32 - 1) 32) :=
    ⟨_, 32, ⟨by norm_num, by norm_num⟩, rfl, rfl⟩
  have hu : Up 31 ((1 : ℕ) : ℚ) 1 :=
    ⟨⟨representable_one, by norm_num⟩, fun y hy => by simpa using hy.2⟩
  rw [numReveals_eq hs hs']
  generalize secKQ % 2 ^ 32 = k at h1 ⊢
  obtain ⟨l, hl, h2, hh⟩ := lhs_largest hw (le_refl maxReveals)
  obtain ⟨r, -, hr, -, -, hp, -, ht⟩ := rhs_run (c := 0) one_pos le_rfl le_rfl hu
    floatOne_stands hu floatOne_stands (setpow2_stands k) maxReveals
  have hc : (2 : ℚ) ^ (k : ℤ) ≤ l := by
    refine le_trans ?_ h2
    calc (2 : ℚ) ^ (k : ℤ)
      _ ≤ 2 ^ (31 + (64 * maxReveals - 32) : ℤ) := zpow_le_zpow_right₀ one_le_two (by omega)
      _ = 2 ^ (31 : ℤ) * 2 ^ (64 * maxReveals - 32 : ℤ) := zpow_add₀ two_ne_zero _ _
      _ ≤ value (2 ^ 32 - maxReveals) (64 * maxReveals - 32) := by
        refine mul_le_mul_of_nonneg_right ?_ (two_zpow_pos _).le
        have hm : 2 ^ 31 ≤ 2 ^ 32 - maxReveals := by decide
        exact_mod_cast hm
  have ho : (1 : ℚ) ≤ 2 ^ (k : ℤ) := one_le_zpow₀ one_le_two (Int.natCast_nonneg k)
  rw [cast_one, one_pow, mul_one] at hp
  have h3 : ((64 * maxReveals : ℕ) : ℤ) ≤ 2 ^ 31 + 30 := by
    unfold maxReveals
    omega
  have hge := (ge_iff hl hr h3 (ho.trans hc) hh
    (ho.trans (by rwa [zpow_natCast])) (ht.trans (zpow_le_zpow_right₀ one_le_two (by omega)))).mpr
    (ht.trans hc)
  obtain ⟨j, _, hk⟩ := revealsLoop_of_ge (n := 0) (le_refl maxReveals) hge
  exact ⟨0 + j, by omega, hk⟩

theorem int32_of_ge {z : ℤ} (h : 2 ^ 31 ≤ z) (h' : z < 2 ^ 32 + 2 ^ 31) : int32 z = z - 2 ^ 32 := by
  rw [int32, Int.bmod_eq_emod]
  split <;> omega

theorem setpow2_eq : setpow2 (int32 z) = { mantissa := 2 ^ 31, exp := int32 (z - 31) } := by
  have hf : 2 ^ 31 ≤ 2 ^ 32 * 1 := by norm_num
  obtain ⟨j, hj, hl, hh⟩ := canonicalizeLoop_eq (e := z) (show 1 < 2 ^ 32 by norm_num) hf
  rw [mul_one] at hl hh
  obtain rfl : j = 31 := by
    have h1 := (Nat.pow_le_pow_iff_right (by norm_num)).mp hl
    have h2 := (Nat.pow_lt_pow_iff_right (by norm_num)).mp hh
    omega
  rw [setpow2, canonicalize, hj]
  rfl

/-- Multiplying a power of two by the largest weight, which is rounded up to `2 ^ 64`. -/
theorem mulUp_largest (e : ℤ) :
    mulUp { mantissa := 2 ^ 31, exp := int32 e } { mantissa := 2 ^ 31, exp := 33 } =
      { mantissa := 2 ^ 31, exp := int32 (e + 64) } := by
  have he : int32 (int32 (int32 e + 33 + 32) - 1) = int32 (e + 64) := by
    rw [int32_sub, add_assoc, add_sub_assoc, int32_add]
    norm_num
  have hh : (2 ^ 31 * 2 ^ 31 / 2 ^ 32) &&& 2 ^ 31 = 0 := by decide
  simp only [mulUp, mulDn, if_pos hh, he]
  rfl

theorem rhsAt_largest (k n : ℕ) :
    rhsAt { mantissa := 2 ^ 31, exp := 33 } (setpow2 (int32 k)) n =
      { mantissa := 2 ^ 31, exp := int32 (k - 31 + 64 * n) } := by
  induction n with
  | zero => rw [rhsAt_zero, setpow2_eq, cast_zero, mul_zero, add_zero]
  | succ n ih => rw [rhsAt_succ, ih, mulUp_largest, cast_succ, mul_add, mul_one, add_assoc]

theorem lhsAt_floatOne (n : ℕ) : lhsAt floatOne floatOne n = floatOne := by
  induction n with
  | zero => rfl
  | succ n ih =>
    rw [lhsAt_succ, ih]
    decide +kernel

/-- A parameter whose exponent wraps to a negative one: the comparison succeeds with no signed
weight. -/
theorem numReveals_negative (hl : 2 ^ 31 + 30 - 64 * maxReveals < secKQ % 2 ^ 32) :
    ∃ n ≤ maxReveals, numReveals 1 (2 ^ 64 - 1) secKQ maxReveals = .ok n := by
  have hs : setu64Down 1 = some floatOne := by decide +kernel
  have hs' : setu64Up (2 ^ 64 - 1) = some { mantissa := 2 ^ 31, exp := 33 } := by decide +kernel
  have ht : secKQ % 2 ^ 32 < 2 ^ 32 := mod_lt _ (by norm_num)
  rw [numReveals_eq hs hs']
  generalize secKQ % 2 ^ 32 = k at hl ht ⊢
  unfold maxReveals at hl
  obtain ⟨n, hn, hw⟩ : ∃ n ≤ maxReveals, int32 (k - 31 + 64 * n) < -31 := by
    rcases lt_or_ge k (2 ^ 31 + 31) with h | h
    · refine ⟨1024, le_rfl, ?_⟩
      rw [int32_of_ge (by omega) (by omega)]
      omega
    · refine ⟨0, zero_le _, ?_⟩
      rw [int32_of_ge (by omega) (by omega)]
      omega
  have hge : (lhsAt floatOne floatOne n).ge
      (rhsAt { mantissa := 2 ^ 31, exp := 33 } (setpow2 (int32 k)) n) = true := by
    rw [lhsAt_floatOne, rhsAt_largest]
    exact if_pos hw
  obtain ⟨j, _, ho⟩ := revealsLoop_of_ge (n := 0) hn hge
  exact ⟨0 + j, by omega, ho⟩

theorem numReveals_le (h : numReveals w p secKQ bound = .ok n) : n ≤ bound := by
  simp only [numReveals, bind_ok] at h
  obtain ⟨_, -, _, -, _, -, h⟩ := h
  obtain ⟨j, _, rfl, -⟩ := ge_of_revealsLoop h
  omega

end

/-- `numReveals` is sound and monotone exactly for the security parameters for which no exponent
wraps, or one wraps beyond the reach of all the reveals. -/
theorem numReveals_sound_iff {secKQ : ℕ} :
    (∀ signedWeight provenWeight bound n, signedWeight < 2 ^ 64 → 0 < provenWeight →
      provenWeight < 2 ^ 64 → bound ≤ maxReveals →
      numReveals signedWeight provenWeight secKQ bound = .ok n →
      2 ^ secKQ * provenWeight ^ n ≤ signedWeight ^ n ∧
        ∀ signedWeight' provenWeight', signedWeight ≤ signedWeight' → signedWeight' < 2 ^ 64 →
          0 < provenWeight' → provenWeight' ≤ provenWeight →
          ∃ n' ≤ n, numReveals signedWeight' provenWeight' secKQ bound = .ok n') ↔
    secKQ % 2 ^ 32 ≤ 2 ^ 31 + 30 - 64 * maxReveals ∧
      (secKQ < 2 ^ 32 ∨ 64 * maxReveals ≤ secKQ % 2 ^ 32) := by
  constructor
  · intro h
    constructor
    · by_contra hl
      obtain ⟨n, hn, hok⟩ := numReveals_negative (Nat.lt_of_not_le hl)
      have hs := (h 1 (2 ^ 64 - 1) maxReveals n (by norm_num) (by norm_num) (by norm_num) le_rfl
        hok).1
      have ho : 1 < 2 ^ secKQ := by
        refine Nat.one_lt_two_pow fun hz => ?_
        rw [hz] at hl
        exact hl (zero_le _)
      rw [one_pow] at hs
      have h2 : 0 < (2 ^ 64 - 1) ^ n := Nat.pow_pos (by norm_num)
      exact absurd hs (Nat.not_le_of_lt (ho.trans_le (Nat.le_mul_of_pos_right _ h2)))
    · by_contra hr
      obtain ⟨_, hm⟩ := not_or.mp hr
      obtain ⟨n, hn, hok⟩ := numReveals_small (Nat.lt_of_not_le hm)
      have hs := (h (2 ^ 64 - 2 ^ 32) 1 maxReveals n (by norm_num) (by norm_num) (by norm_num)
        le_rfl hok).1
      refine absurd hs (Nat.not_le_of_lt (pow_lt_of_bound (by norm_num) hn ?_ Nat.one_pos))
      unfold maxReveals
      omega
  · rintro ⟨hk, hr⟩ w p bound n hw hp hp' h1 hok
    constructor
    · have hs := (numReveals_sound hk h1 le_rfl hw hp le_rfl hp' hok).1
      rcases hr with hm | hl
      · rwa [mod_eq_of_lt hm] at hs
      · have hn := (numReveals_le hok).trans h1
        exact absurd hs (Nat.not_le_of_lt (pow_lt_of_bound hw hn hl hp))
    · intro _ _ h1' hw' hp'' h2'
      exact (numReveals_sound hk h1 h1' hw' hp'' h2' hp' hok).2

/-- The security parameter `2 ^ 32` wraps to 0, and no reveal is asked for. -/
theorem numReveals_wrapped :
    ∃ secKQ, secKQ = 2 ^ 32 ∧ numReveals 1 1 secKQ maxReveals = .ok 0 ∧
      1 ^ 0 < 2 ^ secKQ * 1 ^ 0 := by
  -- the parameter stays a variable, so that its power of two is not evaluated
  obtain ⟨secKQ, h⟩ : ∃ secKQ, secKQ = 2 ^ 32 := ⟨_, rfl⟩
  refine ⟨secKQ, h, ?_, ?_⟩
  · rw [h]
    decide +kernel
  · rw [pow_zero, mul_one]
    exact Nat.one_lt_two_pow (by omega)

/-- Rounding costs a reveal: in exact arithmetic 128 are enough. -/
example : numReveals 100 50 128 maxReveals = .ok 129 := by decide +kernel

end Novarand.CompactCert
