import Novarand.Avm.Eval

/-!
# Arithmetic opcodes

`sqrt`, `exp`, `expw` and `divmodw` on the stack, whose arguments `step` has checked, with wrapping
64-bit words where the source has them and numbers for `big.Int`.
-/

namespace Novarand.Avm

open StackValue

/-! ## Square root -/

/-- The variables of the loop of `opSqrt`. -/
structure SqrtState where
  sq : UInt64
  rem : UInt64 := 0
  root : UInt64 := 0

def SqrtState.step (s : SqrtState) : SqrtState :=
  let root := s.root <<< 1
  let rem := s.rem <<< 2 ||| s.sq >>> 62
  let sq := s.sq <<< 2
  if root < rem then { sq, rem := rem - (root ||| 1), root := root + 2 } else { sq, rem, root }

def opSqrt : List StackValue → Except String (List StackValue)
  | last :: rest => .ok (.uint ((SqrtState.step^[32] { sq := last.toUint }).root >>> 1) :: rest)
  | [] => .ok []

/-- With `n` turns left, the root of the digits read is `r`, `rem` is what the square of `r` leaves of
them, and `q` are the digits to be read. -/
structure SqrtState.Inv (x n r q : ℕ) (s : SqrtState) : Prop where
  root : s.root.toNat = 2 * r
  rem : s.rem.toNat ≤ 2 * r
  small : r < 2 ^ (32 - n)
  sq : s.sq.toNat = q * 4 ^ (32 - n)
  left : q < 4 ^ n
  digits : (r * r + s.rem.toNat) * 4 ^ n + q = x

variable {n q r x : ℕ} {s : SqrtState}

theorem SqrtState.Inv.step (h : s.Inv x (n + 1) r q) (hn : n < 32) :
    ∃ r' q', s.step.Inv x n r' q' := by
  have hl : 32 - n = 32 - (n + 1) + 1 := by omega
  have hm := h.small
  have hr : r < 2 ^ 31 := hm.trans_le (Nat.pow_le_pow_right (by decide) (by omega))
  have he := h.rem
  have hp : 4 ^ 31 = 4 ^ n * 4 ^ (32 - (n + 1)) := by
    rw [← Nat.pow_add]
    congr 1
    omega
  have hp' : 4 ^ 32 = 4 ^ n * 4 ^ (32 - n) := by
    rw [← Nat.pow_add]
    congr 1
    omega
  -- the two digits that come next
  have h2 : (s.sq >>> 62).toNat = q / 4 ^ n := by
    rw [UInt64.toNat_shiftRight, h.sq, Nat.shiftRight_eq_div_pow]
    exact (congrArg _ hp).trans (Nat.mul_div_mul_right _ _ (Nat.pow_pos (by decide)))
  have hd : q / 4 ^ n < 4 := Nat.div_lt_of_lt_mul (Nat.pow_succ .. ▸ h.left)
  have ht : (s.root <<< 1).toNat = 4 * r := by
    have hh : (s.root <<< 1).toNat = s.root.toNat <<< 1 % 2 ^ 64 := UInt64.toNat_shiftLeft ..
    rw [hh, h.root]
    omega
  have hr' : (s.rem <<< 2 ||| s.sq >>> 62).toNat = 4 * s.rem.toNat + q / 4 ^ n := by
    have hh : (s.rem <<< 2).toNat = s.rem.toNat <<< 2 % 2 ^ 64 := UInt64.toNat_shiftLeft ..
    have hlt : s.rem.toNat <<< 2 < 2 ^ 64 := by omega
    rw [UInt64.toNat_or, h2, hh, Nat.mod_eq_of_lt hlt, ← Nat.shiftLeft_add_eq_or_of_lt hd]
    omega
  have h1 : (s.sq <<< 2).toNat = q % 4 ^ n * 4 ^ (32 - n) := by
    have hh : (s.sq <<< 2).toNat = s.sq.toNat <<< 2 % 4 ^ 32 := UInt64.toNat_shiftLeft ..
    rw [hh, h.sq, Nat.shiftLeft_eq, hp', Nat.mul_assoc, hl, ← pow_succ, Nat.mul_mod_mul_right]
  have hq : q % 4 ^ n < 4 ^ n := Nat.mod_lt _ (Nat.pow_pos (by decide))
  have hx : (4 * (r * r + s.rem.toNat) + q / 4 ^ n) * 4 ^ n + q % 4 ^ n = x := by
    calc
      _ = (r * r + s.rem.toNat) * (4 ^ n * 4) + (4 ^ n * (q / 4 ^ n) + q % 4 ^ n) := by ring
      _ = x := by rw [Nat.div_add_mod, ← pow_succ, h.digits]
  dsimp only [SqrtState.step]
  generalize s.root <<< 1 = root at ht ⊢
  generalize s.rem <<< 2 ||| s.sq >>> 62 = rem at hr' ⊢
  split_ifs with h3 <;> rw [UInt64.lt_iff_toNat_lt] at h3
  · have ho : (root ||| 1).toNat = 4 * r + 1 := by
      rw [UInt64.toNat_or, ht]
      exact (Nat.two_pow_add_eq_or_of_lt (show 1 < 2 ^ 2 by decide) r).symm
    have hs : (rem - (root ||| 1)).toNat = rem.toNat - (4 * r + 1) := by
      rw [UInt64.toNat_sub_of_le _ _ (UInt64.le_iff_toNat_le.mpr (by omega)), ho]
    have ha : (root + 2).toNat = (4 * r + 2) % 2 ^ 64 := ht ▸ UInt64.toNat_add root 2
    have h4 : (2 * r + 1) * (2 * r + 1) = 4 * (r * r) + (4 * r + 1) := by ring
    refine ⟨2 * r + 1, q % 4 ^ n, ?_, ?_, ?_, h1, hq, ?_⟩
    · show (root + 2).toNat = _
      omega
    · show (rem - (root ||| 1)).toNat ≤ _
      omega
    · rw [hl]
      omega
    · rw [← hx]
      congr 2
      show _ + (rem - (root ||| 1)).toNat = _
      omega
  · refine ⟨2 * r, q % 4 ^ n, ?_, ?_, ?_, h1, hq, ?_⟩
    · show root.toNat = _
      omega
    · show rem.toNat ≤ _
      omega
    · rw [hl]
      omega
    · have h4 : 2 * r * (2 * r) = 4 * (r * r) := by ring
      rw [← hx]
      congr 2
      show _ + rem.toNat = _
      omega

theorem SqrtState.Inv.loop (h : s.Inv x n r q) (hn : n ≤ 32) :
    ∃ r' q', (SqrtState.step^[n] s).Inv x 0 r' q' := by
  induction n generalizing s r q with
  | zero => exact ⟨r, q, h⟩
  | succ n ih =>
    obtain ⟨r', q', h'⟩ := h.step hn
    exact ih h' (by omega)

theorem opSqrt_ok (x : UInt64) (rest : List StackValue) :
    ∃ r : UInt64, opSqrt (.uint x :: rest) = .ok (.uint r :: rest) ∧
      r.toNat * r.toNat ≤ x.toNat ∧ x.toNat < (r.toNat + 1) * (r.toNat + 1) := by
  have hs : SqrtState.Inv x.toNat 32 0 x.toNat { sq := x } :=
    ⟨rfl, le_rfl, by decide, by simp, x.toNat_lt, by simp⟩
  obtain ⟨r, q, ht, _, -, -, _, _⟩ := hs.loop (le_rfl)
  have hr : ((SqrtState.step^[32] { sq := x }).root >>> 1).toNat = r := by
    rw [UInt64.toNat_shiftRight, ht]
    exact Nat.mul_div_cancel_left r (by decide)
  refine ⟨_, rfl, ?_⟩
  rw [show toUint (.uint x) = x from rfl, hr]
  have hq : (r + 1) * (r + 1) = r * r + 2 * r + 1 := by ring
  omega

/-! ## Powers -/

section

variable {α : Type} (next : α → α) (overflows : α → Prop) [DecidablePred overflows]

/-- The loop of `opExpImpl` and `opExpwImpl` with the turns left: `next` multiplies by the base. -/
def expLoop (overflow : String) : ℕ → α → Except String α
  | 0, answer => .ok answer
  | n + 1, answer => if overflows answer then .error overflow else expLoop overflow n (next answer)

/-- `opExpImpl` and `opExpwImpl`, for powers of `bits` bits. -/
def expWith (bits : UInt64) (ofUint : UInt64 → α) (base exp : UInt64) : Except String α :=
  if exp = 0 ∧ base = 0 then .error "0^0 is undefined"
  else if base = 0 then .ok (ofUint 0)
  else if exp = 0 ∨ base = 1 then .ok (ofUint 1)
  else if bits ≤ exp then .error s!"{base}^{exp} overflow"
  else expLoop next overflows s!"{base}^{exp} overflow" (exp.toNat - 1) (ofUint base)

end

def opExpImpl (base exp : UInt64) : Except String UInt64 :=
  expWith (· * base) (fun answer => answer * base / answer ≠ base) 64 id base exp

def opExpwImpl (base exp : UInt64) : Except String ℕ :=
  expWith (· * base.toNat) (fun answer => 128 < (answer * base.toNat).size) 128 UInt64.toNat base exp

def opExp : List StackValue → Except String (List StackValue)
  | exp :: base :: rest => do return .uint (← opExpImpl base.toUint exp.toUint) :: rest
  | stack => .ok stack

def opExpw : List StackValue → Except String (List StackValue)
  | exp :: base :: rest => do
    let val ← opExpwImpl base.toUint exp.toUint
    return .uint (.ofNat val) :: .uint (.ofNat (val >>> 64)) :: rest
  | stack => .ok stack

/-- `next` multiplies the numbers by `b` unless that reaches `limit`, and then `overflows` says so. -/
structure Multiplies {α : Type} (value : α → ℕ) (limit b : ℕ) (next : α → α)
    (overflows : α → Prop) : Prop where
  inj : value.Injective
  next : ∀ a, value a * b < limit → value (next a) = value a * b
  overflows : ∀ a, 0 < value a → (overflows a ↔ limit ≤ value a * b)

variable {base exp hi lo : UInt64}

section

variable {α : Type} {value : α → ℕ} {limit b : ℕ} {next : α → α} {overflows : α → Prop}
  [DecidablePred overflows]

theorem Multiplies.loop (h : Multiplies value limit b next overflows) (hb : 0 < b) (e : String)
    {a v : α} (ha : 0 < value a) (ht : value a < limit) :
    expLoop next overflows e n a = .ok v ↔ value v = value a * b ^ n ∧ value v < limit := by
  induction n generalizing a with
  | zero =>
    rw [expLoop, Except.ok.injEq, pow_zero, mul_one]
    constructor
    · rintro rfl
      exact ⟨rfl, ht⟩
    · exact fun hv => h.inj hv.1.symm
  | succ n ih =>
    rw [expLoop, pow_succ', ← mul_assoc]
    by_cases hl : limit ≤ value a * b
    · rw [if_pos ((h.overflows a ha).mpr hl)]
      have := Nat.le_mul_of_pos_right (value a * b) (Nat.pow_pos hb (n := n))
      constructor
      · nofun
      · omega
    · have hn := h.next a (Nat.lt_of_not_le hl)
      rw [if_neg fun h1 => hl ((h.overflows a ha).mp h1), ← hn]
      exact ih (hn ▸ Nat.mul_pos ha hb) (hn ▸ Nat.lt_of_not_le hl)

theorem Multiplies.expWith_ok_iff {ofUint : UInt64 → α} {v : α} (bits : UInt64)
    (h : Multiplies value (2 ^ bits.toNat) base.toNat next overflows)
    (hu : ∀ x, value (ofUint x) = x.toNat) (ht : 64 ≤ bits.toNat) :
    expWith next overflows bits ofUint base exp = .ok v ↔ ¬(base = 0 ∧ exp = 0) ∧
      value v = base.toNat ^ exp.toNat ∧ value v < 2 ^ bits.toNat := by
  have hf (x : UInt64) : value (ofUint x) < 2 ^ bits.toNat :=
    (hu x).trans_lt (x.toNat_lt.trans_le (Nat.pow_le_pow_right (by decide) ht))
  -- a power that is known without the loop
  have hk {x : UInt64} (hx : base.toNat ^ exp.toNat = x.toNat) :
      (.ok (ofUint x) : Except String α) = .ok v ↔
        value v = base.toNat ^ exp.toNat ∧ value v < 2 ^ bits.toNat := by
    rw [Except.ok.injEq, hx, ← hu]
    exact ⟨fun h => h ▸ ⟨rfl, hf x⟩, fun hv => h.inj hv.1.symm⟩
  have he : exp.toNat = 0 ↔ exp = 0 := UInt64.toNat_inj (b := 0)
  unfold expWith
  split_ifs with hz hs ho hi
  · simp [hz]
  · rw [hk (x := 0), iff_and_self]
    · exact fun _ h => hz ⟨h.2, h.1⟩
    · rw [hs]
      exact Nat.zero_pow (Nat.pos_of_ne_zero fun h => hz ⟨he.mp h, hs⟩)
  · rw [hk (x := 1), iff_and_self]
    · exact fun _ h => hs h.1
    · rcases ho with rfl | rfl
      · exact pow_zero _
      · exact one_pow _
  all_goals
    have hb : 2 ≤ base.toNat := by
      have h0 : base.toNat ≠ 0 := fun h => hs (UInt64.toNat_inj (b := 0) |>.mp h)
      have h1 : base.toNat ≠ 1 := fun h => ho (.inr (UInt64.toNat_inj (b := 1) |>.mp h))
      omega
  · refine ⟨nofun, fun ⟨_, hv, hl⟩ => absurd hl (Nat.not_lt_of_le ?_)⟩
    rw [hv]
    calc
      2 ^ bits.toNat ≤ 2 ^ exp.toNat := Nat.pow_le_pow_right (by decide) hi
      _ ≤ base.toNat ^ exp.toNat := Nat.pow_le_pow_left hb _
  · rw [h.loop (by omega) _ (by rw [hu]; omega) (hf base), hu, ← pow_succ',
      Nat.sub_add_cancel, iff_and_self]
    · exact fun _ h => hs h.1
    · exact Nat.pos_of_ne_zero fun h => ho (.inl (he.mp h))

end

variable {base exp v : UInt64}

/-- A product that wrapped is smaller, and so is its quotient. -/
theorem mul_div_ne_iff (ha : 0 < v.toNat) :
    v * base / v ≠ base ↔ 2 ^ 64 ≤ v.toNat * base.toNat := by
  rw [ne_eq, ← UInt64.toNat_inj, UInt64.toNat_div, UInt64.toNat_mul, ← not_lt, not_iff_not]
  constructor
  · intro h
    by_contra hl
    have hm : v.toNat * base.toNat % 2 ^ 64 < v.toNat * base.toNat := by omega
    exact (Nat.div_lt_of_lt_mul hm).ne h
  · intro h
    rw [Nat.mod_eq_of_lt h, Nat.mul_div_cancel_left _ ha]

theorem opExpImpl_ok_iff :
    opExpImpl base exp = .ok v ↔ ¬(base = 0 ∧ exp = 0) ∧ v.toNat = base.toNat ^ exp.toNat := by
  have hm : Multiplies UInt64.toNat (2 ^ 64) base.toNat (· * base)
      (fun an => an * base / an ≠ base) :=
    ⟨fun _ _ => UInt64.toNat_inj.mp,
      fun a h => (UInt64.toNat_mul a base).trans (Nat.mod_eq_of_lt h), fun _ => mul_div_ne_iff⟩
  refine (hm.expWith_ok_iff 64 (fun _ => rfl) (by decide)).trans ?_
  exact and_congr_right fun _ => and_iff_left v.toNat_lt

theorem opExpwImpl_ok_iff :
    opExpwImpl base exp = .ok n ↔
      ¬(base = 0 ∧ exp = 0) ∧ n = base.toNat ^ exp.toNat ∧ n < 2 ^ 128 := by
  have hm : Multiplies id (2 ^ 128) base.toNat (· * base.toNat)
      (fun an => 128 < (an * base.toNat).size) :=
    ⟨fun _ _ h => h, fun _ _ => rfl, fun _ _ => Nat.lt_size⟩
  exact hm.expWith_ok_iff 128 (fun _ => rfl) (by decide)

/-! ## Double words -/

def uint128 (hi lo : UInt64) : ℕ := hi.toNat <<< 64 + lo.toNat

def opDivModw : List StackValue → Except String (List StackValue)
  | loDen :: hiDen :: loNum :: hiNum :: rest =>
    if loDen.toUint = 0 ∧ hiDen.toUint = 0 then .error "/ 0"
    else
      let dividend := uint128 hiNum.toUint loNum.toUint
      let divisor := uint128 hiDen.toUint loDen.toUint
      let quo := dividend / divisor
      let rem := dividend % divisor
      .ok (.uint (.ofNat rem) :: .uint (.ofNat (rem >>> 64)) ::
        .uint (.ofNat quo) :: .uint (.ofNat (quo >>> 64)) :: rest)
  | stack => .ok stack

theorem uint128_lt (hi lo : UInt64) : uint128 hi lo < 2 ^ 128 := by
  have := hi.toNat_lt
  have := lo.toNat_lt
  rw [uint128]
  omega

theorem uint128_eq_zero_iff : uint128 hi lo = 0 ↔ lo = 0 ∧ hi = 0 := by
  rw [uint128, ← UInt64.toNat_inj, ← UInt64.toNat_inj]
  show _ ↔ lo.toNat = 0 ∧ hi.toNat = 0
  omega

theorem uint128_eq_iff (hn : n < 2 ^ 128) :
    uint128 hi lo = n ↔ hi = .ofNat (n >>> 64) ∧ lo = .ofNat n := by
  rw [uint128, ← UInt64.toNat_inj, ← UInt64.toNat_inj, UInt64.toNat_ofNat', UInt64.toNat_ofNat']
  have := lo.toNat_lt
  omega

/-- **The arithmetic opcodes are exact.**  `sqrt` is the integer square root. `exp` and `expw` give
the power, in one word and in two, when it fits and fail otherwise, and on `0^0`. `divmodw` gives
quotient and remainder of double words, and fails with `/ 0` when the divisor is 0. -/
theorem arithmetic_exact (x base exp hiNum loNum hiDen loDen : UInt64) (rest : List StackValue) :
    (∃ r : UInt64, opSqrt (.uint x :: rest) = .ok (.uint r :: rest) ∧
      r.toNat * r.toNat ≤ x.toNat ∧ x.toNat < (r.toNat + 1) * (r.toNat + 1)) ∧
    (∀ out, opExp (.uint exp :: .uint base :: rest) = .ok out ↔ ¬(base = 0 ∧ exp = 0) ∧
      ∃ v : UInt64, v.toNat = base.toNat ^ exp.toNat ∧ out = .uint v :: rest) ∧
    (∀ out, opExpw (.uint exp :: .uint base :: rest) = .ok out ↔ ¬(base = 0 ∧ exp = 0) ∧
      ∃ hi lo, uint128 hi lo = base.toNat ^ exp.toNat ∧ out = .uint lo :: .uint hi :: rest) ∧
    (∀ out, opDivModw (.uint loDen :: .uint hiDen :: .uint loNum :: .uint hiNum :: rest) = .ok out ↔
      uint128 hiDen loDen ≠ 0 ∧ ∃ hiQuo loQuo hiRem loRem,
        uint128 hiQuo loQuo = uint128 hiNum loNum / uint128 hiDen loDen ∧
        uint128 hiRem loRem = uint128 hiNum loNum % uint128 hiDen loDen ∧
        out = .uint loRem :: .uint hiRem :: .uint loQuo :: .uint hiQuo :: rest) ∧
    (opDivModw (.uint loDen :: .uint hiDen :: .uint loNum :: .uint hiNum :: rest) = .error "/ 0" ↔
      uint128 hiDen loDen = 0) := by
  refine ⟨opSqrt_ok x rest, fun out => ?_, fun out => ?_, fun out => ?_, ?_⟩
  · simp only [opExp, toUint, bind_ok, pure_ok, opExpImpl_ok_iff]
    constructor
    · rintro ⟨v, ⟨he, hv⟩, rfl⟩
      exact ⟨he, v, hv, rfl⟩
    · rintro ⟨he, v, hv, rfl⟩
      exact ⟨v, ⟨he, hv⟩, rfl⟩
  · simp only [opExpw, toUint, bind_ok, pure_ok, opExpwImpl_ok_iff]
    constructor
    · rintro ⟨n, ⟨he, hn, ht⟩, rfl⟩
      exact ⟨he, _, _, ((uint128_eq_iff ht).mpr ⟨rfl, rfl⟩).trans hn, rfl⟩
    · rintro ⟨he, hi, lo, hn, rfl⟩
      have ht := uint128_lt hi lo
      obtain ⟨hh, hl⟩ := (uint128_eq_iff ht).mp rfl
      exact ⟨_, ⟨he, hn, ht⟩, by rw [← hh, ← hl]⟩
  · rw [ne_eq, uint128_eq_zero_iff]
    simp only [opDivModw, toUint]
    split_ifs with hz
    · simp [hz]
    · have ht := uint128_lt hiNum loNum
      have hq := (Nat.div_le_self _ (uint128 hiDen loDen)).trans_lt ht
      have hr := (Nat.mod_le _ (uint128 hiDen loDen)).trans_lt ht
      simp only [uint128_eq_iff hq, uint128_eq_iff hr, hz]
      constructor
      · rintro ⟨⟩
        exact ⟨id, _, _, _, _, ⟨rfl, rfl⟩, ⟨rfl, rfl⟩, rfl⟩
      · rintro ⟨-, _, _, _, _, ⟨rfl, rfl⟩, ⟨rfl, rfl⟩, rfl⟩
        rfl
  · rw [uint128_eq_zero_iff]
    simp only [opDivModw, toUint]
    split_ifs with hz <;> simp [hz]

/-- `0^0` is 1, but `expw` fails on it. -/
theorem expw_zero_zero :
    (0 : ℕ) ^ 0 < 2 ^ 128 ∧ opExpw [.uint 0, .uint 0] = .error "0^0 is undefined" := by decide

end Novarand.Avm
