import Novarand.Crypto.CompactCert
import Novarand.Crypto.MerkleComplete

/-!
# What a builder collects and commits to

The slots of a builder carry the weights of the participants whose signatures it has, and the `L`
values of a prepared builder are the prefix sums of these weights. A coin below the signed weight
lies in the interval of exactly one slot, and the binary search finds it.
-/

namespace Novarand.CompactCert

open MerkleArray List Nat

variable {P : Primitives}

/-! ### Prefix sums -/

def totalWeight (slots : List Sigslot) : ℕ := (slots.map Sigslot.weight).sum

def weightBelow (slots : List Sigslot) (i : ℕ) : ℕ := totalWeight (slots.take i)

variable {slots : List Sigslot} {new slot : Sigslot}

theorem weightBelow_succ {i : ℕ} (h : slots[i]? = some slot) :
    weightBelow slots (i + 1) = weightBelow slots i + slot.weight := by
  simp [weightBelow, totalWeight, take_add_one, h]

section

variable (slots : List Sigslot)

theorem weightBelow_length : weightBelow slots slots.length = totalWeight slots := by
  rw [weightBelow, take_length]

theorem weightBelow_le_succ (i : ℕ) : weightBelow slots i ≤ weightBelow slots (i + 1) := by
  cases h : slots[i]? with
  | some _ =>
    rw [weightBelow_succ h]
    exact le_add_right _ _
  | none => simp [weightBelow, take_add_one, h]

theorem weightBelow_mono : Monotone (weightBelow slots) :=
  monotone_nat_of_le_succ (weightBelow_le_succ slots)

theorem weightBelow_le_total (i : ℕ) : weightBelow slots i ≤ totalWeight slots := by
  have hl := weightBelow_length slots
  rcases le_total i slots.length with h | h
  · exact hl ▸ weightBelow_mono slots h
  · rw [weightBelow, take_of_length_le h]

end

variable {sig : Signature} {p : Participant} {params : Params}

namespace Builder

section

variable {b : Builder} {slots : List Sigslot}

theorem getElem?_fillL {l : ℕ} (hl : l + totalWeight slots < 2 ^ 64) (i : ℕ) :
    (fillL l slots)[i]? = slots[i]?.map fun slot =>
      { slot with commit := { slot.commit with l := l + weightBelow slots i } } := by
  induction slots generalizing l i with
  | nil => simp [fillL]
  | cons slot slots ih =>
    have ht : totalWeight (slot :: slots) = slot.weight + totalWeight slots := by simp [totalWeight]
    cases i with
    | zero => simp [fillL, weightBelow, totalWeight]
    | succ i =>
      have hb : weightBelow (slot :: slots) (i + 1) = slot.weight + weightBelow slots i := by
        simp [weightBelow, totalWeight]
      rw [fillL, getElem?_cons_succ, getElem?_cons_succ,
        mod_eq_of_lt (by omega), ih (by omega), hb, add_assoc]

/-- The slots of a prepared builder carry the weight below them. -/
theorem getElem?_prepared (hf : ∀ slot ∈ b.sigs.head?, slot.commit.l = 0)
    (ht : totalWeight b.sigs < 2 ^ 64) (i : ℕ) :
    b.prepared.sigs[i]? = b.sigs[i]?.map fun slot =>
      { slot with commit := { slot.commit with l := weightBelow b.sigs i } } := by
  rw [prepared]
  cases hs : b.sigs with
  | nil => simp
  | cons slot slots =>
    rw [hs] at hf ht
    have hz : slot.commit.l = 0 := hf slot rfl
    have hc : totalWeight (slot :: slots) = slot.weight + totalWeight slots := by simp [totalWeight]
    cases i with
    | zero =>
      have : weightBelow (slot :: slots) 0 = slot.commit.l := by
        rw [hz]
        rfl
      rw [this]
      rfl
    | succ i =>
      have hb : weightBelow (slot :: slots) (i + 1) = slot.weight + weightBelow slots i := by
        simp [weightBelow, totalWeight]
      rw [getElem?_cons_succ, getElem?_cons_succ, hz, zero_add,
        mod_eq_of_lt (by omega), getElem?_fillL (by omega), hb]

theorem length_prepared (b : Builder) : b.prepared.sigs.length = b.sigs.length := by
  have hf : ∀ (sl : List Sigslot) (l : ℕ), (fillL l sl).length = sl.length := by
    intro sl
    induction sl with
    | nil => exact fun l => rfl
    | cons so sl ih => exact fun l => congrArg (· + 1) (ih _)
  rw [prepared]
  cases b.sigs with
  | nil => rfl
  | cons so sl => exact congrArg (· + 1) (hf _ _)

/-! ### The slot of a coin -/

/-- The slots hold the prefix sums of their weights, as in a prepared builder. -/
structure HasSums (b : Builder) (slots : List Sigslot) : Prop where
  valid : b.sigsHasValidL = true
  length : b.sigs.length = slots.length
  slot : ∀ i s, slots[i]? = some s → ∃ slot, b.sigs[i]? = some slot ∧ slot.weight = s.weight ∧
    slot.commit.sig = s.commit.sig ∧ slot.commit.l = weightBelow slots i
  total : totalWeight slots < 2 ^ 64

theorem hasSums_prepared (hf : ∀ slot ∈ b.sigs.head?, slot.commit.l = 0)
    (ht : totalWeight b.sigs < 2 ^ 64) : b.prepared.HasSums b.sigs where
  valid := rfl
  length := b.length_prepared
  slot i s hs :=
    ⟨{ s with commit := { s.commit with l := weightBelow b.sigs i } },
      by rw [getElem?_prepared hf ht, hs]; rfl, rfl, rfl, rfl⟩
  total := ht

/-- The interval of slot `pos` holds the coin. -/
def InSlot (slots : List Sigslot) (coin pos : ℕ) : Prop :=
  weightBelow slots pos ≤ coin ∧ coin < weightBelow slots (pos + 1)

theorem InSlot.unique {coin pos pos' : ℕ} (h : InSlot slots coin pos) (h' : InSlot slots coin pos')
    : pos = pos' := by
  rcases lt_trichotomy pos pos' with hl | he | hl
  · have := weightBelow_mono slots (show pos + 1 ≤ pos' by omega)
    have h1 := h.2
    have h2 := h'.1
    omega
  · exact he
  · have := weightBelow_mono slots (show pos' + 1 ≤ pos by omega)
    have h1 := h.1
    have h2 := h'.2
    omega

theorem InSlot.lt {coin pos : ℕ} (h : InSlot slots coin pos) : pos < slots.length := by
  by_contra hge
  have hp : weightBelow slots pos = totalWeight slots := by
    rw [weightBelow, take_of_length_le (by omega)]
  have hl := weightBelow_le_total slots (pos + 1)
  have h1 := h.1
  have h2 := h.2
  omega

/-- The search narrows the slots down to the one of the coin. -/
theorem HasSums.coinIndexLoop (h : b.HasSums slots) {coin fuel lo hi : ℕ}
    (ho : weightBelow slots lo ≤ coin) (hh : coin < weightBelow slots hi)
    (he : hi ≤ slots.length) (hf : hi ≤ lo + fuel) :
    ∃ pos, b.coinIndexLoop coin fuel lo hi = .ok pos ∧ InSlot slots coin pos := by
  induction fuel generalizing lo hi with
  | zero =>
    have := weightBelow_mono slots hf
    rw [add_zero] at this
    omega
  | succ fuel ih =>
    have hlt : lo < hi := by
      by_contra hge
      have := weightBelow_mono slots (Nat.le_of_not_lt hge)
      omega
    obtain ⟨slot, hs, hw, -, hl⟩ := h.slot ((lo + hi) / 2)
      slots[(lo + hi) / 2] (getElem?_eq_getElem (by omega))
    have hc : weightBelow slots ((lo + hi) / 2 + 1) = weightBelow slots ((lo + hi) / 2) +
        slot.weight := by
      rw [hw]
      exact weightBelow_succ (getElem?_eq_getElem (by omega))
    have hb := weightBelow_le_total slots ((lo + hi) / 2 + 1)
    have ht := h.total
    rw [Builder.coinIndexLoop, if_neg (by omega)]
    simp only [hs, orThrow_some, ok_bind, hl]
    rw [mod_eq_of_lt (by omega), ← hc]
    by_cases h1 : coin < weightBelow slots ((lo + hi) / 2)
    · rw [if_pos h1]
      exact ih ho h1 (by omega) (by omega)
    · rw [if_neg h1]
      by_cases hm : coin < weightBelow slots ((lo + hi) / 2 + 1)
      · rw [if_pos hm]
        exact ⟨_, rfl, by omega, hm⟩
      · rw [if_neg hm]
        exact ih (by omega) hh he (by omega)

theorem HasSums.coinIndex (h : b.HasSums slots) {coin : ℕ} (hc : coin < totalWeight slots) :
    ∃ pos, b.coinIndex coin = .ok pos ∧ InSlot slots coin pos := by
  obtain ⟨pos, hl, hp⟩ := @coinIndexLoop b slots h coin slots.length 0 slots.length
    (zero_le coin) (weightBelow_length slots ▸ hc) le_rfl (le_add_left _ _)
  refine ⟨pos, ?_, hp⟩
  rw [Builder.coinIndex, h.valid, h.length]
  exact hl

end

/-! ### What a builder holds -/

/-- A slot that is empty, or holds a signature that the participant's key verifies. -/
def SlotOf (P : Primitives) (params : Params) (slot : Sigslot) (p : Participant) : Prop :=
  (slot.weight = 0 ∧ slot.commit.sig.signature = none) ∨
    (slot.weight = p.weight ∧
      verifySignature P p.pk params.sigRound params.msg slot.commit.sig = .ok ())

/-- The builders that come from adding signatures with verification, and building in between. -/
inductive Reached (P : Primitives) (params : Params) (part : List Participant) (tree : Tree) :
    Builder → Prop
  | start : Reached P params part tree (mkBuilder params part tree)
  | add {b b' pos sig} (hb : Reached P params part tree b)
      (hadd : b.add P pos sig true = .ok b') : Reached P params part tree b'
  | build {b} (hb : Reached P params part tree b)
      (hweight : params.provenWeight < b.signedWeight) : Reached P params part tree b.prepared

/-- A builder for these participants whose slots hold verified signatures. -/
structure Collects (P : Primitives) (params : Params) (part : List Participant) (tree : Tree)
    (b : Builder) : Prop where
  params_eq : b.params = params
  participants : b.participants = part
  parttree : b.parttree = tree
  slots : List.Forall₂ (SlotOf P params) b.sigs part

/-- If the weights do not wrap, the signed weight is that of the slots. -/
structure Inv (P : Primitives) (params : Params) (part : List Participant) (tree : Tree)
    (b : Builder) : Prop extends Collects P params part tree b where
  first : ∀ slot ∈ b.sigs.head?, slot.commit.l = 0
  signedWeight : b.signedWeight = totalWeight b.sigs

theorem SlotOf.weight_le (h : SlotOf P params slot p) : slot.weight ≤ p.weight := by
  rcases h with ⟨hz, -⟩ | ⟨he, -⟩ <;> omega

section

variable {params : Params} {slots : List Sigslot} {part : List Participant}
  (h : List.Forall₂ (SlotOf P params) slots part)
include h

theorem totalWeight_le : totalWeight slots ≤ (part.map Participant.weight).sum := by
  induction h with
  | nil => exact le_rfl
  | @cons _ p slots part hs _ ih =>
    have := hs.weight_le
    simp only [totalWeight, map_cons, sum_cons] at ih ⊢
    omega

/-- A new signature goes to an empty slot. -/
theorem slots_set {pos : ℕ} (hl : slots[pos]? = some slot) (hp : part[pos]? = some p)
    (hz : slot.weight = 0) (hn : SlotOf P params new p) :
    List.Forall₂ (SlotOf P params) (slots.set pos new) part ∧
      totalWeight (slots.set pos new) = totalWeight slots + new.weight := by
  induction h generalizing pos with
  | nil => cases hl
  | @cons s q slots part hs hr ih =>
    cases pos with
    | zero =>
      obtain rfl := Option.some.inj hl
      obtain rfl := Option.some.inj hp
      refine ⟨.cons hn hr, ?_⟩
      simp only [set_cons_zero, totalWeight, map_cons, sum_cons]
      omega
    | succ pos =>
      obtain ⟨ha, ht⟩ := ih hl hp
      refine ⟨.cons hs ha, ?_⟩
      simp only [set_cons_succ, totalWeight, map_cons, sum_cons] at ht ⊢
      omega

end

theorem head?_set_l {pos : ℕ} {w : ℕ} (hs : slots[pos]? = some slot)
    (h : ∀ s ∈ slots.head?, s.commit.l = 0) :
    ∀ s ∈ (slots.set pos { weight := w, commit := { slot.commit with sig } }).head?,
      s.commit.l = 0 := by
  cases slots with
  | nil => simp
  | cons s slots =>
    cases pos with
    | zero =>
      obtain rfl := Option.some.inj hs
      intro _ hs'
      obtain rfl := Option.some.inj hs'
      exact h s rfl
    | succ pos => exact h

theorem prepared_weights (b : Builder) :
    List.Forall₂ (fun slot s => slot.weight = s.weight ∧ slot.commit.sig = s.commit.sig)
      b.prepared.sigs b.sigs := by
  have hf : ∀ (slots : List Sigslot) (l : ℕ),
      List.Forall₂ (fun slot s => slot.weight = s.weight ∧ slot.commit.sig = s.commit.sig)
        (fillL l slots) slots := by
    intro slots
    induction slots with
    | nil => exact fun _ => .nil
    | cons slot slots ih => exact fun l => .cons ⟨rfl, rfl⟩ (ih _)
  rw [prepared]
  cases b.sigs with
  | nil => exact .nil
  | cons slot slots => exact .cons ⟨rfl, rfl⟩ (hf _ _)

section

variable {slots slots' : List Sigslot}
  (h : List.Forall₂ (fun slot s => slot.weight = s.weight ∧ slot.commit.sig = s.commit.sig) slots' slots)
include h

theorem totalWeight_eq : totalWeight slots' = totalWeight slots := by
  induction h with
  | nil => rfl
  | cons hs _ ih =>
    simp only [totalWeight, map_cons, sum_cons] at ih ⊢
    rw [hs.1, ih]

theorem slots_congr {part : List Participant} (hl : List.Forall₂ (SlotOf P params) slots part) :
    List.Forall₂ (SlotOf P params) slots' part := by
  induction h generalizing part with
  | nil => exact hl
  | cons hs _ ih =>
    cases hl with
    | cons ht hr =>
      refine .cons ?_ (ih hr)
      rw [SlotOf, hs.1, hs.2]
      exact ht

end

variable {params : Params} {part : List Participant} {tree : Tree}

theorem Collects.start : Collects P params part tree (mkBuilder params part tree) where
  params_eq := rfl
  participants := rfl
  parttree := rfl
  slots := by
    induction part with
    | nil => exact .nil
    | cons p part ih => exact .cons (.inl ⟨rfl, rfl⟩) ih

theorem Inv.start : Inv P params part tree (mkBuilder params part tree) where
  toCollects := .start
  first := by
    cases part with
    | nil => simp [mkBuilder]
    | cons p part =>
      intro s hs
      obtain rfl := Option.some.inj hs
      rfl
  signedWeight := by
    show 0 = totalWeight (List.replicate part.length _)
    simp [totalWeight]

variable {b b' : Builder}

/-- `Add` fills an empty slot. -/
theorem Collects.add (h : Collects P params part tree b) {pos : ℕ}
    (ha : b.add P pos sig true = .ok b') :
    Collects P params part tree b' ∧ ∃ slot, ∃ p : Participant, b.sigs[pos]? = some slot ∧
      b'.sigs = b.sigs.set pos { weight := p.weight, commit := { slot.commit with sig } } ∧
      totalWeight b'.sigs = totalWeight b.sigs + p.weight ∧
      b'.signedWeight = (b.signedWeight + p.weight) % 2 ^ 64 := by
  simp only [Builder.add, if_true, bind_ok, orThrow_ok, failIf_ok, pure_ok, not_not] at ha
  obtain ⟨slot, hl, -, hz, p, hp, -, _, ⟨⟩, hv, rfl⟩ := ha
  rw [h.participants] at hp
  rw [h.params_eq] at hv
  obtain ⟨ht, hs⟩ := slots_set h.slots hl hp hz
    (.inr ⟨rfl, hv⟩ : SlotOf P params { weight := p.weight, commit := { slot.commit with sig } } p)
  exact ⟨⟨h.params_eq, h.participants, h.parttree, ht⟩, slot, p, hl, rfl, hs, rfl⟩

theorem Inv.add (ht : (part.map Participant.weight).sum < 2 ^ 64) (h : Inv P params part tree b)
    {pos : ℕ} (ha : b.add P pos sig true = .ok b') : Inv P params part tree b' := by
  obtain ⟨hc, _, p, hl, hi, hs, hg⟩ := h.toCollects.add ha
  refine ⟨hc, hi ▸ head?_set_l hl h.first, ?_⟩
  have he := totalWeight_le hc.slots
  rw [hg, h.signedWeight, ← hs]
  exact mod_eq_of_lt (he.trans_lt ht)

theorem Collects.prepared (h : Collects P params part tree b) :
    Collects P params part tree b.prepared :=
  ⟨h.params_eq, h.participants, h.parttree, slots_congr b.prepared_weights h.slots⟩

theorem Inv.prepared (h : Inv P params part tree b) : Inv P params part tree b.prepared := by
  refine ⟨h.toCollects.prepared, ?_, h.signedWeight.trans (totalWeight_eq b.prepared_weights).symm⟩
  have hh : b.prepared.sigs.head? = b.sigs.head? := by
    rw [Builder.prepared]
    cases b.sigs <;> rfl
  rw [hh]
  exact h.first

theorem Reached.collects (h : Reached P params part tree b) : Collects P params part tree b := by
  induction h with
  | start => exact .start
  | add _ ha ih => exact (ih.add ha).1
  | build _ _ ih => exact ih.prepared

theorem Reached.inv (ht : (part.map Participant.weight).sum < 2 ^ 64)
    (h : Reached P params part tree b) : Inv P params part tree b := by
  induction h with
  | start => exact .start
  | add _ ha ih => exact ih.add ht ha
  | build _ _ ih => exact ih.prepared

end Builder

end Novarand.CompactCert
