import Mathlib

/-!
# Weighted ballots with equivocation

A set of ballots says who voted for what. A voter with ballots for two values equivocates, and
then counts for every value: the tally of a value is the weight of the voters whose only choice it
is, plus the weight of all equivocators. Tallies grow with the set of ballots, and one more ballot
changes the sets of supporters and equivocators in one of three ways.
-/

namespace Novarand.Tally

open Finset

variable {α β : Type*} [DecidableEq α] [DecidableEq β]

/-- The values a voter has ballots for. -/
def choices (B : Finset (α × β)) (a : α) : Finset β :=
  (B.filter fun b => b.1 = a).image Prod.snd

def Equivocates (B : Finset (α × β)) (a : α) : Prop := 1 < (choices B a).card

instance (B : Finset (α × β)) (a : α) : Decidable (Equivocates B a) :=
  inferInstanceAs (Decidable (1 < _))

/-- The voters whose only choice is `x`. -/
def supporters (B : Finset (α × β)) (x : β) : Finset α :=
  (B.image Prod.fst).filter fun a => choices B a = {x}

def equivocators (B : Finset (α × β)) : Finset α :=
  (B.image Prod.fst).filter (Equivocates B)

/-- What the ballots weigh for `x`. -/
def tally (w : α → ℕ) (B : Finset (α × β)) (x : β) : ℕ :=
  ∑ a ∈ supporters B x, w a + ∑ a ∈ equivocators B, w a

variable {B B' : Finset (α × β)} {a b : α} {x y z : β} {w : α → ℕ}

@[simp] theorem mem_choices : x ∈ choices B a ↔ (a, x) ∈ B := by
  simp [choices]

theorem equivocates_iff : Equivocates B a ↔ ∃ x y, (a, x) ∈ B ∧ (a, y) ∈ B ∧ x ≠ y := by
  simp only [Equivocates, one_lt_card, mem_choices]
  constructor
  · rintro ⟨x, hx, y, hy, hne⟩
    exact ⟨x, y, hx, hy, hne⟩
  · rintro ⟨x, y, hx, hy, hne⟩
    exact ⟨x, hx, y, hy, hne⟩

theorem mem_supporters : a ∈ supporters B x ↔ (a, x) ∈ B ∧ ¬Equivocates B a := by
  simp only [supporters, mem_filter, mem_image]
  constructor
  · rintro ⟨-, h⟩
    have hx : x ∈ choices B a := h ▸ mem_singleton_self x
    exact ⟨mem_choices.mp hx, by simp [Equivocates, h]⟩
  · rintro ⟨hx, hne⟩
    have hm : x ∈ choices B a := mem_choices.mpr hx
    refine ⟨⟨(a, x), hx, rfl⟩, eq_singleton_iff_unique_mem.mpr ⟨hm, fun y hy => ?_⟩⟩
    by_contra h1
    exact hne (equivocates_iff.mpr ⟨y, x, mem_choices.mp hy, hx, h1⟩)

theorem mem_equivocators : a ∈ equivocators B ↔ Equivocates B a := by
  simp only [equivocators, mem_filter, mem_image, and_iff_right_iff_imp]
  intro h
  obtain ⟨x, -, hx, -⟩ := equivocates_iff.mp h
  exact ⟨(a, x), hx, rfl⟩

theorem Equivocates.mono (h : Equivocates B a) (hB : B ⊆ B') : Equivocates B' a := by
  obtain ⟨x, y, hx, hy, hne⟩ := equivocates_iff.mp h
  exact equivocates_iff.mpr ⟨x, y, hB hx, hB hy, hne⟩

/-- A voter who does not equivocate has one choice. -/
theorem choice_unique (h : ¬Equivocates B a) (hx : (a, x) ∈ B) (hy : (a, y) ∈ B) : x = y := by
  by_contra hne
  exact h (equivocates_iff.mpr ⟨x, y, hx, hy, hne⟩)

/-! ## Tallies -/

theorem disjoint_supporters_equivocators : Disjoint (supporters B x) (equivocators B) :=
  disjoint_left.mpr fun _ hs he => (mem_supporters.mp hs).2 (mem_equivocators.mp he)

theorem tally_eq_sum : tally w B x = ∑ a ∈ supporters B x ∪ equivocators B, w a :=
  (sum_union disjoint_supporters_equivocators).symm

/-- **More ballots weigh more**: a supporter who equivocates later counts on. -/
theorem tally_mono (hB : B ⊆ B') : tally w B x ≤ tally w B' x := by
  rw [tally_eq_sum, tally_eq_sum]
  refine sum_le_sum_of_subset fun a ha => ?_
  rw [mem_union, mem_equivocators, mem_supporters] at ha ⊢
  by_cases he : Equivocates B' a
  · exact .inr he
  · rcases ha with ⟨hx, -⟩ | h
    · exact .inl ⟨hB hx, he⟩
    · exact absurd (h.mono hB) he

theorem sum_equivocators_le_tally : ∑ a ∈ equivocators B, w a ≤ tally w B x :=
  Nat.le_add_left _ _

/-- A value weighs more than the equivocators only with a supporter of its own. -/
theorem supporters_nonempty (h : ∑ a ∈ equivocators B, w a < tally w B x) :
    (supporters B x).Nonempty := by
  rw [nonempty_iff_ne_empty]
  intro he
  simp [tally, he] at h

/-! ## One more ballot -/

/-- The first ballot of a voter. -/
theorem equivocates_insert_fresh (h : ∀ y, (a, y) ∉ B) :
    Equivocates (insert (a, x) B) b ↔ Equivocates B b := by
  refine ⟨fun he => ?_, fun he => he.mono (subset_insert _ _)⟩
  obtain ⟨y, z, hy, hz, hne⟩ := equivocates_iff.mp he
  rw [mem_insert] at hy hz
  rcases hy with ⟨rfl, rfl⟩ | hy
  · rcases hz with ⟨-, rfl⟩ | hz
    · exact absurd rfl hne
    · exact absurd hz (h z)
  · rcases hz with ⟨rfl, rfl⟩ | hz
    · exact absurd hy (h y)
    · exact equivocates_iff.mpr ⟨y, z, hy, hz, hne⟩

theorem supporters_insert_fresh (h : ∀ y, (a, y) ∉ B) :
    supporters (insert (a, x) B) y = if y = x then insert a (supporters B y) else supporters B y := by
  have hn : ¬Equivocates B a := fun he => by
    obtain ⟨z, -, hz, -⟩ := equivocates_iff.mp he
    exact h z hz
  ext b
  split_ifs with hx
  · subst hx
    rw [mem_supporters, equivocates_insert_fresh h, mem_insert, mem_insert,
      mem_supporters, Prod.mk.injEq]
    constructor
    · rintro ⟨⟨rfl, -⟩ | hb, he⟩
      · exact .inl rfl
      · exact .inr ⟨hb, he⟩
    · rintro (rfl | ⟨hb, he⟩)
      · exact ⟨.inl ⟨rfl, rfl⟩, hn⟩
      · exact ⟨.inr hb, he⟩
  · rw [mem_supporters, equivocates_insert_fresh h, mem_supporters, mem_insert]
    simp [hx]

theorem equivocators_insert_fresh (h : ∀ y, (a, y) ∉ B) :
    equivocators (insert (a, x) B) = equivocators B := by
  ext b
  rw [mem_equivocators, mem_equivocators, equivocates_insert_fresh h]

/-- A further ballot of an equivocator. -/
theorem equivocates_insert_known (h : Equivocates B a) :
    Equivocates (insert (a, x) B) b ↔ Equivocates B b := by
  refine ⟨fun he => ?_, fun he => he.mono (subset_insert _ _)⟩
  by_cases ha : b = a
  · exact ha ▸ h
  · obtain ⟨y, z, hy, hz, hne⟩ := equivocates_iff.mp he
    simp only [mem_insert, Prod.mk.injEq, ha, false_and, false_or] at hy hz
    exact equivocates_iff.mpr ⟨y, z, hy, hz, hne⟩

theorem supporters_insert_known (h : Equivocates B a) :
    supporters (insert (a, x) B) y = supporters B y := by
  ext b
  rw [mem_supporters, mem_supporters, equivocates_insert_known h, mem_insert]
  constructor
  · rintro ⟨⟨rfl, -⟩ | hb, he⟩
    · exact absurd h he
    · exact ⟨hb, he⟩
  · rintro ⟨hb, he⟩
    exact ⟨.inr hb, he⟩

theorem equivocators_insert_known (h : Equivocates B a) :
    equivocators (insert (a, x) B) = equivocators B := by
  ext b
  rw [mem_equivocators, mem_equivocators, equivocates_insert_known h]

section

variable (hy : (a, y) ∈ B) (hne : y ≠ x)
include hy hne

/-- The ballot by which a voter starts to equivocate. -/
theorem equivocates_insert_second : Equivocates (insert (a, x) B) b ↔ b = a ∨ Equivocates B b := by
  constructor
  · intro he
    by_cases ha : b = a
    · exact .inl ha
    · obtain ⟨z, z', hz, hz', hn'⟩ := equivocates_iff.mp he
      simp only [mem_insert, Prod.mk.injEq, ha, false_and, false_or] at hz hz'
      exact .inr (equivocates_iff.mpr ⟨z, z', hz, hz', hn'⟩)
  · rintro (rfl | he)
    · exact equivocates_iff.mpr ⟨y, x, mem_insert_of_mem hy, mem_insert_self _ _, hne⟩
    · exact he.mono (subset_insert _ _)

theorem supporters_insert_second :
    supporters (insert (a, x) B) z = (supporters B z).erase a := by
  ext b
  rw [mem_supporters, equivocates_insert_second hy hne, mem_erase, mem_supporters,
    mem_insert, not_or]
  constructor
  · rintro ⟨⟨rfl, -⟩ | hb, ha, he⟩
    · exact absurd rfl ha
    · exact ⟨ha, hb, he⟩
  · rintro ⟨ha, hb, he⟩
    exact ⟨.inr hb, ha, he⟩

theorem equivocators_insert_second :
    equivocators (insert (a, x) B) = insert a (equivocators B) := by
  ext b
  rw [mem_equivocators, equivocates_insert_second hy hne, mem_insert, mem_equivocators]

end

end Novarand.Tally
