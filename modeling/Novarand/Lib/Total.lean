import Novarand.Lib.Dict

/-!
# Sums over a family of records

`sumOf g f` adds up the measure `g` of the records `f a`, for a family that is the record `b₀`, of
measure 0, almost everywhere. Replacing one record changes the sum by the difference of the two
measures, which is stated without subtraction.
-/

namespace Novarand

open Function Finset

variable {α β : Type*}

/-- The sum of the measures of all records. -/
noncomputable def sumOf (g : β → ℕ) (f : α → β) : ℕ := ∑ᶠ a, g (f a)

/-- Almost all records are `b₀`. -/
def AlmostAll (b₀ : β) (f : α → β) : Prop := {a | f a ≠ b₀}.Finite

variable {b₀ : β} {f f' : α → β} {g h g' : β → ℕ}

theorem sumOf_congr (h1 : ∀ a, g (f a) = g' (f' a)) : sumOf g f = sumOf g' f' :=
  finsum_congr h1

theorem sumOf_mul_right (n : ℕ) : sumOf (fun b => g b * n) f = sumOf g f * n :=
  (finsum_mul _ n).symm

section

variable (hf : AlmostAll b₀ f) (hg : g b₀ = 0)
include hf hg

theorem AlmostAll.hasFiniteSupport : (fun a => g (f a)).HasFiniteSupport := by
  refine Set.Finite.subset hf fun a ha hb => ?_
  have : g (f a) ≠ 0 := ha
  rw [hb, hg] at this
  exact this rfl

theorem sumOf_add (hh : h b₀ = 0) : sumOf (fun b => g b + h b) f = sumOf g f + sumOf h f :=
  finsum_add_distrib (hf.hasFiniteSupport hg) (hf.hasFiniteSupport hh)

theorem le_sumOf (a : α) : g (f a) ≤ sumOf g f :=
  single_le_finsum a (hf.hasFiniteSupport hg) fun _ => Nat.zero_le _

end

variable [DecidableEq α]

theorem AlmostAll.update (hf : AlmostAll b₀ f) (a : α) (b : β) : AlmostAll b₀ (update f a b) := by
  refine (Set.Finite.insert a hf).subset fun i hi => ?_
  by_cases ha : i = a
  · exact .inl ha
  · refine .inr fun hb => hi ?_
    rw [update_of_ne ha]
    exact hb

/-- Replacing one record. -/
theorem sumOf_update (hf : AlmostAll b₀ f) (hg : g b₀ = 0) (a : α) (b : β) :
    sumOf g (update f a b) + g (f a) = sumOf g f + g b := by
  -- both sums range over the finite set where the old family is not `b₀`, and `a`
  have h1 : (insert a {i | f i ≠ b₀}).Finite := Set.Finite.insert a hf
  have hs : ∀ f' : α → β, (∀ i, i ≠ a → f' i = f i) →
      sumOf g f' = g (f' a) + ∑ i ∈ h1.toFinset.erase a, g (f i) := by
    intro f' hf'
    have hu : (Function.support fun i => g (f' i)) ⊆ (h1.toFinset : Set α) := by
      intro i hi
      rw [Set.Finite.coe_toFinset]
      by_cases h2 : i = a
      · exact .inl h2
      · refine .inr fun hb => ?_
        have hn : g (f' i) ≠ 0 := hi
        rw [hf' i h2, hb, hg] at hn
        exact hn rfl
    have ha : a ∈ h1.toFinset := by simp
    rw [sumOf, finsum_eq_sum_of_support_subset _ hu, ← add_sum_erase _ _ ha]
    congr 1
    refine sum_congr rfl fun i hi => ?_
    rw [hf' i (ne_of_mem_erase hi)]
  rw [hs f fun _ _ => rfl, hs _ fun i hi => update_of_ne hi _ _, update_self]
  omega

section

variable (m : Dict α β)

theorem almostAll_lookup : AlmostAll none fun a => m.lookup a := by
  refine (finite_toSet m.keys.toFinset).subset fun a ha => ?_
  rw [List.coe_toFinset]
  by_contra hn
  exact ha (AList.lookup_eq_none.mpr fun hm => hn hm)

theorem almostAll_getD : AlmostAll b₀ fun a => m.getD a b₀ := by
  refine (almostAll_lookup m).subset fun a ha hn => ha ?_
  have hl : m.lookup a = none := hn
  show m.getD a b₀ = b₀
  rw [Dict.getD, hl, Option.getD_none]

/-- The entries of a finite map are added up over its values. -/
theorem sumOf_lookup {g : Option β → ℕ} (hg : g none = 0) :
    sumOf g (fun a => m.lookup a) = (m.values.map fun b => g (some b)).sum := by
  have hs : (Function.support fun a => g (m.lookup a)) ⊆ (m.keys.toFinset : Set α) := by
    intro a ha
    rw [List.coe_toFinset]
    by_contra hn
    have h1 : m.lookup a = none := AList.lookup_eq_none.mpr fun hm => hn hm
    have he : g (m.lookup a) ≠ 0 := ha
    rw [h1, hg] at he
    exact he rfl
  rw [sumOf, finsum_eq_sum_of_support_subset _ hs]
  refine (Dict.sum_values fun k v hk => ?_).symm
  rw [hk]

/-- A family given by a finite map is added up over the values of the map. -/
theorem sumOf_getD (hg : g b₀ = 0) : sumOf g (fun a => m.getD a b₀) = (m.values.map g).sum :=
  sumOf_lookup (g := fun o => g (o.getD b₀)) m hg

end

end Novarand
