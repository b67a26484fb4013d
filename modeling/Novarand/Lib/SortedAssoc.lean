import Mathlib

/-!
# Entries sorted by their keys

Association lists with increasing keys, as arrays that are searched for the first entry whose key is not
below the one asked for.
-/

namespace Novarand.SortedAssoc

open List

/-- Bytes in their usual order. -/
instance byteOrder : LinearOrder UInt8 where
  __ := (inferInstance : LE UInt8)
  __ := (inferInstance : LT UInt8)
  le_refl a := UInt8.le_refl a
  le_trans _ _ _ h h' := UInt8.le_trans h h'
  lt_iff_le_not_ge a b := by
    simp only [UInt8.lt_iff_toNat_lt, UInt8.le_iff_toNat_le]
    omega
  le_antisymm _ _ h h' := UInt8.le_antisymm h h'
  le_total a b := UInt8.le_total a b
  toDecidableLE := inferInstance
  toDecidableLT := inferInstance

variable {K α : Type*} [LinearOrder K]

/-- The keys increase. -/
abbrev Sorted (l : List (K × α)) : Prop := l.Pairwise fun e e' => e.1 < e'.1

/-- The value of the first entry whose key is not below `k`. -/
def get (k : K) : List (K × α) → Option α
  | [] => none
  | e :: l => if k ≤ e.1 then some e.2 else get k l

/-- Replace the value of that entry. -/
def set (k : K) (v : α) : List (K × α) → List (K × α)
  | [] => []
  | e :: l => if k ≤ e.1 then (e.1, v) :: l else e :: set k v l

/-- Remove that entry. -/
def erase (k : K) : List (K × α) → List (K × α)
  | [] => []
  | e :: l => if k ≤ e.1 then l else e :: erase k l

/-- Put a new entry before the first one with a larger key. -/
def insert (k : K) (v : α) : List (K × α) → List (K × α)
  | [] => [(k, v)]
  | e :: l => if k < e.1 then (k, v) :: e :: l else e :: insert k v l

variable {k : K} {v v' : α} {e : K × α} {l : List (K × α)}

theorem keys_set (k : K) (v : α) (l : List (K × α)) : (set k v l).map (·.1) = l.map (·.1) := by
  induction l with
  | nil => rfl
  | cons e l ih =>
    rw [set]
    split_ifs
    · rfl
    · rw [map_cons, ih, map_cons]

theorem erase_sublist (k : K) (l : List (K × α)) : (erase k l).Sublist l := by
  induction l with
  | nil => exact .slnil
  | cons e l ih =>
    rw [erase]
    split_ifs
    · exact sublist_cons_self e l
    · exact ih.cons_cons e

theorem mem_insert : e ∈ insert k v l ↔ e = (k, v) ∨ e ∈ l := by
  induction l with
  | nil => simp [insert]
  | cons a l ih =>
    rw [insert]
    split_ifs
    · exact mem_cons
    · rw [mem_cons, ih, mem_cons]
      exact or_left_comm

/-- A key above all others goes to the end. -/
theorem insert_last (h : ∀ e ∈ l, e.1 < k) : insert k v l = l ++ [(k, v)] := by
  induction l with
  | nil => rfl
  | cons e l ih =>
    obtain ⟨he, hl⟩ := forall_mem_cons.mp h
    rw [insert, if_neg he.not_gt, ih hl, cons_append]

section

variable (hl : Sorted l)
include hl

/-- An entry is the first whose key is not below its own: this is where it is found, set and erased. -/
theorem Sorted.split (h : (k, v) ∈ l) :
    ∃ l₁ l₂, l = l₁ ++ (k, v) :: l₂ ∧ (∀ e ∈ l₁ ++ l₂, e.1 ≠ k) ∧ get k l = some v ∧
      (∀ v', set k v' l = l₁ ++ (k, v') :: l₂) ∧ erase k l = l₁ ++ l₂ := by
  induction l with
  | nil => cases h
  | cons a l ih =>
    obtain ⟨hh, ht⟩ := pairwise_cons.mp hl
    rcases mem_cons.mp h with rfl | hm
    · exact ⟨[], l, rfl, fun e he => (hh e he).ne', if_pos le_rfl, fun _ => if_pos le_rfl,
        if_pos le_rfl⟩
    · have hlt : ¬ k ≤ a.1 := not_le.mpr (hh _ hm)
      obtain ⟨l₁, l₂, he, hn, hg, hs, hr⟩ := ih ht hm
      refine ⟨a :: l₁, l₂, congrArg (a :: ·) he, forall_mem_cons.mpr ⟨(hh _ hm).ne, hn⟩,
        (if_neg hlt).trans hg, fun v' => ?_, ?_⟩
      · exact (if_neg hlt).trans (congrArg (a :: ·) (hs v'))
      · exact (if_neg hlt).trans (congrArg (a :: ·) hr)

theorem get_of_mem (h : (k, v) ∈ l) : get k l = some v := by
  obtain ⟨_, _, -, -, hg, -⟩ := hl.split h
  exact hg

theorem mem_set (h : (k, v) ∈ l) : e ∈ set k v' l ↔ e = (k, v') ∨ e ∈ l ∧ e.1 ≠ k := by
  obtain ⟨l₁, l₂, he, hn, -, hs, -⟩ := hl.split h
  have hm := hn e
  rw [hs, he]
  simp only [mem_append, mem_cons] at hm ⊢
  grind

theorem Sorted.set (k : K) (v : α) : Sorted (set k v l) := by
  have h : (l.map (·.1)).Pairwise (· < ·) := pairwise_map.mpr hl
  rw [← keys_set k v l] at h
  exact pairwise_map.mp h

theorem Sorted.erase (k : K) : Sorted (erase k l) :=
  List.Pairwise.sublist (erase_sublist k l) hl

theorem mem_erase (h : (k, v) ∈ l) : e ∈ erase k l ↔ e ∈ l ∧ e.1 ≠ k := by
  obtain ⟨l₁, l₂, he, hn, -, -, hr⟩ := hl.split h
  have hm := hn e
  rw [hr, he]
  simp only [mem_append, mem_cons] at hm ⊢
  grind

theorem Sorted.insert (hn : ∀ e ∈ l, e.1 ≠ k) : Sorted (insert k v l) := by
  induction l with
  | nil => exact pairwise_singleton _ _
  | cons a l ih =>
    obtain ⟨hh, ht⟩ := pairwise_cons.mp hl
    obtain ⟨hne, hr⟩ := forall_mem_cons.mp hn
    rw [SortedAssoc.insert]
    split_ifs with hlt
    · refine pairwise_cons.mpr ⟨fun e he => ?_, hl⟩
      rcases mem_cons.mp he with rfl | he
      · exact hlt
      · exact hlt.trans (hh e he)
    · have ha : a.1 < k := lt_of_le_of_ne (not_lt.mp hlt) hne
      refine pairwise_cons.mpr ⟨fun e he => ?_, ih ht hr⟩
      rcases mem_insert.mp he with rfl | he
      · exact ha
      · exact hh e he

/-- Two entries with one key are the same. -/
theorem Sorted.eq_of_key (h : (k, v) ∈ l) (h' : (k, v') ∈ l) : v = v' :=
  Option.some.inj ((get_of_mem hl h).symm.trans (get_of_mem hl h'))

end

end Novarand.SortedAssoc
