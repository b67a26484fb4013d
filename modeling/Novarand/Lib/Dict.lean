import Mathlib

/-!
# Finite maps

Finite maps with a constant value type are `AList`s; this module adds the two operations a
garbage-collected table needs (`touch`, which creates a missing entry, and `filterKeys`, which
drops entries by key) and the lemmas about their `lookup`.
-/

namespace Novarand

open List AList

/-- A finite map from `K` to `V`. -/
abbrev Dict (K V : Type*) := AList (fun _ : K => V)

namespace Dict

variable {K V W : Type*} [DecidableEq K]

/-- Values of the map, in the order of its entries. -/
def values (m : Dict K V) : List V := m.entries.map (fun e => e.2)

/-- The entry at `k`, or `d` when there is none. -/
def getD (m : Dict K V) (k : K) (d : V) : V := (m.lookup k).getD d

/-- Create the entry `k` with value `d` unless it exists. -/
def touch (m : Dict K V) (k : K) (d : V) : Dict K V :=
  match m.lookup k with
  | some _ => m
  | none => m.insert k d

/-- Set the entry `k`: in its place when it exists, else at the end. -/
def upsert (m : Dict K V) (k : K) (v : V) : Dict K V :=
  if h : k ∈ m then m.replace k v
  else {
    entries := m.entries ++ [⟨k, v⟩]
    nodupKeys := by
      have hkey : k ∉ m.entries.keys := h
      rw [List.NodupKeys, List.keys, map_append, nodup_append]
      refine ⟨m.nodupKeys, by simp, fun a ha b hb => ?_⟩
      obtain rfl : b = k := by simpa using hb
      exact fun hab => hkey (hab ▸ ha) }

/-- Set the entries of `m'`, passed through `g`, in their order. -/
def mergeWith (g : K → V → V) (m m' : Dict K V) : Dict K V :=
  m'.entries.foldl (fun acc e => acc.upsert e.1 (g e.1 e.2)) m

/-- Set the entries of `m'`. -/
def merge (m m' : Dict K V) : Dict K V := m.mergeWith (fun _ v => v) m'

/-- Keep the entries whose key satisfies `p`. -/
def filterKeys (p : K → Bool) (m : Dict K V) : Dict K V where
  entries := m.entries.filter (fun e => p e.1)
  nodupKeys := by
    have hsub : (m.entries.filter fun e => p e.1).keys.Sublist m.entries.keys :=
      filter_sublist.map _
    exact hsub.nodup m.nodupKeys

/-! ## Lookups -/

variable {m : Dict K V} {k k' : K}

theorem mem_iff : k ∈ m ↔ ∃ v, m.lookup k = some v := by
  rw [← lookup_isSome, Option.isSome_iff_exists]

section

variable (m : Dict K V) (k k' : K)

theorem lookup_insert' (v : V) :
    AList.lookup k (m.insert k' v) = if k = k' then some v else m.lookup k := by
  by_cases h : k = k'
  · subst h
    rw [if_pos rfl, lookup_insert]
  · rw [if_neg h, lookup_insert_ne h]

theorem lookup_erase' : AList.lookup k (m.erase k') = if k = k' then none else m.lookup k := by
  by_cases h : k = k'
  · subst h
    rw [if_pos rfl, lookup_erase]
  · rw [if_neg h, lookup_erase_ne h]

theorem lookup_touch (d : V) :
    AList.lookup k (m.touch k' d) = if k = k' then some (m.getD k' d) else m.lookup k := by
  unfold touch getD
  by_cases h : k = k'
  · subst h
    cases hm : m.lookup k with
    | none => rw [if_pos rfl, lookup_insert]; rfl
    | some v => rw [if_pos rfl, hm]; rfl
  · rw [if_neg h]
    cases hm : m.lookup k' with
    | none => exact lookup_insert_ne h
    | some v => rfl

end

theorem dlookup_kreplace (l : List (Σ _ : K, V)) (k k' : K) (v : V) (hk : k' ∈ l.keys) :
    (List.kreplace k' v l).dlookup k = if k = k' then some v else l.dlookup k := by
  induction l with
  | nil => simp at hk
  | cons e l ih =>
    obtain ⟨k0, v0⟩ := e
    by_cases h0 : k' = k0
    · subst h0
      have hs : List.kreplace k' v (⟨k', v0⟩ :: l) = ⟨k', v⟩ :: l :=
        lookmap_cons_some _ _ (if_pos rfl)
      rw [hs]
      by_cases h : k = k'
      · subst h
        rw [dlookup_cons_eq, if_pos rfl]
      · rw [dlookup_cons_ne _ _ h, if_neg h, dlookup_cons_ne _ _ h]
    · have hk' : k' ∈ l.keys := by
        rcases mem_cons.mp hk with h | h
        · exact absurd h h0
        · exact h
      have hs : List.kreplace k' v (⟨k0, v0⟩ :: l) = ⟨k0, v0⟩ :: List.kreplace k' v l :=
        lookmap_cons_none _ _ (if_neg h0)
      rw [hs]
      by_cases h : k = k0
      · subst h
        rw [dlookup_cons_eq, if_neg (Ne.symm h0), dlookup_cons_eq]
      · rw [dlookup_cons_ne _ _ h, ih hk', dlookup_cons_ne _ _ h]

theorem lookup_upsert (m : Dict K V) (k k' : K) (v : V) :
    AList.lookup k (m.upsert k' v) = if k = k' then some v else m.lookup k := by
  unfold upsert
  split
  case isTrue hk => exact dlookup_kreplace m.entries k k' v hk
  case isFalse hk =>
    have hn : m.entries.dlookup k' = none := dlookup_eq_none.mpr hk
    simp only [AList.lookup, dlookup_append]
    by_cases h : k = k'
    · subst h
      simp [hn]
    · simp [h]

/-- Setting a new entry adds it and changes nothing else. -/
theorem lookup_upsert_new (h : m.lookup k = none) (v : V) (k' : K) (v' : V) :
    AList.lookup k' (m.upsert k v) = some v' ↔ m.lookup k' = some v' ∨ k = k' ∧ v = v' := by
  rw [lookup_upsert]
  by_cases hk : k' = k
  · subst hk
    simp [h]
  · simp [hk, Ne.symm hk]

theorem mem_upsert {v : V} : k ∈ m.upsert k' v ↔ k = k' ∨ k ∈ m := by
  rw [← lookup_isSome, lookup_upsert, ← lookup_isSome]
  split <;> simp_all

theorem lookup_foldl_upsert (g : K → W → V) (l : List (Σ _ : K, W)) (hl : l.NodupKeys)
    (m : Dict K V) (k : K) :
    AList.lookup k (l.foldl (fun acc e => upsert acc e.1 (g e.1 e.2)) m) =
      ((l.dlookup k).map (g k)).or (m.lookup k) := by
  induction l generalizing m with
  | nil => simp
  | cons e l ih =>
    obtain ⟨k0, _⟩ := e
    obtain ⟨hn, hl'⟩ := nodupKeys_cons.mp hl
    rw [foldl_cons, ih hl', lookup_upsert]
    by_cases h : k = k0
    · subst h
      rw [dlookup_eq_none.mpr hn]
      simp
    · rw [dlookup_cons_ne _ _ h, if_neg h]

theorem lookup_mergeWith (g : K → V → V) (m m' : Dict K V) (k : K) :
    AList.lookup k (m.mergeWith g m') = ((m'.lookup k).map (g k)).or (m.lookup k) :=
  lookup_foldl_upsert g m'.entries m'.nodupKeys m k

theorem lookup_merge (m m' : Dict K V) (k : K) :
    AList.lookup k (m.merge m') = (m'.lookup k).or (m.lookup k) := by
  rw [merge, lookup_mergeWith]
  simp

theorem lookup_filterKeys (p : K → Bool) (m : Dict K V) (k : K) :
    AList.lookup k (m.filterKeys p) = if p k then m.lookup k else none := by
  obtain ⟨l, hl⟩ := m
  simp only [filterKeys, AList.lookup]
  induction l with
  | nil => simp
  | cons e l ih =>
    obtain ⟨k', v⟩ := e
    have hl' := nodupKeys_cons.mp hl
    by_cases hk : k = k'
    · subst hk
      by_cases hp : p k
      · simp [hp]
      · have hn : (l.filter fun e => p e.1).dlookup k = none := by rw [ih hl'.2, if_neg hp]
        simp [hp, hn]
    · by_cases hp : p k'
      · rw [filter_cons_of_pos (by simpa using hp), dlookup_cons_ne _ _ hk,
          dlookup_cons_ne _ _ hk, ih hl'.2]
      · rw [filter_cons_of_neg (by simpa using hp), dlookup_cons_ne _ _ hk, ih hl'.2]

@[simp] theorem getD_empty (k : K) (d : V) : (∅ : Dict K V).getD k d = d := by
  simp [getD]

section

variable (m : Dict K V) (k k' : K)

theorem getD_insert (v d : V) : getD (m.insert k' v) k d = if k = k' then v else m.getD k d := by
  unfold getD
  rw [lookup_insert']
  split_ifs <;> rfl

theorem getD_erase (d : V) : getD (m.erase k') k d = if k = k' then d else m.getD k d := by
  unfold getD
  rw [lookup_erase']
  split_ifs <;> rfl

theorem getD_touch (d : V) : (m.touch k' d).getD k d = m.getD k d := by
  unfold getD
  rw [lookup_touch]
  by_cases h : k = k'
  · subst h
    rw [if_pos rfl]; rfl
  · rw [if_neg h]

end

theorem getD_merge (m m' : Dict K V) (k : K) (d : V) :
    (m.merge m').getD k d = m'.getD k (m.getD k d) := by
  simp only [getD, lookup_merge]
  cases m'.lookup k <;> rfl

theorem getD_filterKeys {p : K → Bool} (hk : p k = true) (m : Dict K V) (d : V) :
    (m.filterKeys p).getD k d = m.getD k d := by
  unfold getD
  rw [lookup_filterKeys, if_pos hk]

theorem lookup_of_keys_eq_nil (h : m.keys = []) (k : K) : m.lookup k = none := by
  refine lookup_eq_none.mpr fun hk => ?_
  rw [AList.mem_keys, h] at hk
  cases hk

theorem mem_values {x : V} : x ∈ m.values ↔ ∃ k, m.lookup k = some x := by
  simp only [values, mem_map]
  constructor
  · rintro ⟨⟨k, y⟩, hk, rfl⟩
    exact ⟨k, (mem_dlookup_iff m.nodupKeys).mpr hk⟩
  · rintro ⟨k, hk⟩
    exact ⟨⟨k, x⟩, (mem_dlookup_iff m.nodupKeys).mp hk, rfl⟩

/-- Summing over the values is summing over the keys. -/
theorem sum_values {f : V → ℕ} {g : K → ℕ} (h : ∀ k v, m.lookup k = some v → f v = g k) :
    (m.values.map f).sum = ∑ k ∈ m.keys.toFinset, g k := by
  have hk : m.keys.Nodup := keys_nodup m
  rw [sum_toFinset g hk, values, AList.keys, List.keys, map_map, map_map]
  congr 1
  refine map_congr_left fun e he => ?_
  exact h e.1 e.2 ((mem_dlookup_iff m.nodupKeys).mpr he)

end Dict

end Novarand
