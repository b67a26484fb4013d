import Novarand.Lib.Dict

/-!
# The addresses a phonebook gives out

`GetAddresses` of the phonebook: the eligible addresses in the order the map is visited, of which
`shuffleSelect` picks some at random.
-/

namespace Novarand.Network

open List

structure AddressData where
  retryAfter : ℕ := 0
  role : ℕ := 0

abbrev Phonebook := Dict String AddressData

/-- `math.MaxInt32`. -/
def getAllAddresses : ℕ := 2 ^ 31 - 1

/-- What the random generator draws: the `i`-th number, taken below any bound, and a shuffle. -/
structure Draws where
  intn : ℕ → ℕ := fun _ => 0
  shuffle : (n : ℕ) → Equiv.Perm (Fin n) := fun _ => .refl _

def shuffleStrings (d : Draws) (set : List String) : List String :=
  ofFn (set.get ∘ d.shuffle set.length)

/-- The inner loop of `shuffleSelect` over the earlier picks, from index `oi` on. -/
def redirect (pick : ℕ) : List ℕ → ℕ → ℕ
  | [], _ => pick
  | ois :: picks, oi => redirect (if ois = pick then oi else pick) picks (oi + 1)

/-- The first entries of `indexSample`. -/
def indexSample (intn : ℕ → ℕ) (size : ℕ) : ℕ → List ℕ
  | 0 => []
  | i + 1 =>
    let picks := indexSample intn size i
    picks ++ [redirect (intn i % (size - i) + i) picks 0]

def shuffleSelect (d : Draws) (set : List String) (n : ℕ) : List String :=
  if set.length ≤ n ∨ n = getAllAddresses then shuffleStrings d set
  else (indexSample d.intn set.length n).map fun index => set.getD index ""

/-! ## The indexes -/

section

variable {intn : ℕ → ℕ} {size n i pick oi : ℕ} {picks ps : List ℕ}

theorem redirect_lt (h : pick < size) (hl : oi + picks.length ≤ size) :
    redirect pick picks oi < size := by
  induction picks generalizing pick oi with
  | nil => exact h
  | cons _ picks ih =>
    rw [length_cons] at hl
    refine ih ?_ (by omega)
    split_ifs <;> omega

theorem redirect_of_notMem (h : pick ∉ picks) : redirect pick picks oi = pick := by
  induction picks generalizing oi with
  | nil => rfl
  | cons _ picks ih =>
    rw [mem_cons, not_or] at h
    rw [redirect, if_neg (Ne.symm h.1), ih h.2]

@[simp] theorem length_indexSample : (indexSample intn size n).length = n := by
  induction n with
  | zero => rfl
  | succ n ih => simp [indexSample, ih]

theorem indexSample_lt (hn : n ≤ size) : ∀ p ∈ indexSample intn size n, p < size := by
  induction n with
  | zero => simp [indexSample]
  | succ n ih =>
    have hr := Nat.mod_lt (intn n) (by omega : size - n > 0)
    simp only [indexSample, mem_append, mem_singleton]
    rintro p (hp | rfl)
    · exact ih (by omega) p hp
    · exact redirect_lt (by omega) (by simp; omega)

theorem indexSample_mono (h : i ≤ n) : indexSample intn size i <+: indexSample intn size n := by
  induction n, h using Nat.le_induction with
  | base => exact prefix_rfl
  | succ n _ ih => exact ih.trans (prefix_append _ _)

/-- Two picks differ: the second is sent to index 0 if it meets the first. -/
theorem indexSample_nodup (hn : n ≤ 2) : (indexSample intn size n).Nodup := by
  have h2 : (indexSample intn size 2).Nodup := by
    have he : ∀ a b, a ≠ if a = b + 1 then 0 else b + 1 := by
      intro a b
      split_ifs <;> omega
    simpa [indexSample, redirect] using he _ _
  exact h2.sublist (indexSample_mono hn).sublist

/-- Three picks from four or more can meet: 1, 2 and 2, which is sent to the index of 2. -/
theorem indexSample_not_nodup (hn : 2 < n) (hs : n < size) :
    ¬ (indexSample (fun i => if i < 2 then 1 else 0) size n).Nodup := by
  intro h
  have h3 := h.sublist (indexSample_mono hn).sublist
  have h0 : 1 % size = 1 := Nat.mod_eq_of_lt (by omega)
  have h1 : 1 % (size - 1) = 1 := Nat.mod_eq_of_lt (by omega)
  simp [indexSample, redirect, h0, h1] at h3

/-- Increasing indexes are drawn as they are. -/
theorem indexSample_eq (hp : ps.Pairwise (· < ·)) (hl : ∀ p ∈ ps, p < size) :
    indexSample (fun i => ps.getD i 0 - i) size ps.length = ps := by
  have he : ∀ i (hi : i < ps.length), i ≤ ps[i] := by
    intro i hi
    induction i with
    | zero => exact Nat.zero_le _
    | succ i ih =>
      have h1 := ih (by omega)
      have h2 := pairwise_iff_getElem.mp hp i (i + 1) (by omega) hi (by omega)
      omega
  have hk : ∀ k ≤ ps.length, indexSample (fun i => ps.getD i 0 - i) size k = ps.take k := by
    intro k hk
    induction k with
    | zero => rfl
    | succ k ih =>
      have h1 := he k hk
      have h2 := hl _ (getElem_mem hk)
      have hd : (ps[k] - k) % (size - k) + k = ps[k] := by
        rw [Nat.mod_eq_of_lt (by omega)]
        omega
      have hn : ps[k] ∉ ps.take k := by
        intro hm
        obtain ⟨j, _, _⟩ := mem_take_iff_getElem.mp hm
        have h3 := pairwise_iff_getElem.mp hp j k (by omega) hk (by omega)
        omega
      simp only [indexSample, ih (by omega), getD_eq_getElem _ _ hk, hd, redirect_of_notMem hn,
        take_concat_get']
  rw [hk _ le_rfl, take_length]

end

/-! ## The addresses -/

section

variable {set out s : List String} {n : ℕ} {d : Draws}

theorem shuffleStrings_perm : (shuffleStrings d set).Perm set := by
  have h := (d.shuffle set.length).ofFn_comp_perm set.get
  rwa [ofFn_get] at h

/-- A sample of `n` addresses of the set. -/
def IsSample (set : List String) (n : ℕ) (out : List String) : Prop :=
  out.length = min n set.length ∧ out ⊆ set ∧ out.Nodup

theorem IsSample.of_perm (hs : set.Nodup) (hn : set.length ≤ n) (h : out.Perm set) :
    IsSample set n out :=
  ⟨by rw [h.length_eq, Nat.min_eq_right hn], h.subset, h.nodup_iff.mpr hs⟩

/-- Every draw gives a sample exactly if at most two addresses or all of them are asked for. -/
theorem shuffleSelect_isSample_iff (hs : set.Nodup) :
    (∀ d, IsSample set n (shuffleSelect d set n)) ↔ n ≤ 2 ∨ set.length ≤ n := by
  constructor
  · intro h
    by_contra! hn
    obtain ⟨hl, -, hd⟩ := h { intn := fun i => if i < 2 then 1 else 0 }
    unfold shuffleSelect at hl hd
    split_ifs at hl hd with h1
    · rw [shuffleStrings_perm.length_eq] at hl
      omega
    · exact indexSample_not_nodup hn.1 hn.2 (hd.of_map _)
  · intro h d
    unfold shuffleSelect
    split_ifs with h1
    · have hn : set.length ≤ n := by
        unfold getAllAddresses at h1
        omega
      exact .of_perm hs hn shuffleStrings_perm
    · have ht := @indexSample_lt d.intn set.length n (by omega)
      refine ⟨by simp; omega, ?_, ?_⟩
      · intro a ha
        obtain ⟨p, hp, rfl⟩ := mem_map.mp ha
        rw [getD_eq_getElem _ _ (ht p hp)]
        exact getElem_mem _
      · refine (indexSample_nodup (by omega)).map_on fun p hp q hq he => ?_
        rw [getD_eq_getElem _ _ (ht p hp), getD_eq_getElem _ _ (ht q hq)] at he
        exact hs.getElem_inj_iff.mp he

/-- Every sample can be drawn, up to its order. -/
theorem shuffleSelect_possible (he : set.Nodup) (hn : n ≠ getAllAddresses ∨ set.length ≤ n)
    (hs : IsSample set n s) : ∃ d, (shuffleSelect d set n).Perm s := by
  obtain ⟨_, hu, hd⟩ := hs
  unfold shuffleSelect
  by_cases hle : set.length ≤ n
  · have hp := (hd.subperm hu).perm_of_length_le (by omega)
    exact ⟨{}, by rw [if_pos (.inl hle)]; exact shuffleStrings_perm.trans hp.symm⟩
  · let ps := (range set.length).filter fun i => set.getD i "" ∈ s
    have hm : ps.map (set.getD · "") = set.filter (· ∈ s) := by
      have he : (range set.length).map (set.getD · "") = set := by
        refine ext_getElem (by simp) fun i h1 h2 => ?_
        rw [getElem_map, getElem_range, getD_eq_getElem _ _ h2]
      conv_rhs => rw [← he, filter_map]
      rfl
    have hp : (set.filter (· ∈ s)).Perm s := by
      refine (perm_ext_iff_of_nodup (he.filter _) hd).mpr fun a => ?_
      simpa using fun ha => hu ha
    have hl : ps.length = n := by
      rw [← length_map (set.getD · ""), hm, hp.length_eq]
      omega
    have h3 := @indexSample_eq set.length ps (pairwise_lt_range.filter _)
      fun p hp => mem_range.mp (mem_filter.mp hp).1
    refine ⟨{ intn := fun i => ps.getD i 0 - i }, ?_⟩
    rw [if_neg (by omega), ← hl, h3, hm]
    exact hp

end

/-! ## The phonebook -/

variable (pb : Phonebook) (t role : ℕ)

/-- The check of `filterRetryTime` on an entry. -/
def Phonebook.eligible (addr : String) : Bool :=
  (pb.lookup addr).any fun entry => entry.retryAfter < t && role == entry.role

/-- `filterRetryTime`, for a map that is visited in the order of `addrs`. -/
def Phonebook.filterRetryTime (addrs : List String) : List String := addrs.filter (pb.eligible t role)

def Phonebook.getAddresses (addrs : List String) (d : Draws) (n : ℕ) : List String :=
  shuffleSelect d (pb.filterRetryTime t role addrs) n

/-- The phonebook gives out a sample of the eligible addresses, whatever is drawn, exactly if at most
two or all are asked for; and every sample can come out. -/
theorem getAddresses_isSample_iff {addrs : List String} (h : addrs.Perm pb.keys) (n : ℕ) :
    let eligible := pb.keys.filter (pb.eligible t role)
    ((∀ d, IsSample eligible n (pb.getAddresses t role addrs d n)) ↔
      n ≤ 2 ∨ eligible.length ≤ n) ∧
      (n ≠ getAllAddresses ∨ eligible.length ≤ n → ∀ s, IsSample eligible n s →
        ∃ d, (pb.getAddresses t role addrs d n).Perm s) := by
  intro eligible
  have hp : (pb.filterRetryTime t role addrs).Perm eligible := h.filter _
  have hd : (pb.filterRetryTime t role addrs).Nodup :=
    hp.nodup_iff.mpr (pb.nodupKeys.filter _)
  have hs : ∀ out, IsSample (pb.filterRetryTime t role addrs) n out ↔ IsSample eligible n out := by
    simp [IsSample, hp.length_eq, subset_def, hp.mem_iff]
  simp only [← hs, ← hp.length_eq]
  exact ⟨shuffleSelect_isSample_iff hd, fun hn s hs => shuffleSelect_possible hd hn hs⟩

/-- Four addresses. -/
def fourAddresses : Phonebook := (["a", "b", "c", "d"].map fun addr => ⟨addr, {}⟩).toAList

theorem getAddresses_isSample_iff_four :
    let eligible := fourAddresses.keys.filter (fourAddresses.eligible 1 0)
    ((∀ d, IsSample eligible 2 (fourAddresses.getAddresses 1 0 fourAddresses.keys d 2)) ↔
      2 ≤ 2 ∨ eligible.length ≤ 2) ∧
      (2 ≠ getAllAddresses ∨ eligible.length ≤ 2 → ∀ s, IsSample eligible 2 s →
        ∃ d, (fourAddresses.getAddresses 1 0 fourAddresses.keys d 2).Perm s) :=
  getAddresses_isSample_iff fourAddresses 1 0 (.refl _) 2

/-- Three of the four are asked for, and one is given twice. -/
theorem getAddresses_twice :
    fourAddresses.getAddresses 1 0 fourAddresses.keys { intn := fun i => if i < 2 then 1 else 0 } 3 =
      ["b", "c", "b"] := by decide +kernel

end Novarand.Network
