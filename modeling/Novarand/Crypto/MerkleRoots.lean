import Novarand.Crypto.MerkleComplete

/-!
# Trees with the same root

Going down from a common root, two trees have the same layers: a pair of digests is read off the hash
of its node, and a digest that is missing on the right counts as zeros, which no hash gives. The
lower tree ends where its leaves are, and those are not hashes of nodes.
-/

namespace Novarand.MerkleArray

open Crypto List Option

variable {H : Hashing} {t : HashType}

/-- The node over the pair at `2 * j`. -/
def nodeAt (t : HashType) (layer : Layer) (j : ℕ) : Hashable :=
  { id := .merkleArrayNode
    data := layer[2 * j]?.getD [] ++
      fit (2 * t.size - (layer[2 * j]?.getD []).length) (layer[2 * j + 1]?.getD []) }

/-- What is hashed for the next layer. -/
def layerInputs (t : HashType) (layer : Layer) : Set Bytes :=
  {x | ∃ j, 2 * j < layer.length ∧ x = (nodeAt t layer j).hashRep}

/-- What is hashed for the layers above the given one. -/
def levelInputs (t : HashType) (levels : List Layer) : Set Bytes :=
  {x | ∃ layer ∈ levels, 1 < layer.length ∧ x ∈ layerInputs t layer}

/-- Everything that is hashed to build a tree over the array. -/
def treeInputs (t : HashType) (array : HashableArray) (levels : List Layer) : Set Bytes :=
  {x | ∃ i < array.length, ∃ e, array.marshal i = .ok e ∧ x = e.hashRep} ∪ levelInputs t levels

/-- The digests of a layer are hashes of strings of the set. -/
def HashedFrom (H : Hashing) (t : HashType) (S : Set Bytes) (layer : Layer) : Prop :=
  ∀ d ∈ layer, ∃ x ∈ S, d = H.sum t x

/-- A hash is not all zeros. -/
def NonZero (H : Hashing) (t : HashType) (S : Set Bytes) : Prop :=
  ∀ x ∈ S, H.sum t x ≠ List.replicate t.size 0

variable {S : Set Bytes} {layer next : Layer} {ls ls' : List Layer}

theorem HashedFrom.sized (h : HashedFrom H t S layer) : Sized t layer := by
  intro d hd
  obtain ⟨x, -, rfl⟩ := h d hd
  exact H.length_sum t x

variable {n j i : ℕ}

theorem fit_of_length {b : Bytes} (h : b.length = n) : fit n b = b := by
  rw [fit, h, Nat.sub_self, take_of_length_le h.le]
  exact append_nil b

theorem fit_nil (n : ℕ) : fit n [] = List.replicate n 0 := by
  rw [fit, take_nil]
  rfl

/-- The next layer is that of the hashed nodes. -/
theorem IsNext.get (h : IsNext H t layer next) (hs : Sized t layer) (hj : 2 * j < layer.length) :
    next[j]? = some (H.sum t (nodeAt t layer j).hashRep) := by
  obtain ⟨l, d, hl, hn, hp⟩ := h.node j hj
  have he : l.length = t.size := hs l (mem_of_getElem? hl)
  rw [hashPair_ok (by omega)] at hp
  rw [hn, ← Except.ok.inj hp, nodeAt, hl]
  rfl

theorem IsNext.hashedFrom (h : IsNext H t layer next) (hs : Sized t layer) :
    HashedFrom H t (layerInputs t layer) next := by
  intro d hd
  obtain ⟨j, hj, rfl⟩ := mem_iff_getElem.mp hd
  have hl : 2 * j < layer.length := by
    rw [h.length] at hj
    omega
  refine ⟨_, ⟨j, hl, rfl⟩, ?_⟩
  have hg := h.get hs hl
  rw [getElem?_eq_getElem hj] at hg
  exact some.inj hg

variable {layer' : Layer}

/-- Two layers with the same next layer are equal. -/
theorem IsNext.inj (hS : Set.InjOn (H.sum t) S) (hz : NonZero H t S) (h : IsNext H t layer next)
    (h' : IsNext H t layer' next) (hf : HashedFrom H t S layer) (hf' : HashedFrom H t S layer')
    (hn : layerInputs t layer ⊆ S) (hi' : layerInputs t layer' ⊆ S) : layer = layer' := by
  have h1 := hf.sized
  have hs' := hf'.sized
  have hle := h.length
  have he' := h'.length
  -- the digests of a pair are those of the other pair
  have hp : ∀ j, 2 * j < layer.length → layer[2 * j]? = layer'[2 * j]? ∧
      layer[2 * j + 1]? = layer'[2 * j + 1]? := by
    intro j hj
    have hj' : 2 * j < layer'.length := by omega
    have hs := (h.get h1 hj).symm.trans (h'.get hs' hj')
    have he := hS (hn ⟨j, hj, rfl⟩) (hi' ⟨j, hj', rfl⟩) (some.inj hs)
    have ht := congrArg Hashable.data (Hashable.hashRep_inj he)
    have hl := h1 _ (getElem_mem hj)
    have hl' := hs' _ (getElem_mem hj')
    simp only [nodeAt, getElem?_eq_getElem hj, getElem?_eq_getElem hj', getD_some] at ht
    obtain ⟨h2, hg⟩ := append_inj ht (hl.trans hl'.symm)
    rw [getElem?_eq_getElem hj, getElem?_eq_getElem hj', h2]
    refine ⟨rfl, ?_⟩
    rw [hl, hl', show 2 * t.size - t.size = t.size by omega] at hg
    -- a missing digest on the right counts as zeros
    have h3 : ∀ {l : Layer}, HashedFrom H t S l → ∀ {d : Bytes}, d ∈ l →
        fit t.size d ≠ fit t.size [] := by
      intro l hl d hd hq
      rw [fit_of_length (hl.sized d hd), fit_nil] at hq
      obtain ⟨x, hx, rfl⟩ := hl d hd
      exact hz x hx hq
    cases hr : layer[2 * j + 1]? with
    | none =>
      cases hr' : layer'[2 * j + 1]? with
      | none => rfl
      | some d' =>
        rw [hr, hr'] at hg
        exact absurd hg.symm (h3 hf' (mem_of_getElem? hr'))
    | some d =>
      cases hr' : layer'[2 * j + 1]? with
      | none =>
        rw [hr, hr'] at hg
        exact absurd hg (h3 hf (mem_of_getElem? hr))
      | some d' =>
        rw [hr, hr'] at hg
        simp only [getD_some] at hg
        rw [fit_of_length (h1 d (mem_of_getElem? hr)),
          fit_of_length (hs' d' (mem_of_getElem? hr'))] at hg
        rw [hg]
  -- beyond both layers there is nothing
  refine ext_getElem? fun i => ?_
  by_cases hi : 2 * (i / 2) < layer.length
  · obtain ⟨h2, hg⟩ := hp (i / 2) hi
    rcases Nat.mod_two_eq_zero_or_one i with hm | hm
    · rwa [show 2 * (i / 2) = i by omega] at h2
    · rwa [show 2 * (i / 2) + 1 = i by omega] at hg
  · rw [getElem?_eq_none (by omega), getElem?_eq_none (by omega)]

/-- The layer above a hashed one is hashed, and the set has the inputs of both. -/
theorem IsNext.hashedFrom_above {next : Layer} (hn : IsNext H t layer next) (hl : 1 < layer.length)
    (hf : HashedFrom H t S layer) (hi : levelInputs t (layer :: ls) ⊆ S) :
    layerInputs t layer ⊆ S ∧ HashedFrom H t S next ∧ levelInputs t ls ⊆ S := by
  have hy : layerInputs t layer ⊆ S := fun x hx => hi ⟨layer, mem_cons_self, hl, hx⟩
  refine ⟨hy, fun d hd => ?_, ?_⟩
  · obtain ⟨x, hx, rfl⟩ := hn.hashedFrom hf.sized d hd
    exact ⟨x, hy hx, rfl⟩
  · rintro x ⟨l, hm, he, hx⟩
    exact hi ⟨l, mem_cons_of_mem _ hm, he, hx⟩

/-- A tower over hashed leaves: every layer is hashed from the set. -/
theorem Levels.hashedFrom (h : Levels H t layer ls) (hf : HashedFrom H t S layer)
    (hi : levelInputs t ls ⊆ S) : ∀ l ∈ ls, HashedFrom H t S l := by
  induction h with
  | top d =>
    intro l hl
    rw [mem_singleton.mp hl]
    exact hf
  | @next layer next ls hl hn _ ih =>
    obtain ⟨-, hf', hr'⟩ := hn.hashedFrom_above hl hf hi
    exact forall_mem_cons.mpr ⟨hf, ih hf' hr'⟩

/-- Consecutive levels. -/
theorem Levels.isNext (h : Levels H t layer ls) {l l' : Layer} (hl : ls[i]? = some l)
    (hl' : ls[i + 1]? = some l') : 1 < l.length ∧ IsNext H t l l' := by
  induction h generalizing i with
  | top d => cases hl'
  | @next layer next ls he hn hr ih =>
    cases i with
    | zero =>
      obtain ⟨_, rfl⟩ := hr.head
      obtain rfl := some.inj hl
      obtain rfl := some.inj hl'
      exact ⟨he, hn⟩
    | succ i => exact ih hl hl'

/-- A layer of one tree is the layer of the other at the same distance from the common root. -/
theorem Levels.same (hS : Set.InjOn (H.sum t) S) (hz : NonZero H t S) (h : Levels H t layer ls)
    (h' : Levels H t layer' ls') (hf : HashedFrom H t S layer) (hf' : HashedFrom H t S layer')
    (h1 : levelInputs t ls ⊆ S) (hi' : levelInputs t ls' ⊆ S) (hr : ls.getLast? = ls'.getLast?)
    (he : ls.length ≤ ls'.length) : ls'[ls'.length - ls.length]? = some layer := by
  induction h with
  | top d =>
    rw [getLast?_singleton, getLast?_eq_getElem?] at hr
    exact hr.symm
  | @next layer next ls hl hn h3 ih =>
    obtain ⟨hy, h4, h5⟩ := hn.hashedFrom_above hl hf h1
    have h7 : (layer :: ls).getLast? = ls.getLast? := by
      obtain ⟨_, rfl⟩ := h3.head
      rfl
    rw [length_cons] at he
    have hs := ih h4 h5 (h7 ▸ hr) (by omega)
    have hi : ls'.length - (layer :: ls).length < ls'.length := by
      rw [length_cons]
      omega
    have hg := getElem?_eq_getElem hi
    set m := ls'[ls'.length - (layer :: ls).length]
    have ht : ls'[ls'.length - (layer :: ls).length + 1]? = some next := by
      rw [length_cons, show ls'.length - (ls.length + 1) + 1 = ls'.length - ls.length by omega]
      exact hs
    obtain ⟨h8, h9⟩ := h'.isNext hg ht
    have h2 : m ∈ ls' := getElem_mem hi
    have hmf := h'.hashedFrom hf' hi' m h2
    rw [hg, hn.inj hS hz h9 hf hmf hy fun x hx => hi' ⟨m, h2, h8, hx⟩]

/-! ### Trees over arrays -/

theorem Levels.getLast (h : Levels H t layer ls) : ∃ d, ls.getLast? = some [d] := by
  induction h with
  | top d => exact ⟨d, rfl⟩
  | @next layer next ls _ _ hr ih =>
    obtain ⟨d, hd⟩ := ih
    obtain ⟨_, rfl⟩ := hr.head
    exact ⟨d, hd⟩

/-- A tree over the elements of an array, none of which is hashed as a node is. -/
structure Tower (H : Hashing) (t : HashType) (S : Set Bytes) (array : HashableArray)
    (leaves : Layer) (levels : List Layer) : Prop where
  good : array.Good
  ids : ∀ i < array.length, ∀ e, array.marshal i = .ok e → e.id ≠ .merkleArrayNode
  leavesOf : LeavesOf H t array leaves
  towerOf : Levels H t leaves levels
  inputs : treeInputs t array levels ⊆ S

namespace Tower

variable {S : Set Bytes} {array array' : HashableArray} {leaves leaves' : Layer}
  {levels levels' : List Layer}

section

variable (h : Tower H t S array leaves levels)
include h

theorem leaf (hi : i < array.length) :
    ∃ e, array.marshal i = .ok e ∧ leaves[i]? = some (H.sum t e.hashRep) ∧ e.hashRep ∈ S := by
  obtain ⟨e, he⟩ := h.good i hi
  exact ⟨e, he, h.leavesOf.leaf i e hi he, h.inputs (.inl ⟨i, hi, e, he, rfl⟩)⟩

theorem hashedFrom : HashedFrom H t S leaves := by
  intro d hd
  obtain ⟨i, hi, rfl⟩ := mem_iff_getElem.mp hd
  obtain ⟨e, -, hl, hS⟩ := h.leaf (h.leavesOf.length ▸ hi)
  rw [getElem?_eq_getElem hi] at hl
  exact ⟨_, hS, some.inj hl⟩

theorem levelInputs_subset : levelInputs t levels ⊆ S :=
  fun _ hx => h.inputs (.inr hx)

end

/-- The lower of two towers with the same root is as high as the other. -/
theorem leaves_eq (hS : Set.InjOn (H.sum t) S) (hz : NonZero H t S)
    (h : Tower H t S array leaves levels) (h' : Tower H t S array' leaves' levels')
    (ht : levels.getLast? = levels'.getLast?) (hle : levels.length ≤ levels'.length) :
    leaves = leaves' := by
  have hs := h.towerOf.same hS hz h'.towerOf h.hashedFrom h'.hashedFrom h.levelInputs_subset
    h'.levelInputs_subset ht hle
  by_cases hq : levels'.length = levels.length
  · obtain ⟨_, h1⟩ := h'.towerOf.head
    rw [hq, Nat.sub_self, h1] at hs
    exact (some.inj hs).symm
  · -- a leaf would be the hash of a node
    exfalso
    obtain ⟨i, hi⟩ : ∃ i, levels'.length - levels.length = i + 1 :=
      Nat.exists_eq_succ_of_ne_zero (by omega)
    rw [hi] at hs
    have hlt : i < levels'.length := by omega
    obtain ⟨hl, hn⟩ := h'.towerOf.isNext (getElem?_eq_getElem hlt) hs
    have hm : levels'[i] ∈ levels' := getElem_mem hlt
    have hf := h'.towerOf.hashedFrom h'.hashedFrom h'.levelInputs_subset _ hm
    have hy := h.towerOf.pos
    obtain ⟨e, he, h2, hr⟩ := h.leaf (i := 0) (h.leavesOf.length ▸ hy)
    obtain ⟨x, ⟨j, hj, rfl⟩, hd⟩ := hn.hashedFrom hf.sized _ (mem_of_getElem? h2)
    have h3 : (nodeAt t levels'[i] j).hashRep ∈ S :=
      h'.levelInputs_subset ⟨_, hm, hl, j, hj, rfl⟩
    have h4 := congrArg Hashable.id (Hashable.hashRep_inj (hS hr h3 hd))
    exact h.ids 0 (h.leavesOf.length ▸ hy) e he h4

/-- The arrays of two towers over the same leaves are the same. -/
theorem array_eq (hS : Set.InjOn (H.sum t) S) (h : Tower H t S array leaves levels)
    (h' : Tower H t S array' leaves levels') :
    array.length = array'.length ∧ ∀ i < array.length, array.marshal i = array'.marshal i := by
  have hl : array.length = array'.length := h.leavesOf.length.symm.trans h'.leavesOf.length
  refine ⟨hl, fun i hi => ?_⟩
  obtain ⟨e, he, hf, hr⟩ := h.leaf hi
  obtain ⟨_, he', hl', hr'⟩ := h'.leaf (hl ▸ hi)
  have hs := some.inj (hf.symm.trans hl')
  rw [he, he', Hashable.hashRep_inj (hS hr hr' hs)]

end Tower

/-- **Root binding**: two arrays with the same root are the same, if no two of the strings hashed for
them collide and none has the hash of all zeros, the root of no elements. -/
theorem Build.root_binding (hS : Set.InjOn (H.sum t) S) (hz : NonZero H t S)
    {array array' : HashableArray} {tree tree' : Tree} (h : Build H t array (.ok tree))
    (h' : Build H t array' (.ok tree'))
    (h1 : ∀ i < array.length, ∀ e, array.marshal i = .ok e → e.id ≠ .merkleArrayNode)
    (hi' : ∀ i < array'.length, ∀ e, array'.marshal i = .ok e → e.id ≠ .merkleArrayNode)
    (hn : treeInputs t array tree.levels ⊆ S) (hn' : treeInputs t array' tree'.levels ⊆ S)
    (hr : fit t.size tree.root = fit t.size tree'.root) :
    array.length = array'.length ∧ ∀ i < array.length, array.marshal i = array'.marshal i := by
  obtain ⟨levels, h2, hv⟩ := h.tree h.good
  obtain ⟨levels', hr', he'⟩ := h'.tree h'.good
  obtain rfl := Except.ok.inj h2
  obtain rfl := Except.ok.inj hr'
  -- the root of a tower is a hash
  have ht : ∀ {array : HashableArray} {lv : Layer} {levels : List Layer} {n : ℕ},
      Tower H t S array lv levels → ∃ x ∈ S, levels.getLast? = some [H.sum t x] ∧
        fit t.size (Tree.root { levels, numOfElements := n, hash := t }) = H.sum t x := by
    intro array lv levels n hw
    obtain ⟨d, hd⟩ := hw.towerOf.getLast
    have hm : [d] ∈ levels := mem_of_getLast? hd
    obtain ⟨x, hx, rfl⟩ := hw.towerOf.hashedFrom hw.hashedFrom hw.levelInputs_subset
      [d] hm d (mem_singleton_self d)
    refine ⟨x, hx, hd, ?_⟩
    rw [Tree.root, hd]
    exact fit_of_length (H.length_sum t x)
  rcases hv with ⟨hz1, rfl⟩ | ⟨lv, hl, h3⟩
  · rcases he' with ⟨hz2, rfl⟩ | ⟨leaves', hl', hs'⟩
    · exact ⟨hz1.trans hz2.symm, fun i hi => absurd hi (by omega)⟩
    · obtain ⟨x, hx, -, hd⟩ := ht (n := array'.length) ⟨h'.good, hi', hl', hs', hn'⟩
      rw [hd] at hr
      exact absurd (hr.symm.trans (fit_nil _)) (hz x hx)
  · have hw : Tower H t S array lv levels := ⟨h.good, h1, hl, h3, hn⟩
    rcases he' with ⟨hz2, rfl⟩ | ⟨leaves', hl', hs'⟩
    · obtain ⟨x, hx, -, hd⟩ := ht (n := array.length) hw
      rw [hd] at hr
      exact absurd (hr.trans (fit_nil _)) (hz x hx)
    · have ht' : Tower H t S array' leaves' levels' := ⟨h'.good, hi', hl', hs', hn'⟩
      obtain ⟨x, -, ha, hd⟩ := ht (n := array.length) hw
      obtain ⟨_, -, ha', hd'⟩ := ht (n := array'.length) ht'
      rw [hd, hd'] at hr
      have hs : levels.getLast? = levels'.getLast? := by rw [ha, ha', hr]
      have hf : lv = leaves' := by
        rcases Nat.le_total levels.length levels'.length with he | he
        · exact hw.leaves_eq hS hz ht' hs he
        · exact (ht'.leaves_eq hS hz hw hs.symm he).symm
      subst hf
      exact hw.array_eq hS ht'

end Novarand.MerkleArray
