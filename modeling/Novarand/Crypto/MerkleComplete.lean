import Novarand.Crypto.MerkleLayers

/-!
# Completeness of Merkle proofs

A tree proves any list of positions of its array, and the verifier accepts the proof for the
elements at these positions. A vector commitment pads the array to a power of two and keeps element
`i` at the index with the bits of `i` reversed.
-/

namespace Novarand.MerkleArray

open Crypto List Dict Nat Except

variable {H : Hashing} {t : HashType} {leaves layer : Layer} {tree : Tree}

/-! ### Positions of a vector commitment -/

/-- The `k` lowest bits in reverse order. -/
def reverseBits (k i : ℕ) : ℕ := (BitVec.ofNat 64 i).reverse.toNat >>> (64 - k)

variable {k : ℕ} {d : UInt8} {idxs : List ℕ} {out : Except MerkleError Tree} {tree : Tree}
  {e : MerkleError}

theorem testBit_reverseBits (hk : k ≤ 64) (i j : ℕ) :
    (reverseBits k i).testBit j = (decide (j < k) && i.testBit (k - 1 - j)) := by
  rw [reverseBits, testBit_shiftRight, ← BitVec.getLsbD, BitVec.getLsbD_reverse,
    BitVec.getMsbD, BitVec.getLsbD_ofNat]
  by_cases hj : j < k
  · rw [show 64 - 1 - (64 - k + j) = k - 1 - j by omega]
    simp only [hj, decide_true, Bool.true_and]
    rw [decide_eq_true (show 64 - k + j < 64 by omega),
      decide_eq_true (show k - 1 - j < 64 by omega)]
    simp
  · rw [decide_eq_false (show ¬64 - k + j < 64 by omega), decide_eq_false hj]
    simp

theorem reverseBits_lt (hk : k ≤ 64) (i : ℕ) : reverseBits k i < 2 ^ k := by
  apply lt_pow_two_of_testBit
  intro j _
  rw [testBit_reverseBits hk, decide_eq_false (by omega), Bool.false_and]

variable {i stride : ℕ}

theorem reverseBits_reverseBits (hk : k ≤ 64) (hi : i < 2 ^ k) :
    reverseBits k (reverseBits k i) = i := by
  apply eq_of_testBit_eq
  intro j
  rw [testBit_reverseBits hk, testBit_reverseBits hk]
  by_cases hj : j < k
  · rw [decide_eq_true hj, decide_eq_true (show k - 1 - j < k by omega),
      show k - 1 - (k - 1 - j) = j by omega, Bool.true_and, Bool.true_and]
  · rw [decide_eq_false hj]
    exact (Nat.testBit_lt_two_pow (hi.trans_le (Nat.pow_le_pow_right Nat.two_pos (by omega)))).symm

theorem index_ok (hd : d.toNat = k) (hk : k < 64) (hi : i < 2 ^ k) :
    merkleTreeToVectorCommitmentIndex i d = .ok (reverseBits k i) := by
  subst hd
  have hs : (64 - d).toNat = 64 - d.toNat := by
    rw [UInt8.toNat_sub_of_le]
    · rfl
    · exact UInt8.le_iff_toNat_le.mpr hk.le
  rw [merkleTreeToVectorCommitmentIndex, failIf, one_shiftLeft_mod hk, if_neg (not_le.mpr hi), hs]
  rfl

/-- The padded array: its length is a power of two, and element `i` stands at the reversed index. -/
structure Padded (array : HashableArray) (k : ℕ) : Prop where
  lt : k < 64
  length : (generateVectorCommitmentArray array).toArray.length = 2 ^ k
  le : array.length ≤ 2 ^ k
  marshal : ∀ pos < 2 ^ k, (generateVectorCommitmentArray array).toArray.marshal pos =
    if reverseBits k pos < array.length then array.marshal (reverseBits k pos)
    else .ok bottomElement

theorem VectorCommitmentArray.marshal_eq {vc : VectorCommitmentArray} {pos : ℕ}
    (hk : vc.pathLen.toNat = k) (hl : k < 64) (hp : pos < 2 ^ k)
    (hi : reverseBits k pos < vc.paddedLen) :
    vc.marshal pos =
      if reverseBits k pos < vc.array.length then vc.array.marshal (reverseBits k pos)
      else .ok bottomElement := by
  rw [marshal, index_ok hk hl hp, ok_bind, failIf, if_neg (not_le.mpr hi)]
  rfl

section

variable {array : HashableArray} {elems : Dict ℕ Hashable}

theorem exists_padded (hf : array.length ≤ 2 ^ 63) : ∃ k, Padded array k := by
  by_cases hs : array.length = 0 ∨ array.length = 1
  · -- one leaf; the index is computed with one bit, of which only 0 is used
    have hv : generateVectorCommitmentArray array =
        { array, pathLen := 1, paddedLen := 1 } := if_pos hs
    have hz : ∀ k, k ≤ 64 → reverseBits k 0 = 0 := fun k hk => by
      apply eq_of_testBit_eq
      intro j
      rw [testBit_reverseBits hk]
      simp
    have hm := @VectorCommitmentArray.marshal_eq 1 { array, pathLen := 1, paddedLen := 1 } 0
      rfl (by omega) (by omega) (by rw [hz 1 (by omega)]; exact one_pos)
    refine ⟨0, by omega, by rw [hv]; rfl, by omega, ?_⟩
    intro pos hp
    obtain rfl : pos = 0 := lt_one_iff.mp hp
    rw [hz 1 (by omega)] at hm
    rw [hv, hz 0 (by omega)]
    exact hm
  · set k := (array.length - 1).size with hk
    have hk63 : k ≤ 63 := size_le.mpr (by omega)
    have hl : array.length ≤ 2 ^ k := by
      have := size_le.mp hk.ge
      omega
    have ht : (UInt8.ofNat k).toNat = k := by exact mod_eq_of_lt (by omega)
    have hv : generateVectorCommitmentArray array =
        { array, pathLen := UInt8.ofNat k, paddedLen := 2 ^ k } := by
      rw [generateVectorCommitmentArray, if_neg hs, ← one_shiftLeft_mod (by omega : k < 64)]
    refine ⟨k, by omega, by rw [hv]; rfl, hl, ?_⟩
    intro pos hp
    rw [hv]
    exact VectorCommitmentArray.marshal_eq ht (by omega) hp (reverseBits_lt (by omega) pos)

theorem Padded.marshal_reversed (h : Padded array k) (hi : i < array.length) :
    (generateVectorCommitmentArray array).toArray.marshal (reverseBits k i) = array.marshal i := by
  rw [h.marshal _ (reverseBits_lt h.lt.le i), reverseBits_reverseBits h.lt.le (hi.trans_le h.le),
    if_pos hi]

theorem Padded.good_iff (h : Padded array k) :
    (generateVectorCommitmentArray array).toArray.Good ↔ array.Good := by
  constructor
  · intro hg i hi
    have := hg (reverseBits k i) (by rw [h.length]; exact reverseBits_lt h.lt.le i)
    rwa [h.marshal_reversed hi] at this
  · intro hg i hi
    rw [h.marshal i (h.length ▸ hi)]
    by_cases hn : reverseBits k i < array.length
    · rw [if_pos hn]
      exact hg _ hn
    · rw [if_neg hn]
      exact ⟨_, rfl⟩

theorem convertIndexes_fold (hd : d.toNat = k) (hk : k < 64) (l : List (Σ _ : ℕ, Hashable))
    (h1 : l.NodupKeys) (ht : ∀ e ∈ l, e.1 < 2 ^ k) (m : Dict ℕ Hashable) :
    ∃ m', l.foldlM (fun converted e => do
        let idx ← merkleTreeToVectorCommitmentIndex e.1 d
        return converted.upsert idx e.2) m = .ok m' ∧
      ∀ j, m'.lookup j =
        if j < 2 ^ k then (l.dlookup (reverseBits k j)).or (m.lookup j) else m.lookup j := by
  induction l generalizing m with
  | nil => exact ⟨m, rfl, by simp⟩
  | cons e l ih =>
    obtain ⟨i, e⟩ := e
    have hi : i < 2 ^ k := ht _ mem_cons_self
    obtain ⟨hn, h1⟩ := nodupKeys_cons.mp h1
    obtain ⟨m', hf, hl⟩ := ih h1 (fun e he => ht e (mem_cons_of_mem _ he))
      (m.upsert (reverseBits k i) e)
    refine ⟨m', ?_, ?_⟩
    · rw [foldlM_cons, index_ok hd hk hi]
      exact hf
    · intro j
      rw [hl j, lookup_upsert]
      by_cases hj : j < 2 ^ k
      · rw [if_pos hj, if_pos hj]
        by_cases h2 : j = reverseBits k i
        · subst h2
          rw [if_pos rfl, reverseBits_reverseBits hk.le hi, dlookup_cons_eq, dlookup_eq_none.mpr hn]
          rfl
        · have hne : reverseBits k j ≠ i := by
            rintro rfl
            exact h2 (reverseBits_reverseBits hk.le hj).symm
          rw [if_neg h2, dlookup_cons_ne _ _ hne]
      · rw [if_neg hj, if_neg hj, if_neg]
        rintro rfl
        exact hj (reverseBits_lt hk.le i)

/-- Converting the indexes moves every element to its reversed position. -/
theorem convertIndexes_ok (hd : d.toNat = k) (hk : k < 64) (ht : ∀ i ∈ elems, i < 2 ^ k) :
    ∃ converted, convertIndexes elems d = .ok converted ∧
      ∀ j e, converted.lookup j = some e ↔ ∃ i, elems.lookup i = some e ∧ reverseBits k i = j := by
  obtain ⟨converted, hf, hl⟩ := convertIndexes_fold hd hk elems.entries elems.nodupKeys
    (fun e he => ht e.1 (mem_iff.mpr ⟨_, AList.mem_lookup_iff.mpr he⟩))
    ∅
  refine ⟨converted, hf, ?_⟩
  intro j e
  have hb : ∀ i, elems.lookup i = some e → i < 2 ^ k := fun i hi =>
    ht i (mem_iff.mpr ⟨_, hi⟩)
  rw [hl j, AList.lookup_empty, Option.or_none]
  constructor
  · intro h
    by_cases hj : j < 2 ^ k
    · rw [if_pos hj] at h
      exact ⟨reverseBits k j, h, reverseBits_reverseBits hk.le hj⟩
    · rw [if_neg hj] at h
      cases h
  · rintro ⟨i, hi, rfl⟩
    rw [if_pos (reverseBits_lt hk.le i), reverseBits_reverseBits hk.le (hb i hi)]
    exact hi

/-! ### Completeness -/

/-- The elements of the array at the given positions. -/
def ElemsAt (array : HashableArray) (idxs : List ℕ) (elems : Dict ℕ Hashable) : Prop :=
  ∀ i e, elems.lookup i = some e ↔ i ∈ idxs ∧ array.marshal i = .ok e

theorem ElemsAt.keys (h : ElemsAt array idxs elems) (hg : array.Good)
    (hd : ∀ i ∈ idxs, i < array.length) (i : ℕ) : i ∈ elems ↔ i ∈ idxs := by
  rw [mem_iff]
  constructor
  · rintro ⟨e, he⟩
    exact ((h i e).mp he).1
  · intro hi
    obtain ⟨e, he⟩ := hg i (hd i hi)
    exact ⟨e, (h i e).mpr ⟨hi, he⟩⟩

theorem ElemsAt.empty (h : ElemsAt array [] elems) : elems.entries = [] := by
  rw [eq_nil_iff_forall_not_mem]
  rintro ⟨i, e⟩ he
  have := ((h i e).mp (AList.mem_lookup_iff.mpr he)).1
  cases this

/-- A tree over the leaves of a good array proves any of its positions. -/
theorem Build.complete (hg : array.Good) (hf : array.length ≤ 2 ^ 63)
    (h1 : ∀ i ∈ idxs, i < array.length) (h2 : ElemsAt array idxs elems) (hb : Build H t array out) :
    ∃ tree proof, out = .ok tree ∧ tree.prove H idxs = .ok proof ∧
      verify H tree.root elems proof = .ok () := by
  obtain ⟨levels, rfl, h3⟩ := hb.tree hg
  by_cases hn : idxs = []
  · subst hn
    refine ⟨_, _, rfl, if_pos rfl, ?_⟩
    rw [verify, if_pos h2.empty]
    rfl
  obtain ⟨i, hi⟩ := exists_mem_of_ne_nil _ hn
  have hl := h1 i hi
  obtain ⟨_, -⟩ | ⟨lv, hv, hs⟩ := h3
  · omega
  have ht : ∀ i ∈ idxs, i < lv.length := fun i hi => hv.length ▸ h1 i hi
  let tree : Tree := { levels, numOfElements := array.length, hash := t }
  have hs : Levels H t lv tree.levels := hs
  obtain ⟨hd, hl64⟩ := hs.depth (hv.length ▸ hf)
  refine ⟨tree, _, rfl, ?_, hs.verify hn ht (h2.keys hg h1) (fun i e he => ?_)
    (hd ▸ hl64) (hd ▸ hs.length_le)⟩
  · rw [Tree.prove, if_neg hn, failIf, if_neg (by show ¬array.length = 0; omega), failIf,
      if_neg (by rintro ⟨i, hi, hle⟩; exact absurd (h1 i hi) (not_lt.mpr hle))]
    exact Levels.createProof hs rfl hn ht
  · have he := (h2 i e).mp he
    exact hv.leaf i e (h1 i he.1) he.2

/-- A tree that commits to the array, with `k` levels above its leaves. -/
structure Commits (H : Hashing) (t : HashType) (array : HashableArray) (k : ℕ) (leaves : Layer)
    (tree : Tree) : Prop where
  good : array.Good
  padded : Padded array k
  leavesOf : LeavesOf H t (generateVectorCommitmentArray array).toArray leaves
  levels : Levels H t leaves tree.levels
  hash : tree.hash = t
  numOfElements : tree.numOfElements = array.length
  isVectorCommitment : tree.isVectorCommitment = true

/-- Every outcome of `BuildVectorCommitmentTree` over a good array commits to it. -/
theorem BuildVectorCommitmentTree.commits (hg : array.Good) (hf : array.length ≤ 2 ^ 63)
    (hb : BuildVectorCommitmentTree H t array out) :
    ∃ tree k leaves, out = .ok tree ∧ Commits H t array k leaves tree := by
  obtain ⟨k, hp⟩ := exists_padded hf
  obtain ⟨_, hi, rfl⟩ := hb
  obtain ⟨_, rfl, ⟨hz, -⟩ | ⟨leaves, hl, hs⟩⟩ := hi.tree (hp.good_iff.mpr hg)
  · rw [hp.length] at hz
    exact absurd hz (Nat.two_pow_pos k).ne'
  · exact ⟨_, k, leaves, rfl, hg, hp, hl, hs, rfl, rfl, rfl⟩

namespace Commits

variable (h : Commits H t array k leaves tree)
include h

theorem length_leaves : leaves.length = 2 ^ k :=
  h.leavesOf.length.trans h.padded.length

theorem fits : leaves.length ≤ 2 ^ 63 := by
  rw [h.length_leaves]
  exact Nat.pow_le_pow_right Nat.two_pos (Nat.le_of_lt_succ h.padded.lt)

theorem depth : tree.depth.toNat = k := by
  rw [(h.levels.depth h.fits).1]
  have hu := h.levels.levels_le h.length_leaves.le
  have hd := h.levels.length_le
  rw [h.length_leaves, Nat.pow_le_pow_iff_right (Nat.lt_succ_self 1)] at hd
  omega

theorem reversed_lt (idxs : List ℕ) : ∀ j ∈ idxs.map (reverseBits k), j < leaves.length := by
  intro j hj
  obtain ⟨i, -, rfl⟩ := mem_map.mp hj
  rw [h.length_leaves]
  exact reverseBits_lt h.padded.lt.le i

/-- The proof for positions of the array. -/
theorem prove (hn : idxs ≠ []) (hd : ∀ i ∈ idxs, i < array.length) :
    tree.prove H idxs =
      .ok { path := hintsFor tree.levels (provedPositions (idxs.map (reverseBits k)))
            hashFactory := t
            treeDepth := tree.depth } := by
  obtain ⟨i, hi⟩ := exists_mem_of_ne_nil _ hn
  have hl := hd i hi
  have hc : tree.convertLeavesIndexes idxs = .ok (idxs.map (reverseBits k)) :=
    mapM_ok fun i hi => index_ok h.depth h.padded.lt ((hd i hi).trans_le h.padded.le)
  rw [Tree.prove, if_neg hn, h.numOfElements, failIf, if_neg (by omega), failIf,
    if_neg (by rintro ⟨i, hi, he⟩; exact absurd (hd i hi) (not_lt.mpr he)),
    if_pos h.isVectorCommitment, hc]
  exact h.levels.createProof h.hash (by simpa using hn) (h.reversed_lt idxs)

/-- The elements at positions of the array, at their reversed positions. -/
theorem converted (hd : ∀ i ∈ idxs, i < array.length) (h1 : ElemsAt array idxs elems) :
    ∃ converted, convertIndexes elems tree.depth = .ok converted ∧
      (∀ j e, converted.lookup j = some e ↔ ∃ i, elems.lookup i = some e ∧ reverseBits k i = j) ∧
      ∀ j, j ∈ converted ↔ j ∈ idxs.map (reverseBits k) := by
  have hk := h1.keys h.good hd
  obtain ⟨converted, hc, hl⟩ := convertIndexes_ok h.depth h.padded.lt fun i hi =>
    (hd i ((hk i).mp hi)).trans_le h.padded.le
  refine ⟨converted, hc, hl, fun j => ?_⟩
  rw [mem_iff, mem_map]
  constructor
  · rintro ⟨e, he⟩
    obtain ⟨i, hi, rfl⟩ := (hl j e).mp he
    exact ⟨i, ((h1 i e).mp hi).1, rfl⟩
  · rintro ⟨i, hi, rfl⟩
    obtain ⟨e, he⟩ := mem_iff.mp ((hk i).mpr hi)
    exact ⟨e, (hl _ e).mpr ⟨i, he, rfl⟩⟩

/-- The verifier accepts it for the elements at these positions. -/
theorem verify (hn : idxs ≠ []) (hd : ∀ i ∈ idxs, i < array.length)
    (h1 : ElemsAt array idxs elems) :
    verifyVectorCommitment H tree.root elems
      { path := hintsFor tree.levels (provedPositions (idxs.map (reverseBits k)))
        hashFactory := t
        treeDepth := tree.depth } = .ok () := by
  obtain ⟨converted, hc, hl, hk⟩ := h.converted hd h1
  rw [verifyVectorCommitment, hc]
  refine h.levels.verify (by simpa using hn) (h.reversed_lt idxs) hk (fun j e he => ?_)
    (h.depth ▸ h.padded.lt) (h.depth ▸ h.length_leaves.le)
  obtain ⟨i, hi, rfl⟩ := (hl j e).mp he
  obtain ⟨hm, he⟩ := (h1 i e).mp hi
  refine h.leavesOf.leaf _ e ?_ ((h.padded.marshal_reversed (hd i hm)).trans he)
  rw [h.padded.length]
  exact reverseBits_lt h.padded.lt.le i

end Commits

/-- The same for a vector commitment, whose positions are reversed in the tree. -/
theorem BuildVectorCommitmentTree.complete (hg : array.Good) (hf : array.length ≤ 2 ^ 63)
    (hi : ∀ i ∈ idxs, i < array.length) (he : ElemsAt array idxs elems)
    (hb : BuildVectorCommitmentTree H t array out) :
    ∃ tree proof, out = .ok tree ∧ tree.prove H idxs = .ok proof ∧
      verifyVectorCommitment H tree.root elems proof = .ok () := by
  obtain ⟨tree, k, _, rfl, hc⟩ := hb.commits hg hf
  by_cases hn : idxs = []
  · subst hn
    refine ⟨_, _, rfl, if_pos rfl, ?_⟩
    rw [verifyVectorCommitment, convertIndexes, he.empty]
    rfl
  · exact ⟨tree, _, rfl, hc.prove hn hi, hc.verify hn hi he⟩

/-! ### Building comes to an end -/

theorem BuildVectorCommitmentTree.prove (hg : array.Good) (hf : array.length ≤ 2 ^ 63)
    (hi : ∀ i ∈ idxs, i < array.length) (hb : BuildVectorCommitmentTree H t array (.ok tree))
    : ∃ proof, tree.prove H idxs = .ok proof := by
  obtain ⟨_, k, _, ⟨⟩, hc⟩ := hb.commits hg hf
  by_cases hn : idxs = []
  · exact ⟨_, if_pos hn⟩
  · exact ⟨_, hc.prove hn hi⟩

theorem Tree.prove_hashFactory {proof : Proof} (h : tree.prove H idxs = .ok proof) :
    proof.hashFactory = tree.hash := by
  rw [prove] at h
  split at h
  · obtain rfl := ok.inj h
    rfl
  · obtain ⟨-, -, h⟩ := bind_ok.mp h
    obtain ⟨-, -, h⟩ := bind_ok.mp h
    have hc : ∀ ps, tree.createProof H ps = .ok proof →
        proof.hashFactory = tree.hash := by
      intro ps hp
      simp only [createProof, bind_ok, pure_ok] at hp
      obtain ⟨-, -, -, -, -, -, rfl⟩ := hp
      rfl
    split at h
    · obtain ⟨ps, -, h⟩ := bind_ok.mp h
      exact hc _ h
    · exact hc _ h

theorem exists_fillOutcome (hs : 0 < stride) (n : ℕ) (task : ℕ → Except MerkleError Bytes) :
    ∃ out, FillOutcome stride n task out := by
  obtain ⟨p, hr, hf⟩ := Workers.exists_final hs task n
  exact ⟨_, 1, one_pos, p, hr, hf, rfl⟩

theorem exists_buildLayers (H : Hashing) (hs : Sized t layer) :
    ∃ out, BuildLayers H t layer out := by
  induction hn : layer.length using Nat.strong_induction_on generalizing layer with
  | _ n ih =>
    by_cases hl : 1 < layer.length
    · obtain ⟨out, hf⟩ := exists_fillOutcome two_pos layer.length (pairTask H t layer)
      obtain ⟨next, rfl, hx⟩ := hf.isNext hs
      obtain ⟨out, hr⟩ := ih next.length (by rw [hx.length]; omega) hx.sized rfl
      exact ⟨_, .next hl hf hr⟩
    · exact ⟨_, .top (Nat.le_of_not_lt hl)⟩

theorem FillOutcome.good
    (h : FillOutcome 1 array.length (leafTask H t array) (.ok leaves)) : array.Good := by
  obtain ⟨_, hn, p, hr, hf, ho⟩ := h
  have h1 : p.err = none := by
    cases h1 : p.err with
    | none => rfl
    | some e =>
      rw [h1] at ho
      cases ho
  intro i hi
  obtain ⟨d, hd, -⟩ := hr.filled hn hf h1 (one_dvd i) hi
  simp only [leafTask, bind_ok] at hd
  obtain ⟨e, he, -⟩ := hd
  exact ⟨e, he⟩

theorem FillOutcome.error (h : FillOutcome 1 array.length (leafTask H t array) (.error e)) :
    ∃ i < array.length, array.marshal i = .error e := by
  obtain ⟨_, hn, p, hr, -, ho⟩ := h
  have he : p.err = some e := by
    cases he : p.err with
    | none =>
      rw [he] at ho
      cases ho
    | some _ =>
      rw [he] at ho
      rw [Except.error.inj ho]
  obtain ⟨pos, hp, ht⟩ := hr.err hn he
  simp only [leafTask, bind_error_iff] at ht
  obtain ht | ⟨_, _, ht⟩ := ht
  · exact ⟨pos, hp, ht⟩
  · cases ht

theorem exists_build (H : Hashing) (t : HashType) (array : HashableArray) :
    ∃ out, Build H t array out := by
  obtain ⟨out, hf⟩ := exists_fillOutcome one_pos array.length (leafTask H t array)
  cases out with
  | error e => exact ⟨_, .failed hf⟩
  | ok lv =>
    obtain ⟨_, ⟨⟩, hl⟩ := hf.leavesOf hf.good
    by_cases hn : lv = []
    · subst hn
      exact ⟨_, .empty hf⟩
    · obtain ⟨out, hy⟩ := exists_buildLayers H (hl.sized hf.good)
      exact ⟨_, .layers hf hn hy⟩

theorem exists_buildVectorCommitmentTree (H : Hashing) (t : HashType) (array : HashableArray) :
    ∃ out, BuildVectorCommitmentTree H t array out := by
  obtain ⟨ie, hi⟩ := exists_build H t (generateVectorCommitmentArray array).toArray
  exact ⟨_, ie, hi, rfl⟩

theorem Build.good (h : Build H t array (.ok tree)) : array.Good := by
  generalize ho : ok tree = out at h
  cases h with
  | failed => cases ho
  | empty hf => exact hf.good
  | layers hf => exact hf.good

/-- A tree is built only over a good array. -/
theorem BuildVectorCommitmentTree.good (hf : array.length ≤ 2 ^ 63)
    (h : BuildVectorCommitmentTree H t array (.ok tree)) : array.Good := by
  obtain ⟨k, hp⟩ := exists_padded hf
  obtain ⟨ie, hi, ho⟩ := h
  cases ie with
  | error e => cases ho
  | ok ie => exact hp.good_iff.mp hi.good

theorem Build.error (h : Build H t array (.error e)) :
    ∃ i < array.length, array.marshal i = .error e := by
  have hb : ¬array.Good := fun hg => by
    obtain ⟨_, h, -⟩ := h.tree hg
    cases h
  generalize ho : Except.error e = out at h
  cases h with
  | failed hf =>
    obtain rfl := Except.error.inj ho
    exact hf.error
  | empty => cases ho
  | layers hf => exact absurd hf.good hb

/-- Over any other array, building fails with an error of one of its elements. -/
theorem BuildVectorCommitmentTree.error (hf : array.length ≤ 2 ^ 63)
    (h : BuildVectorCommitmentTree H t array (.error e)) :
    ∃ i < array.length, array.marshal i = .error e := by
  obtain ⟨k, hp⟩ := exists_padded hf
  obtain ⟨ie, hi, ho⟩ := h
  cases ie with
  | ok ie => cases ho
  | error _ =>
    obtain rfl := Except.error.inj ho
    obtain ⟨pos, h1, hm⟩ := hi.error
    rw [hp.marshal pos (hp.length ▸ h1)] at hm
    refine ⟨reverseBits k pos, ?_⟩
    by_cases hn : reverseBits k pos < array.length
    · rw [if_pos hn] at hm
      exact ⟨hn, hm⟩
    · rw [if_neg hn] at hm
      cases hm

end

/-! ### Any positions of any array -/

/-- Whatever the workers do, a tree over an array that fits in memory proves any list of its
positions, and the verifier accepts the proof for their elements. -/
theorem merkle_complete (H : Hashing) (t : HashType) (array : HashableArray) (hgood : array.Good)
    (hfits : array.length ≤ 2 ^ 63) (idxs : List ℕ) (hidxs : ∀ i ∈ idxs, i < array.length)
    (elems : Dict ℕ Hashable) (helems : ElemsAt array idxs elems) :
    (∀ out, Build H t array out →
      ∃ tree proof, out = .ok tree ∧ tree.prove H idxs = .ok proof ∧
        verify H tree.root elems proof = .ok ()) ∧
    (∀ out, BuildVectorCommitmentTree H t array out →
      ∃ tree proof, out = .ok tree ∧ tree.prove H idxs = .ok proof ∧
        verifyVectorCommitment H tree.root elems proof = .ok ()) :=
  ⟨fun _ hb => hb.complete hgood hfits hidxs helems,
    fun _ hb => hb.complete hgood hfits hidxs helems⟩

namespace Sample

/-- A hash of fixed length that keeps the first bytes of its input. -/
def hashing : Hashing where
  sum t x := fit t.size x
  length_sum t x := by
    rw [fit, length_append, length_take, length_replicate]
    omega

def element (i : ℕ) : Hashable := { id := .testHashable, data := [UInt8.ofNat i] }

def array : HashableArray := { length := 3, marshal := fun i => .ok (element i) }

def elems : Dict ℕ Hashable := ((∅ : Dict ℕ Hashable).upsert 2 (element 2)).upsert 0 (element 0)

theorem array_good : array.Good := fun i _ => ⟨element i, rfl⟩

theorem elems_at : ElemsAt array [2, 0, 2] elems := by
  intro i e
  rw [elems, lookup_upsert, lookup_upsert]
  have hr : array.marshal i = .ok e ↔ element i = e := by
    show ok (element i) = ok e ↔ _
    rw [ok.injEq]
  rw [hr]
  by_cases h0 : i = 0
  · simp [h0]
  · by_cases h2 : i = 2 <;> simp [h0, h2]

end Sample

open Sample

/-- Positions 2, 0 and 2 again of an array of three elements. -/
theorem merkle_complete_three :
    (∃ tree proof, Build hashing .sumhash array (.ok tree) ∧
      tree.prove hashing [2, 0, 2] = .ok proof ∧
      verify hashing tree.root elems proof = .ok ()) ∧
    ∃ tree proof, BuildVectorCommitmentTree hashing .sumhash array (.ok tree) ∧
      tree.prove hashing [2, 0, 2] = .ok proof ∧
      verifyVectorCommitment hashing tree.root elems proof = .ok () := by
  have hf : array.length ≤ 2 ^ 63 := by decide
  obtain ⟨hp, hc⟩ := merkle_complete hashing .sumhash array
    array_good hf [2, 0, 2] (by decide) elems elems_at
  obtain ⟨out, hb⟩ := exists_build hashing .sumhash array
  obtain ⟨out', hb'⟩ :=
    exists_buildVectorCommitmentTree hashing .sumhash array
  obtain ⟨tree, proof, rfl, hr⟩ := hp out hb
  obtain ⟨tr', pr', rfl, hp'⟩ := hc out' hb'
  exact ⟨⟨tree, proof, hb, hr⟩, tr', pr', hb', hp'⟩

end Novarand.MerkleArray
