import Novarand.Crypto.MerkleComplete

/-!
# Position binding of vector commitments

An accepted proof gives, for each of its elements, a branch of hashed pairs from the element up to
the root (`Opens`). Two branches under one root that take the same turns down from it have the same
element at their ends, unless two of the hashed strings collide.

The turns are the bits of the position, read from the lowest, only if the verifier climbs as many
levels as the proof claims for the tree, and the two digests of a pair can be told apart only if a
hint has the size of the hash. The verifier checks neither.
-/

namespace Novarand.MerkleArray

open Crypto List Nat Hashable Except

variable {H : Hashing} {t : HashType}

variable {ps idxs : List ℕ} {S S' : Set Bytes} {root : Bytes} {hints hints' : List GenericDigest}
  {pl pl' : PartialLayer} {d depth : UInt8} {i q j n : ℕ}
  {elems converted elems1 elems2 : Dict ℕ Hashable} {e : Hashable}

theorem mem_asked (h : q ∈ asked ps) : ∃ p ∈ ps, q = p ^^^ 1 := by
  fun_induction asked ps with
  | case1 => simp at h
  | case2 p => exact ⟨p, mem_cons_self, mem_singleton.mp h⟩
  | case3 p ps ih =>
    obtain ⟨r, hr, rfl⟩ := ih h
    exact ⟨r, mem_cons_of_mem _ (mem_cons_of_mem _ hr), rfl⟩
  | case4 p q ps _ ih =>
    rcases mem_cons.mp h with rfl | h
    · exact ⟨p, mem_cons_self, rfl⟩
    · obtain ⟨r, hr, rfl⟩ := ih h
      exact ⟨r, mem_cons_of_mem _ hr, rfl⟩

/-! ### The strings that a verification hashes -/

/-- The pair of position `pos` and its sibling, as `up` builds it. -/
def pairAt (t : HashType) (pos : ℕ) (posHash siblingHash : Bytes) : Hashable :=
  let (l, r) := if pos % 2 = 0 then (posHash, siblingHash) else (siblingHash, posHash)
  { id := .merkleArrayNode, data := l ++ fit (2 * t.size - l.length) r }

/-- The strings hashed by one call of `up`. -/
def upInputs (t : HashType) : PartialLayer → List GenericDigest → List Bytes
  | [], _ => []
  | [item], hints => [(pairAt t item.pos item.hash ((hints.head?.getD none).getD [])).hashRep]
  | item :: next :: pl, hints =>
    if next.pos = item.pos ^^^ 1 then
      (pairAt t item.pos item.hash next.hash).hashRep :: upInputs t pl hints
    else
      (pairAt t item.pos item.hash ((hints.head?.getD none).getD [])).hashRep ::
        upInputs t (next :: pl) hints.tail

/-- The strings hashed by the loop of `verifyPath`. -/
def loopInputs (H : Hashing) (t : HashType) : ℕ → ℕ → PartialLayer → Siblings → List Bytes
  | 0, _, _, _ => []
  | fuel + 1, l, pl, s =>
    if s.hints = [] ∧ pl.length ≤ 1 then []
    else upInputs t pl s.hints ++
      match up H t l true pl s with
      | .ok (pl, s) => loopInputs H t fuel (l + 1) pl s
      | .error _ => []

/-- The strings hashed by `VerifyVectorCommitment`. -/
def hashedInputs (H : Hashing) (elems : Dict ℕ Hashable) (proof : Proof) : List Bytes :=
  match convertIndexes elems proof.treeDepth with
  | .error _ => []
  | .ok converted =>
    converted.entries.map (fun e => e.2.hashRep) ++
      match hashLeaves H proof.hashFactory converted proof.treeDepth with
      | .error _ => []
      | .ok leaves =>
        let pl := buildFirstPartialLayer leaves
        loopInputs H proof.hashFactory (proof.path.length + pl.length) 0 pl { hints := proof.path }

/-- The number of levels that `VerifyVectorCommitment` climbs. -/
def levelsClimbed (elems : Dict ℕ Hashable) (proof : Proof) : ℕ :=
  match convertIndexes elems proof.treeDepth with
  | .error _ => 0
  | .ok converted =>
    turns (proof.path.length + converted.entries.length) proof.path.length
      (converted.keys.insertionSort (· ≤ ·))

/-- A proof whose claims about the tree are right: the verifier climbs as many levels as it claims,
and its hints have the size of the hash. -/
structure Exact (elems : Dict ℕ Hashable) (proof : Proof) : Prop where
  depth : levelsClimbed elems proof = proof.treeDepth.toNat
  hints : ∀ d ∈ proof.path, (d.getD []).length = proof.hashFactory.size

/-! ### Branches -/

/-- An internal node over a digest and its sibling. -/
def node (right : Bool) (digest sibling : Bytes) : Hashable :=
  { id := .merkleArrayNode, data := if right then sibling ++ digest else digest ++ sibling }

/-- A branch from digest `h` up to `root`: the list says, from the root down, where it turns right.
The strings hashed on it are in `S`. -/
inductive Opens (H : Hashing) (t : HashType) (S : Set Bytes) : List Bool → Bytes → Bytes → Prop
  | leaf (h : Bytes) : Opens H t S [] h h
  | step {right ds h x sibling} (hbelow : Opens H t S ds h x) (hx : x.length = t.size)
      (hs : sibling.length = t.size) (hmem : (node right x sibling).hashRep ∈ S) :
    Opens H t S (right :: ds) h (H.genericHashObj t (node right x sibling))

variable {l r s x y u sibling : Bytes} {right : Bool}

theorem node_inj (hx : x.length = t.size) (hy : y.length = t.size) (hs : s.length = t.size)
    (hu : u.length = t.size) (h : node right x s = node right y u) : x = y := by
  have hd := congrArg data h
  cases right with
  | false => exact (append_inj hd (hx.trans hy.symm)).1
  | true => exact (append_inj hd (hs.trans hu.symm)).2

variable {e1 e2 : Hashable}

/-- Two elements under one root along the same turns are the same. -/
theorem Opens.binding (hS : Set.InjOn (H.sum t) S) (he1 : e1.id ≠ .merkleArrayNode)
    (he2 : e2.id ≠ .merkleArrayNode) (hm1 : e1.hashRep ∈ S) (hm2 : e2.hashRep ∈ S)
    {ds1 ds2 : List Bool} (h₁ : Opens H t S ds1 (H.genericHashObj t e1) root)
    (h₂ : Opens H t S ds2 (H.genericHashObj t e2) root)
    (hd : ∀ j, j < ds1.length → j < ds2.length → ds1[j]? = ds2[j]?) : e1 = e2 := by
  generalize hh1 : H.genericHashObj t e1 = h at h₁
  induction h₁ generalizing ds2 with
  | leaf =>
    subst hh1
    generalize hh2 : H.genericHashObj t e2 = h at h₂
    generalize hr : H.genericHashObj t e1 = root at h₂
    cases h₂ with
    | leaf => exact hashRep_inj (hS hm1 hm2 (hr.trans hh2.symm))
    | step _ _ _ hm =>
      -- an element is no internal node
      have := hashRep_inj (hS hm1 hm hr)
      exact absurd (congrArg Hashable.id this) he1
  | @step rg _ h x sb _ hx hs hm ih =>
    generalize hh2 : H.genericHashObj t e2 = h at h₂
    generalize hr : H.genericHashObj t (node rg x sb) = root at h₂
    cases h₂ with
    | leaf =>
      have := hashRep_inj (hS hm hm2 (hr.trans hh2.symm))
      exact absurd (congrArg Hashable.id this).symm he2
    | @step right' _ _ y _ hb' hy hs' hm' =>
      subst hh2
      obtain rfl : rg = right' := by simpa using hd 0 (by simp) (by simp)
      have hn := hashRep_inj (hS hm hm' hr)
      obtain rfl := node_inj hx hy hs hs' hn
      refine ih hb' (fun j h1 h2 => ?_) hh1
      simpa using hd (j + 1) (by simpa using h1) (by simpa using h2)

/-! ### The branches of an accepted proof -/

theorem fit_sized (hl : l.length = t.size) (hr : r.length = t.size) :
    fit (2 * t.size - l.length) r = r := by
  have hs : 2 * t.size - l.length = r.length := by omega
  rw [hs, fit]
  simp

variable {fuel pos : ℕ}

theorem nextLayerHash_sized {d : Bytes} (hx : x.length = t.size) (hs : s.length = t.size)
    (h : nextLayerHash H t true pos x s = .ok d) :
    d = H.genericHashObj t (node (pos.testBit 0) x s) ∧
      pairAt t pos x s = node (pos.testBit 0) x s := by
  rw [nextLayerHash] at h
  by_cases hp : pos % 2 = 0
  · have hb : pos.testBit 0 = false := by
      rw [testBit_zero, hp]
      rfl
    rw [if_pos hp, hashPair_ok (by omega), fit_sized hx hs] at h
    simp only [pairAt, if_pos hp, hb, fit_sized hx hs]
    exact ⟨(ok.inj h).symm, rfl⟩
  · have hb : pos.testBit 0 = true := by
      rw [testBit_zero, decide_eq_true_iff]
      omega
    rw [if_neg hp, hashPair_ok (by omega), fit_sized hs hx] at h
    simp only [pairAt, if_neg hp, hb, fit_sized hs hx]
    exact ⟨(ok.inj h).symm, rfl⟩

theorem length_of_nextLayerHash {d : Bytes} (h : nextLayerHash H t true pos x s = .ok d) :
    d.length = t.size := by
  rw [nextLayerHash, if_pos rfl] at h
  split at h <;> exact length_of_hashPair h

/-- A pair is the same from either of its two positions. -/
theorem nextLayerHash_sibling (p : ℕ) (a b : Bytes) :
    nextLayerHash H t true (p ^^^ 1) b a = nextLayerHash H t true p a b ∧
      pairAt t (p ^^^ 1) b a = pairAt t p a b := by
  have ha : (p ^^^ 1) % 2 = 0 ↔ ¬p % 2 = 0 := by
    rw [xor_one_eq]
    split <;> omega
  by_cases hp : p % 2 = 0
  · have hq : ¬(p ^^^ 1) % 2 = 0 := fun h => ha.mp h hp
    simp only [nextLayerHash, pairAt, if_pos hp, if_neg hq, if_true, and_self]
  · have hq : (p ^^^ 1) % 2 = 0 := ha.mpr hp
    simp only [nextLayerHash, pairAt, if_neg hp, if_pos hq, if_true, and_self]

/-- What one turn of the loop does for an item: its parent is hashed from it and another item or a
hint. -/
structure Climbs (H : Hashing) (t : HashType) (pl : PartialLayer) (hints : List GenericDigest)
    (item parent : LayerItem) (sibling : Bytes) : Prop where
  pos : parent.pos = item.pos / 2
  hash : nextLayerHash H t true item.pos item.hash sibling = .ok parent.hash
  origin : (∃ other ∈ pl, sibling = other.hash) ∨ ∃ d ∈ hints, sibling = d.getD []
  hashed : (pairAt t item.pos item.hash sibling).hashRep ∈ upInputs t pl hints

theorem Climbs.mono {item parent : LayerItem} (h : Climbs H t pl hints item parent sibling)
    (hp : ∀ x ∈ pl, x ∈ pl') (hh : ∀ d ∈ hints, d ∈ hints')
    (hi : ∀ x ∈ upInputs t pl hints, x ∈ upInputs t pl' hints') :
    Climbs H t pl' hints' item parent sibling where
  pos := h.pos
  hash := h.hash
  origin := h.origin.imp (fun ⟨x, hx, he⟩ => ⟨x, hp x hx, he⟩) (fun ⟨d, hd, he⟩ => ⟨d, hh d hd, he⟩)
  hashed := hi _ h.hashed

/-- The inversion of one turn of the verifier's loop. -/
theorem up_inv {l : ℕ} {s' : Siblings} (h : up H t l true pl { hints } = .ok (pl', s')) :
    pl'.map LayerItem.pos = parents (pl.map LayerItem.pos) ∧
      s' = { hints := hints.drop (asked (pl.map LayerItem.pos)).length } ∧
      (asked (pl.map LayerItem.pos)).length ≤ hints.length ∧
      (∀ parent ∈ pl', parent.hash.length = t.size) ∧
      ∀ item ∈ pl, ∃ parent ∈ pl', ∃ sibling, Climbs H t pl hints item parent sibling := by
  fun_induction upInputs t pl hints generalizing pl' s' with
  | case1 hints =>
    obtain ⟨rfl, rfl⟩ := Prod.mk.inj (ok.inj h)
    exact ⟨rfl, rfl, zero_le _, by simp, by simp⟩
  | case2 item hints =>
    simp only [up, bind_ok, pure_ok] at h
    obtain ⟨⟨sibling, s⟩, hg, hash, hh, he⟩ := h
    obtain ⟨rfl, rfl⟩ := Prod.mk.inj he
    cases hints with
    | nil => cases hg
    | cons d hints =>
      obtain ⟨rfl, rfl⟩ := Prod.mk.inj (ok.inj hg)
      refine ⟨rfl, rfl, by simp [asked], by simpa using length_of_nextLayerHash hh, ?_⟩
      intro x hx
      obtain rfl := mem_singleton.mp hx
      exact ⟨_, mem_cons_self, _, rfl, hh, .inr ⟨d, mem_cons_self, rfl⟩, mem_cons_self⟩
  | case3 item nx pl hints hn ih =>
    simp only [up, if_pos hn, bind_ok, pure_ok] at h
    obtain ⟨hash, hh, ⟨res, s⟩, hr, he⟩ := h
    obtain ⟨rfl, rfl⟩ := Prod.mk.inj he
    obtain ⟨hp, hs, hl, hz, hi⟩ := ih hr
    simp only [map_cons, parents, asked, if_pos hn]
    refine ⟨by rw [hp], hs, hl, forall_mem_cons.mpr ⟨length_of_nextLayerHash hh, hz⟩, ?_⟩
    have ha : (pairAt t item.pos item.hash nx.hash).hashRep ∈
        upInputs t (item :: nx :: pl) hints := by
      rw [upInputs, if_pos hn]
      exact mem_cons_self
    intro x hx
    rcases mem_cons.mp hx with rfl | hx
    · exact ⟨_, mem_cons_self, _, rfl, hh,
        .inl ⟨nx, mem_cons_of_mem _ mem_cons_self, rfl⟩, ha⟩
    rcases mem_cons.mp hx with rfl | hx
    · obtain ⟨hm, h2⟩ := @nextLayerHash_sibling H t item.pos item.hash x.hash
      rw [← hn] at hm h2
      exact ⟨_, mem_cons_self, item.hash,
        by rw [hn, xor_one_div], hm.trans hh,
        .inl ⟨item, mem_cons_self, rfl⟩, h2 ▸ ha⟩
    · obtain ⟨parent, h1, sibling, hc⟩ := hi x hx
      refine ⟨parent, mem_cons_of_mem _ h1, sibling, hc.mono ?_ (fun d hd => hd) ?_⟩
      · exact fun y hy => mem_cons_of_mem _ (mem_cons_of_mem _ hy)
      · rw [upInputs.eq_3, if_pos hn]
        exact subset_cons_self _ _
  | case4 item nx pl hints hn ih =>
    simp only [up, if_neg hn, bind_ok, pure_ok] at h
    obtain ⟨⟨sibling, s⟩, hg, hash, hh, ⟨res, _⟩, hr, he⟩ := h
    obtain ⟨rfl, rfl⟩ := Prod.mk.inj he
    cases hints with
    | nil => cases hg
    | cons d hints =>
      obtain ⟨rfl, rfl⟩ := Prod.mk.inj (ok.inj hg)
      obtain ⟨hp, hs, hl, hz, hi⟩ := ih hr
      simp only [map_cons, parents, asked, if_neg hn]
      refine ⟨by rw [hp, map_cons], hs, succ_le_succ hl,
        forall_mem_cons.mpr ⟨length_of_nextLayerHash hh, hz⟩, ?_⟩
      intro x hx
      rcases mem_cons.mp hx with rfl | hx
      · refine ⟨_, mem_cons_self, _, rfl, hh, .inr ⟨d, mem_cons_self, rfl⟩, ?_⟩
        rw [upInputs, if_neg hn]
        exact mem_cons_self
      · obtain ⟨parent, h1, sibling, hc⟩ := hi x hx
        refine ⟨parent, mem_cons_of_mem _ h1, sibling, hc.mono
          (subset_cons_self _ _) (subset_cons_self _ _) ?_⟩
        rw [upInputs.eq_3, if_neg hn]
        exact subset_cons_self _ _

variable {ds : List Bool}

theorem Opens.mono (hS : S ⊆ S') {h : Bytes} (ho : Opens H t S ds h root) :
    Opens H t S' ds h root := by
  induction ho with
  | leaf => exact .leaf _
  | step _ hx hs hm ih => exact .step ih hx hs (hS hm)

/-- A branch is extended at its lower end. -/
theorem Opens.extend (ho : Opens H t S ds (H.genericHashObj t (node right x s)) root)
    (hx : x.length = t.size) (hs : s.length = t.size) (hm : (node right x s).hashRep ∈ S) :
    Opens H t S (ds ++ [right]) x root := by
  generalize hh : H.genericHashObj t (node right x s) = h at ho
  induction ho with
  | leaf =>
    subst hh
    exact .step (.leaf x) hx hs hm
  | step _ hx' hs' hm' ih => exact .step (ih hh) hx' hs' hm'

/-- The turns from the root down to position `pos`, `n` levels below. -/
def turnsTo (n pos : ℕ) : List Bool := (List.range n).map fun j => pos.testBit (n - 1 - j)

theorem turnsTo_succ (n pos : ℕ) : turnsTo (n + 1) pos = turnsTo n (pos / 2) ++ [pos.testBit 0] := by
  rw [turnsTo, range_succ, map_append]
  congr 1
  · apply map_congr_left
    intro j hj
    have hj := mem_range.mp hj
    rw [testBit_div_two]
    congr 1
    omega
  · simp

/-- Every item of the first partial layer opens to what the loop leaves. -/
theorem verifyLoop_opens {l : ℕ} (h : verifyLoop H t fuel l pl { hints } = .ok pl')
    (h1 : ∀ x ∈ pl, x.hash.length = t.size) (hh : ∀ d ∈ hints, (d.getD []).length = t.size) :
    pl'.length ≤ 1 ∧ ∀ item ∈ pl, ∃ top ∈ pl',
      Opens H t {x | x ∈ loopInputs H t fuel l pl { hints }}
        (turnsTo (turns fuel hints.length (pl.map LayerItem.pos)) item.pos) item.hash top.hash := by
  induction fuel generalizing l pl hints with
  | zero =>
    by_cases hs : hints = [] ∧ pl.length ≤ 1
    · rw [verifyLoop_stop hs] at h
      obtain rfl := ok.inj h
      exact ⟨hs.2, fun item hi => ⟨item, hi, .leaf _⟩⟩
    · rw [verifyLoop, if_neg hs] at h
      cases h
  | succ fuel ih =>
    by_cases hs : hints = [] ∧ pl.length ≤ 1
    · rw [verifyLoop_stop hs] at h
      obtain rfl := ok.inj h
      have hr : turns (fuel + 1) hints.length (pl.map LayerItem.pos) = 0 := by
        rw [turns, if_pos (by simpa using hs)]
      rw [hr]
      exact ⟨hs.2, fun item hi => ⟨item, hi, .leaf _⟩⟩
    · rw [verifyLoop_succ hs, bind_ok] at h
      obtain ⟨⟨pl1, _⟩, hu, hl⟩ := h
      obtain ⟨hp, rfl, -, hp1, h4⟩ := up_inv hu
      have hr : turns (fuel + 1) hints.length (pl.map LayerItem.pos) =
          turns fuel (hints.length - (asked (pl.map LayerItem.pos)).length)
            (parents (pl.map LayerItem.pos)) + 1 := by rw [turns, if_neg (by simpa using hs)]
      have hn : loopInputs H t (fuel + 1) l pl { hints } = upInputs t pl hints ++
          loopInputs H t fuel (l + 1) pl1
            { hints := hints.drop (asked (pl.map LayerItem.pos)).length } := by
        rw [loopInputs, if_neg hs, hu]
      obtain ⟨ho, h2⟩ := ih hl hp1 fun d hd => hh d (mem_of_mem_drop hd)
      rw [hp, length_drop] at h2
      refine ⟨ho, ?_⟩
      intro item hi
      obtain ⟨pr, h5, sb, hc⟩ := h4 item hi
      obtain ⟨top, ht, h3⟩ := h2 pr h5
      have hb : sb.length = t.size := by
        rcases hc.origin with ⟨ot, h6, rfl⟩ | ⟨d, hd, rfl⟩
        · exact h1 ot h6
        · exact hh d hd
      obtain ⟨h7, ha⟩ := nextLayerHash_sized (h1 item hi) hb hc.hash
      have hm := hc.hashed
      rw [ha] at hm
      rw [hc.pos, h7] at h3
      refine ⟨top, ht, ?_⟩
      rw [hr, turnsTo_succ, hn]
      refine (h3.mono fun x hx => mem_append_right _ hx).extend (h1 item hi) hb
        (mem_append_left _ hm)

/-! ### Accepted proofs -/

theorem index_inv (h : merkleTreeToVectorCommitmentIndex i d = .ok j) :
    d.toNat < 64 ∧ i < 2 ^ d.toNat := by
  simp only [merkleTreeToVectorCommitmentIndex, bind_ok, failIf_ok, not_le] at h
  obtain ⟨-, hl, -⟩ := h
  by_cases hd : d.toNat < 64
  · rw [one_shiftLeft_mod hd] at hl
    exact ⟨hd, hl⟩
  · rw [Nat.one_shiftLeft, Nat.mod_eq_zero_of_dvd (Nat.pow_dvd_pow 2 (Nat.le_of_not_lt hd))] at hl
    omega

theorem convertIndexes_inv (h : convertIndexes elems d = .ok converted) :
    ∀ i ∈ elems, d.toNat < 64 ∧ i < 2 ^ d.toNat := by
  have hf : ∀ (l : List (Σ _ : ℕ, Hashable)) (m : Dict ℕ Hashable),
      l.foldlM (fun converted e => do
        let idx ← merkleTreeToVectorCommitmentIndex e.1 d
        return converted.upsert idx e.2) m = .ok converted →
      ∀ e ∈ l, d.toNat < 64 ∧ e.1 < 2 ^ d.toNat := by
    intro l
    induction l with
    | nil => simp
    | cons e l ih =>
      intro m hl
      simp only [foldlM_cons, bind_ok, pure_ok] at hl
      obtain ⟨m', ⟨idx, hd, -⟩, hl⟩ := hl
      exact forall_mem_cons.mpr ⟨index_inv hd, ih m' hl⟩
  intro i hi
  obtain ⟨e, he⟩ := Dict.mem_iff.mp hi
  exact hf _ _ h ⟨i, e⟩ (AList.mem_lookup_iff.mp he)

theorem hashLeaves_ok {leaves : PartialLayer} (h : hashLeaves H t elems d = .ok leaves) :
    leaves = elems.entries.map fun e => { pos := e.1, hash := H.genericHashObj t e.2 } := by
  refine eq_map_of_mapM_ok (fun c a hc => ?_) h
  simp only [bind_ok, pure_ok] at hc
  obtain ⟨-, -, rfl⟩ := hc
  rfl

/-- An element of an accepted exact proof opens to the root along the bits of its position. -/
theorem Exact.opens {proof : Proof} (h : Exact elems proof)
    (ha : verifyVectorCommitment H root elems proof = .ok ()) (he : elems.lookup i = some e) :
    e.hashRep ∈ hashedInputs H elems proof ∧
      Opens H proof.hashFactory {x | x ∈ hashedInputs H elems proof}
        ((List.range proof.treeDepth.toNat).map i.testBit)
        (H.genericHashObj proof.hashFactory e) root := by
  rw [verifyVectorCommitment, bind_ok] at ha
  obtain ⟨converted, hc, ha⟩ := ha
  have hb := convertIndexes_inv hc
  have hi := hb i (Dict.mem_iff.mpr ⟨_, he⟩)
  obtain ⟨cn', hc', hk⟩ := convertIndexes_ok rfl hi.1 fun j hj => (hb j hj).2
  obtain rfl : cn' = converted := ok.inj (hc'.symm.trans hc)
  have hn := AList.mem_lookup_iff.mp ((hk _ e).mpr ⟨i, he, rfl⟩)
  rw [verify, if_neg (ne_nil_of_mem hn), bind_ok] at ha
  obtain ⟨leaves, hv, ha⟩ := ha
  have hl := hashLeaves_ok hv
  rw [verifyPath, bind_ok] at ha
  obtain ⟨pl, h3, hr⟩ := ha
  have h4 : hashedInputs H elems proof = cn'.entries.map (fun e => e.2.hashRep) ++
      loopInputs H proof.hashFactory (proof.path.length + (buildFirstPartialLayer leaves).length) 0
        (buildFirstPartialLayer leaves) { hints := proof.path } := by
    rw [hashedInputs, hc]
    simp only
    rw [hv]
  have hm : ∀ x, x ∈ buildFirstPartialLayer leaves ↔ x ∈ leaves := fun x =>
    mem_insertionSort _
  have hp : (buildFirstPartialLayer leaves).map LayerItem.pos =
      cn'.keys.insertionSort (· ≤ ·) := by
    rw [buildFirstPartialLayer, map_insertionSort _ (· ≤ ·) LayerItem.pos leaves
      (fun _ _ _ _ => Iff.rfl), hl, map_map]
    rfl
  have h5 : (buildFirstPartialLayer leaves).length = cn'.entries.length := by
    rw [buildFirstPartialLayer, length_insertionSort, hl, length_map]
  obtain ⟨ho, h6⟩ := verifyLoop_opens h3 (fun x hx => by
    rw [hm, hl] at hx
    obtain ⟨e, -, rfl⟩ := mem_map.mp hx
    exact H.length_genericHashObj _ _) h.hints
  obtain ⟨top, ht, h1⟩ := h6
    { pos := reverseBits proof.treeDepth.toNat i, hash := H.genericHashObj proof.hashFactory e }
    ((hm _).mpr (hl ▸ mem_map.mpr ⟨_, hn, rfl⟩))
  -- the loop leaves one item, and that is the root
  have hh : top.hash = root := by
    obtain ⟨x, rfl⟩ := length_eq_one_iff.mp (ho.antisymm (length_pos_of_mem ht))
    rw [inspectRoot, failIf_ok, not_or, not_not, not_not] at hr
    rw [mem_singleton.mp ht]
    exact hr.2
  have h2 := h.depth
  rw [levelsClimbed, hc] at h2
  have h7 : turns (proof.path.length + (buildFirstPartialLayer leaves).length)
      proof.path.length ((buildFirstPartialLayer leaves).map LayerItem.pos) =
        proof.treeDepth.toNat := by
    rw [h5, hp]
    exact h2
  have h8 : turnsTo proof.treeDepth.toNat (reverseBits proof.treeDepth.toNat i) =
      (List.range proof.treeDepth.toNat).map i.testBit := by
    apply map_congr_left
    intro j hj
    have hj := mem_range.mp hj
    rw [testBit_reverseBits hi.1.le, decide_eq_true (by omega), Bool.true_and]
    congr 1
    omega
  rw [h7, h8, hh] at h1
  rw [h4]
  exact ⟨mem_append_left _ (mem_map.mpr ⟨_, hn, rfl⟩), h1.mono fun x hx => mem_append_right _ hx⟩

/-! ### Honest proofs are exact -/

variable {leaves : Layer} {tree : Tree} {array : HashableArray} {k : ℕ} {ls : List Layer}
  {layer : Layer}

/-- In a full tree every sibling is there. -/
theorem Levels.hints_sized (h : Levels H t layer ls) (he : layer.length = 2 ^ n)
    (hs : Sized t layer) (h1 : ∀ p ∈ ps, p < layer.length) :
    ∀ d ∈ hintsFor ls ps, (d.getD []).length = t.size := by
  induction h generalizing ps n with
  | top d => simp [hintsFor]
  | @next layer next ls _ hn hr ih =>
    obtain ⟨_, rfl⟩ := hr.head
    obtain ⟨m, rfl⟩ : ∃ m, n = m + 1 := ⟨n - 1, by
      cases n with
      | zero => omega
      | succ n => rfl⟩
    have hh : next.length = 2 ^ m := by
      rw [hn.length, he]
      omega
    intro d hd
    rcases mem_append.mp hd with hd | hd
    · obtain ⟨q, hq, rfl⟩ := mem_map.mp hd
      have hl : q < layer.length := by
        obtain ⟨p, hp, rfl⟩ := mem_asked hq
        have := h1 p hp
        rw [xor_one_eq]
        split <;> omega
      rw [getElem?_eq_getElem hl]
      exact hs _ (getElem_mem hl)
    · exact ih hh hn.sized (hn.parents_lt h1) d hd

/-- The keys of a map, in order, are the proved positions if they are the same positions. -/
theorem sorted_keys_eq (h : ∀ i, i ∈ elems ↔ i ∈ idxs) :
    elems.keys.insertionSort (· ≤ ·) = provedPositions idxs := by
  have hp : (elems.keys.insertionSort (· ≤ ·)).Perm (provedPositions idxs) := by
    refine (perm_insertionSort _ _).trans ?_
    refine (perm_ext_iff_of_nodup elems.keys_nodup
      ((provedPositions_sorted idxs).imp ne_of_lt)).mpr fun i => ?_
    rw [mem_provedPositions, ← h i, AList.mem_keys]
  exact hp.eq_of_pairwise' (pairwise_insertionSort _ _) ((provedPositions_sorted idxs).imp le_of_lt)

variable (h : Commits H t array k leaves tree)
include h in
theorem Commits.exact (hn : idxs ≠ []) (hi : ∀ i ∈ idxs, i < array.length)
    (he : ElemsAt array idxs elems) :
    Exact elems
      { path := hintsFor tree.levels (provedPositions (idxs.map (reverseBits k)))
        hashFactory := t
        treeDepth := tree.depth } := by
  obtain ⟨converted, ho, -, hk⟩ := h.converted hi he
  have hl : ∀ p ∈ provedPositions (idxs.map (reverseBits k)), p < leaves.length := fun p hp =>
    h.reversed_lt idxs p (mem_provedPositions.mp hp)
  have h1 : provedPositions (idxs.map (reverseBits k)) ≠ [] :=
    provedPositions_ne_nil (by simpa using hn)
  have hc : converted.entries.length =
      (provedPositions (idxs.map (reverseBits k))).length := by
    rw [← sorted_keys_eq hk, length_insertionSort, AList.keys, List.keys, length_map]
  refine ⟨?_, h.levels.hints_sized h.length_leaves (h.leavesOf.sized (h.padded.good_iff.mpr h.good)) hl⟩
  obtain ⟨_, -, -, hu⟩ := h.levels.verifyLoop 0 h1 (provedPositions_sorted _) hl (le_succ _)
  rw [levelsClimbed, ho]
  simp only
  rw [sorted_keys_eq hk, hc, hu, (h.levels.depth h.fits).1]

/-! ### Position binding -/

/-- A map with one element. -/
def single (i : ℕ) (e : Hashable) : Dict ℕ Hashable := (∅ : Dict ℕ Hashable).upsert i e

theorem lookup_single (i j : ℕ) (e : Hashable) :
    (single i e).lookup j = if j = i then some e else none := by
  rw [single, Dict.lookup_upsert, AList.lookup_empty]

theorem elemsAt_single (he : array.marshal i = .ok e) : ElemsAt array [i] (single i e) := by
  intro j _
  rw [lookup_single]
  by_cases hj : j = i
  · subst hj
    rw [he]
    simp
  · simp [hj]

/-- Two exact proofs under one root have the same element at a position. -/
theorem Exact.binding {proof1 proof2 : Proof} (h1 : Exact elems1 proof1) (h2 : Exact elems2 proof2)
    (hs : proof1.hashFactory = proof2.hashFactory) (hf : Set.InjOn (H.sum proof1.hashFactory)
      {x | x ∈ hashedInputs H elems1 proof1 ++ hashedInputs H elems2 proof2})
    (ha1 : verifyVectorCommitment H root elems1 proof1 = .ok ())
    (ha2 : verifyVectorCommitment H root elems2 proof2 = .ok ()) (he1 : elems1.lookup i = some e1)
    (he2 : elems2.lookup i = some e2) (hi1 : e1.id ≠ .merkleArrayNode)
    (hi2 : e2.id ≠ .merkleArrayNode) : e1 = e2 := by
  obtain ⟨hm1, ho1⟩ := h1.opens ha1 he1
  obtain ⟨hm2, ho2⟩ := h2.opens ha2 he2
  rw [← hs] at ho2
  refine Opens.binding hf hi1 hi2 (mem_append_left _ hm1)
    (mem_append_right _ hm2) (ho1.mono fun x hx => mem_append_left _ hx)
    (ho2.mono fun x hx => mem_append_right _ hx) fun j hj1 hj2 => ?_
  simp only [length_map, length_range] at hj1 hj2
  simp [hj1, hj2]

/-- **Position binding.** Exact proofs accepted under one root, even an adversarial one, have the
same hash input at a position unless two of the strings they hash collide. An exact proof accepted
under the root of a tree has the array's own element, unless a string it hashes collides with one
hashed for the proof of the tree. -/
theorem position_binding (H : Hashing) :
    (∀ (root : Bytes) (elems₁ elems₂ : Dict ℕ Hashable) (proof₁ proof₂ : Proof) (i : ℕ)
      (e₁ e₂ : Hashable), Exact elems₁ proof₁ → Exact elems₂ proof₂ →
      proof₁.hashFactory = proof₂.hashFactory →
      Set.InjOn (H.sum proof₁.hashFactory)
        {x | x ∈ hashedInputs H elems₁ proof₁ ++ hashedInputs H elems₂ proof₂} →
      verifyVectorCommitment H root elems₁ proof₁ = .ok () →
      verifyVectorCommitment H root elems₂ proof₂ = .ok () →
      elems₁.lookup i = some e₁ → elems₂.lookup i = some e₂ →
      e₁.id ≠ .merkleArrayNode → e₂.id ≠ .merkleArrayNode → e₁.hashRep = e₂.hashRep) ∧
    ∀ (t : HashType) (array : HashableArray) (tree : Tree), array.Good → array.length ≤ 2 ^ 63 →
      BuildVectorCommitmentTree H t array (.ok tree) →
      ∀ i < array.length, ∀ own, array.marshal i = .ok own → own.id ≠ .merkleArrayNode →
        ∃ honest, tree.prove H [i] = .ok honest ∧
          ∀ (elems : Dict ℕ Hashable) (proof : Proof) (e : Hashable), Exact elems proof →
            proof.hashFactory = t →
            Set.InjOn (H.sum t)
              {x | x ∈ hashedInputs H elems proof ++ hashedInputs H (single i own) honest} →
            verifyVectorCommitment H tree.root elems proof = .ok () →
            elems.lookup i = some e → e.id ≠ .merkleArrayNode → e.hashRep = own.hashRep := by
  constructor
  · intro root elems₁ elems₂ proof₁ proof₂ i e₁ e₂ h1 h2 hs hf ha1 ha2 he1 he2 hi1 hi2
    exact congrArg _ (h1.binding h2 hs hf ha1 ha2 he1 he2 hi1 hi2)
  · intro t array tree hg h3 hb i hi own ho hd
    obtain ⟨_, k, _, hk, hc⟩ := hb.commits hg h3
    obtain rfl := ok.inj hk
    have hn : [i] ≠ [] := cons_ne_nil i []
    have hx : ∀ j ∈ [i], j < array.length := fun j hj => mem_singleton.mp hj ▸ hi
    refine ⟨_, hc.prove hn hx, ?_⟩
    intro elems proof e h4 ht hf ha he hi'
    have ho := elemsAt_single ho
    subst ht
    exact congrArg _ (h4.binding (hc.exact hn hx ho) rfl hf ha
      (hc.verify hn hx ho) he (by rw [lookup_single, if_pos rfl]) hi' hd)

/-! ### Proofs that are not exact -/

theorem reverseBits_double (hk : k < 64) : reverseBits (k + 1) (2 * i) = reverseBits k i := by
  apply eq_of_testBit_eq
  intro j
  rw [testBit_reverseBits (by omega), testBit_reverseBits (by omega),
    show 2 * i = 2 ^ 1 * i by rw [pow_one], testBit_two_pow_mul]
  by_cases hj : j < k
  · rw [decide_eq_true hj, decide_eq_true (by omega), decide_eq_true (by omega), Bool.true_and,
      Bool.true_and]
    congr 1
    omega
  · rw [decide_eq_false hj, Bool.false_and]
    by_cases h1 : j < k + 1
    · rw [decide_eq_false (show ¬k + 1 - 1 - j ≥ 1 by omega), Bool.false_and, Bool.and_false]
    · rw [decide_eq_false h1, Bool.false_and]

include h in
/-- The proof of a tree for position `i`, with a depth that is one too large, is accepted for the
element of `i` at position `2 * i`. -/
theorem Commits.verify_deeper (hk : k < 63) (hi : i < array.length) (he : array.marshal i = .ok e)
    (hd : depth.toNat = k + 1) :
    verifyVectorCommitment H tree.root (single (2 * i) e)
      { path := hintsFor tree.levels (provedPositions ([i].map (reverseBits k)))
        hashFactory := t
        treeDepth := depth } = .ok () := by
  have ht := hi.trans_le h.padded.le
  obtain ⟨cn, hc, hl⟩ := @convertIndexes_ok (k + 1) depth (single (2 * i) e) hd
    (by omega) fun j hj => by
      rw [← AList.lookup_isSome, lookup_single] at hj
      split at hj
      · omega
      · cases hj
  have ho : ∀ j e', cn.lookup j = some e' ↔ j = reverseBits k i ∧ e' = e := by
    intro j e'
    rw [hl]
    constructor
    · rintro ⟨_, hi', rfl⟩
      rw [lookup_single] at hi'
      split at hi'
      · rename_i hq
        rw [hq, reverseBits_double (by omega)]
        exact ⟨rfl, (Option.some.inj hi').symm⟩
      · cases hi'
    · rintro ⟨rfl, rfl⟩
      exact ⟨2 * i, by rw [lookup_single, if_pos rfl], reverseBits_double (by omega)⟩
  rw [verifyVectorCommitment, hc]
  refine h.levels.verify (cons_ne_nil _ _) (h.reversed_lt [i]) (fun j => ?_)
    (fun j e' he' => ?_) (by rw [hd]; omega) ?_
  · rw [Dict.mem_iff]
    simp [ho]
  · obtain ⟨rfl, rfl⟩ := (ho j e').mp he'
    refine h.leavesOf.leaf _ _ ?_ ((h.padded.marshal_reversed hi).trans he)
    rw [h.padded.length]
    exact reverseBits_lt h.padded.lt.le i
  · rw [hd, h.length_leaves]
    omega

theorem length_hintsFor_singleton (ls : List Layer) (p : ℕ) :
    (hintsFor ls [p]).length = ls.length - 1 := by
  induction ls generalizing p with
  | nil => rfl
  | cons _ ls ih =>
    cases ls with
    | nil => rfl
    | cons _ ls =>
      rw [hintsFor, length_append, parents, ih]
      simp only [asked, map_cons, map_nil, length_cons, length_nil]
      omega

include h in
/-- A proof of a tree for one position, with any depth. -/
theorem Commits.decodable (i : ℕ) (depth : UInt8) :
    Proof.Decodable
      { path := hintsFor tree.levels (provedPositions ([i].map (reverseBits k)))
        hashFactory := t
        treeDepth := depth } where
  path := by
    show (hintsFor tree.levels [reverseBits k i]).length ≤ _
    have := (h.levels.depth h.fits).2
    rw [length_hintsFor_singleton]
    show _ ≤ 32768
    omega
  digests := by
    intro d hd
    have hs := h.levels.hints_sized h.length_leaves (h.leavesOf.sized (h.padded.good_iff.mpr h.good))
      (fun p hp => h.reversed_lt [i] p (mem_provedPositions.mp hp)) d hd
    rw [hs]
    cases t <;> decide

/-- With a hash of 32 bytes, a left hint of 64 bytes leaves no room for the digest of the element:
any element is accepted at position 1 under the root of two leaves. -/
theorem verify_oversized (H : Hashing) (hl : l.length = 32) (hr : r.length = 32) (e : Hashable) :
    verifyVectorCommitment H (H.genericHashObj .sha512_256 (node false l r)) (single 1 e)
      { path := [some (l ++ r)], hashFactory := .sha512_256, treeDepth := 1 } = .ok () := by
  have hi : merkleTreeToVectorCommitmentIndex 1 1 = .ok 1 := by decide +kernel
  have hc : convertIndexes (single 1 e) 1 = .ok (single 1 e) := by
    show (do
      let idx ← merkleTreeToVectorCommitmentIndex 1 1
      return (∅ : Dict ℕ Hashable).upsert idx e) = _
    rw [hi]
    rfl
  have hp : hashPair H .sha512_256 (l ++ r) (H.genericHashObj .sha512_256 e) =
      .ok (H.genericHashObj .sha512_256 (node false l r)) := by
    have hle : (l ++ r).length = 2 * HashType.sha512_256.size := by
      rw [length_append, hl, hr]
      rfl
    rw [hashPair_ok hle.le, hle]
    simp [fit, node]
  have hv : hashLeaves H .sha512_256 (single 1 e) 1 =
      .ok [{ pos := 1, hash := H.genericHashObj .sha512_256 e }] := rfl
  have hu : up H .sha512_256 0 true [{ pos := 1, hash := H.genericHashObj .sha512_256 e }]
      { hints := [some (l ++ r)] } =
        .ok ([{ pos := 0, hash := H.genericHashObj .sha512_256 (node false l r) }], {}) := by
    simp only [up, Siblings.get, ok_bind, nextLayerHash, Option.getD_some]
    rw [hp]
    rfl
  rw [verifyVectorCommitment, hc, ok_bind, verify, hv]
  show (verifyLoop H .sha512_256 2 0 [{ pos := 1, hash := H.genericHashObj .sha512_256 e }]
    { hints := [some (l ++ r)] } >>= inspectRoot _) = _
  rw [verifyLoop_succ (by simp), hu, ok_bind, verifyLoop_stop (by simp), ok_bind, inspectRoot,
    failIf, if_neg (by simp)]

namespace Sample

def four : HashableArray := { length := 4, marshal := fun i => .ok (element i) }

theorem four_good : four.Good := fun i _ => ⟨element i, rfl⟩

end Sample

/-- Both conditions are needed, for every hash. The tree of an array of four elements has proofs
within the bounds of the codec for its elements 1 and 2 at position 2, with hints of the size of the
hash. And every element has a proof at position 1 under the root of any two digests of 32 bytes, with
as many hints as its depth. -/
theorem exact_needed (H : Hashing) (t : HashType) :
    (∃ tree proof1 proof2, BuildVectorCommitmentTree H t Sample.four (.ok tree) ∧
      proof1.hashFactory = proof2.hashFactory ∧ proof1.Decodable ∧ proof2.Decodable ∧
      verifyVectorCommitment H tree.root (single 2 (Sample.element 1)) proof1 = .ok () ∧
      verifyVectorCommitment H tree.root (single 2 (Sample.element 2)) proof2 = .ok () ∧
      (Sample.element 1).hashRep ≠ (Sample.element 2).hashRep) ∧
    ∀ l r : Bytes, l.length = 32 → r.length = 32 → ∃ root, ∃ proof : Proof,
      proof.Decodable ∧ proof.path.length = proof.treeDepth.toNat ∧
        ∀ e, verifyVectorCommitment H root (single 1 e) proof = .ok () := by
  constructor
  · have hf : Sample.four.length ≤ 2 ^ 63 := by decide
    obtain ⟨_, hb⟩ := exists_buildVectorCommitmentTree H t Sample.four
    obtain ⟨tree, k, _, rfl, hc⟩ := hb.commits Sample.four_good hf
    obtain rfl : k = 2 := by
      have hn : 2 ^ 2 = 2 ^ k := hc.padded.length
      exact (Nat.pow_right_injective le_rfl hn).symm
    have hi : ∀ j ∈ [2], j < Sample.four.length := by decide
    have hd := hc.verify_deeper (i := 1) (e := Sample.element 1) (by omega) (by decide)
      rfl (show (3 : UInt8).toNat = 2 + 1 from rfl)
    have ho := hc.verify (cons_ne_nil _ _) hi (elemsAt_single rfl)
    refine ⟨tree, _, _, hb, ?_, hc.decodable 1 3, hc.decodable 2 tree.depth, hd, ho, by decide⟩
    rfl
  · intro l r hl hr
    refine ⟨_, _, ⟨?_, ?_⟩, rfl, fun e => verify_oversized H hl hr e⟩
    · show 1 ≤ 2 ^ maxEncodedTreeDepth / 2
      decide
    · simp [hl, hr, maxHashDigestSize, HashType.size]

theorem position_binding_needs_exact :
    (∃ tree proof₁ proof₂,
      BuildVectorCommitmentTree Sample.hashing .sha512_256 Sample.four (.ok tree) ∧
      proof₁.hashFactory = proof₂.hashFactory ∧ proof₁.Decodable ∧ proof₂.Decodable ∧
      verifyVectorCommitment Sample.hashing tree.root (single 2 (Sample.element 1)) proof₁ = .ok () ∧
      verifyVectorCommitment Sample.hashing tree.root (single 2 (Sample.element 2)) proof₂ = .ok () ∧
      (Sample.element 1).hashRep ≠ (Sample.element 2).hashRep) ∧
    ∃ root, ∃ proof : Proof, proof.Decodable ∧ proof.path.length = proof.treeDepth.toNat ∧
      ∀ e, verifyVectorCommitment Sample.hashing root (single 1 e) proof = .ok () := by
  obtain ⟨hd, ho⟩ := exact_needed Sample.hashing .sha512_256
  exact ⟨hd, ho (List.replicate 32 0) (List.replicate 32 1) rfl rfl⟩

namespace Sample

/-- The proof of the second of two elements, with the hash that keeps the first bytes. -/
def twoProof : Proof :=
  { path := [some (hashing.genericHashObj .sumhash (element 0))]
    hashFactory := .sumhash
    treeDepth := 1 }

def twoRoot : Bytes :=
  hashing.genericHashObj .sumhash (node true (hashing.genericHashObj .sumhash (element 1))
    (hashing.genericHashObj .sumhash (element 0)))

theorem twoProof_exact : Exact (single 1 (element 1)) twoProof where
  depth := by decide +kernel
  hints := by decide +kernel

def both : Dict ℕ Hashable := (single 0 (element 0)).upsert 1 (element 1)

/-- The proof of both elements together needs no hints. -/
def bothProof : Proof := { path := [], hashFactory := .sumhash, treeDepth := 1 }

theorem bothProof_exact : Exact both bothProof where
  depth := by decide +kernel
  hints := by decide +kernel

theorem two_collision_free : Set.InjOn (hashing.sum .sumhash)
    {x | x ∈ hashedInputs hashing (single 1 (element 1)) twoProof ++
      hashedInputs hashing both bothProof} := by
  have ha : ∀ x ∈ hashedInputs hashing (single 1 (element 1)) twoProof ++
      hashedInputs hashing both bothProof,
      ∀ y ∈ hashedInputs hashing (single 1 (element 1)) twoProof ++
        hashedInputs hashing both bothProof,
      hashing.sum .sumhash x = hashing.sum .sumhash y → x = y := by decide +kernel
  exact fun x hx y hy h => ha x hx y hy h

end Sample

open Sample

/-- The proof of the second of two elements and the proof of both are exact and accepted. -/
theorem position_binding_two :
    verifyVectorCommitment hashing twoRoot (single 1 (element 1)) twoProof = .ok () ∧
      verifyVectorCommitment hashing twoRoot both bothProof = .ok () ∧
      ∀ e₁ ∈ (single 1 (element 1)).lookup 1, ∀ e₂ ∈ both.lookup 1, e₁.hashRep = e₂.hashRep := by
  have ha : verifyVectorCommitment hashing twoRoot (single 1 (element 1))
      twoProof = .ok () := by decide +kernel
  have hb : verifyVectorCommitment hashing twoRoot both bothProof = .ok () := by decide +kernel
  have hi : ∀ e ∈ both.lookup 1, e.id ≠ .merkleArrayNode := by decide +kernel
  refine ⟨ha, hb, fun e₁ h1 e₂ h2 => ?_⟩
  exact (position_binding hashing).1 _ _ _ _ _ _ _ _ twoProof_exact bothProof_exact rfl
    two_collision_free ha hb h1 h2 (hi e₁ h1) (hi e₂ h2)

end Novarand.MerkleArray
