import Novarand.Crypto.MerkleArray

/-!
# Layers and partial layers of a Merkle tree

Prover and verifier run the same loop over partial layers. Which parents it reaches (`parents`) and
which siblings it asks for (`asked`) depends on the positions alone, so the verifier takes the hints
in the order in which the prover left them, level by level.

Every outcome of building is a stack of layers, each hashed from the one below it (`Levels`).
-/

namespace Novarand.MerkleArray

open Crypto List Function Nat

variable {H : Hashing} {t : HashType}

/-! ### Positions of a partial layer -/

theorem xor_one_eq (p : ℕ) : p ^^^ 1 = if p % 2 = 0 then p + 1 else p - 1 := by
  have hd : (p ^^^ 1) / 2 = p / 2 := by
    rw [xor_div_two]
    simp
  have hm : (p ^^^ 1) % 2 = (p + 1) % 2 := xor_mod_two_eq
  split <;> omega

/-- The positions of the next partial layer. -/
def parents : List ℕ → List ℕ
  | [] => []
  | [p] => [p / 2]
  | p :: q :: ps => if q = p ^^^ 1 then p / 2 :: parents ps else p / 2 :: parents (q :: ps)

/-- The siblings that are not in the partial layer, in the order in which they are asked for. -/
def asked : List ℕ → List ℕ
  | [] => []
  | [p] => [p ^^^ 1]
  | p :: q :: ps => if q = p ^^^ 1 then asked ps else (p ^^^ 1) :: asked (q :: ps)

theorem xor_one_div (p : ℕ) : (p ^^^ 1) / 2 = p / 2 := by
  rw [xor_one_eq]
  split <;> omega

variable {idxs ps : List ℕ} {next : Layer} {ls : List Layer} {out : Except MerkleError Layer}
  {array : HashableArray} {a i l x p fuel k stride n d : ℕ}

theorem mem_parents : x ∈ parents ps ↔ ∃ p ∈ ps, x = p / 2 := by
  fun_induction parents ps with
  | case1 => simp
  | case2 p => simp
  | case3 p ps ih => simp [ih, xor_one_div]
  | case4 p q ps _ ih => simp [ih]

theorem parents_ne_nil (h : ps ≠ []) : parents ps ≠ [] := by
  fun_induction parents ps <;> simp_all

/-- Two children for each parent, in the layer or asked for. -/
theorem length_parents (ps : List ℕ) : 2 * (parents ps).length = ps.length + (asked ps).length := by
  fun_induction parents ps with
  | case1 => rfl
  | case2 p => rfl
  | case3 p ps ih =>
    rw [asked, if_pos rfl]
    simp only [length_cons]
    omega
  | case4 p q ps hq ih =>
    rw [asked, if_neg hq]
    simp only [length_cons] at ih ⊢
    omega

theorem parents_sorted (h : ps.Pairwise (· < ·)) : (parents ps).Pairwise (· < ·) := by
  fun_induction parents ps with
  | case1 => exact List.Pairwise.nil
  | case2 p => exact pairwise_singleton _ _
  | case3 p ps ih =>
    rw [pairwise_cons, pairwise_cons] at h
    refine pairwise_cons.mpr ⟨?_, ih h.2.2⟩
    intro x hx
    obtain ⟨r, hr, rfl⟩ := mem_parents.mp hx
    have hp := h.1 _ mem_cons_self
    have h1 := h.2.1 r hr
    rw [xor_one_eq] at hp h1
    split at hp <;> split at h1 <;> omega
  | case4 p q ps hq ih =>
    have hs := (pairwise_cons.mp h).2
    refine pairwise_cons.mpr ⟨?_, ih hs⟩
    intro x hx
    obtain ⟨r, hr, rfl⟩ := mem_parents.mp hx
    have hp := (pairwise_cons.mp h).1 q mem_cons_self
    have h1 : q ≤ r := by
      rcases mem_cons.mp hr with rfl | hr
      · exact le_rfl
      · exact ((pairwise_cons.mp hs).1 r hr).le
    rw [xor_one_eq] at hq
    split at hq <;> omega

/-! ### One level -/

/-- `next` is the layer over `layer`. -/
structure IsNext (H : Hashing) (t : HashType) (layer next : Layer) : Prop where
  length : next.length = (layer.length + 1) / 2
  node : ∀ j, 2 * j < layer.length → ∃ l h, layer[2 * j]? = some l ∧ next[j]? = some h ∧
    hashPair H t l (layer[2 * j + 1]?.getD []) = .ok h

/-- The items of a partial layer at given positions. -/
def itemsAt (layer : Layer) (ps : List ℕ) : PartialLayer :=
  ps.map fun p => { pos := p, hash := layer[p]?.getD [] }

/-- The prover's loop depends on the positions only. -/
theorem up_prover {tree : Tree} {layer : Layer} (hl : tree.levels[l]? = some layer)
    (pl : PartialLayer) (hints : List GenericDigest) :
    up H t l false pl { tree := some tree, hints } =
      .ok ((parents (pl.map LayerItem.pos)).map fun p => { pos := p, hash := [] },
        { tree := some tree, hints := hints ++ (asked (pl.map LayerItem.pos)).map (layer[·]?) }) := by
  generalize hp : pl.map LayerItem.pos = ps
  fun_induction parents ps generalizing pl hints with
  | case1 =>
    obtain rfl := map_eq_nil_iff.mp hp
    simp [up, asked]
  | case2 p =>
    obtain ⟨it, rfl, rfl⟩ := map_eq_singleton_iff.mp hp
    simp [up, asked, Siblings.get, hl, nextLayerHash, ok_bind]
  | case3 p ps ih =>
    obtain ⟨it, pl, rfl, rfl, hp⟩ := map_eq_cons_iff.mp hp
    obtain ⟨nx, pl, rfl, hn, hp⟩ := map_eq_cons_iff.mp hp
    rw [up, if_pos hn, ih pl hints hp, asked, if_pos rfl]
    rfl
  | case4 p q ps hq ih =>
    obtain ⟨it, pl, rfl, rfl, ht⟩ := map_eq_cons_iff.mp hp
    obtain ⟨nx, pl, rfl, rfl, -⟩ := map_eq_cons_iff.mp ht
    rw [up, if_neg hq, asked, if_neg hq]
    simp only [Siblings.get, hl, ok_bind, nextLayerHash, Bool.false_eq_true, if_false]
    rw [ih (nx :: pl) _ ht]
    simp

/-- The hash of a parent from one of its children in the tree. -/
theorem IsNext.hash {layer : Layer} (h : IsNext H t layer next) (hp : p < layer.length) :
    nextLayerHash H t true p (layer[p]?.getD []) (layer[p ^^^ 1]?.getD []) =
      .ok (next[p / 2]?.getD []) := by
  obtain ⟨l, d, hl, hn, hr⟩ := h.node (p / 2) (by omega)
  rw [nextLayerHash, xor_one_eq, hn]
  by_cases ha : p % 2 = 0
  · rw [if_pos ha, if_pos ha]
    rw [show 2 * (p / 2) = p by omega] at hl hr
    rw [hl]
    exact hr
  · rw [if_neg ha, if_neg ha]
    rw [show 2 * (p / 2) = p - 1 by omega] at hl hr
    rw [show p - 1 + 1 = p by omega] at hr
    rw [hl]
    exact hr

/-- The verifier's loop on the prover's hints. -/
theorem up_verifier {layer : Layer} (h : IsNext H t layer next) (l : ℕ)
    (hp : ∀ p ∈ ps, p < layer.length) (rest : List GenericDigest) :
    up H t l true (itemsAt layer ps) { hints := (asked ps).map (layer[·]?) ++ rest } =
      .ok (itemsAt next (parents ps), { hints := rest }) := by
  fun_induction parents ps with
  | case1 => rfl
  | case2 p =>
    have hh := h.hash (hp p mem_cons_self)
    simp only [itemsAt, map_cons, map_nil, asked, up, Siblings.get, cons_append,
      nil_append, ok_bind, hh]
    rfl
  | case3 p ps ih =>
    have hh := h.hash (hp p mem_cons_self)
    have ih := ih fun q hq => hp q (mem_cons_of_mem _ (mem_cons_of_mem _ hq))
    rw [asked, if_pos rfl]
    simp only [itemsAt, map_cons] at ih ⊢
    rw [up]
    simp only [hh, ok_bind, ih]
    rfl
  | case4 p q ps hq ih =>
    have hh := h.hash (hp p mem_cons_self)
    have ih := ih fun r hr => hp r (mem_cons_of_mem _ hr)
    rw [asked, if_neg hq]
    simp only [itemsAt, map_cons] at ih ⊢
    rw [up, if_neg hq]
    simp only [Siblings.get, cons_append, ok_bind, hh, ih]
    rfl

/-! ### The layers of a tree -/

/-- Each level is the next layer of the one before it, and the last is the root alone. -/
inductive Levels (H : Hashing) (t : HashType) : Layer → List Layer → Prop
  | top (d : Bytes) : Levels H t [d] [[d]]
  | next {layer next ls} (hl : 1 < layer.length) (hnext : IsNext H t layer next)
      (hrest : Levels H t next ls) : Levels H t layer (layer :: ls)

/-- The hints for positions of the first of the given levels. -/
def hintsFor : List Layer → List ℕ → List GenericDigest
  | layer :: next :: ls, ps => (asked ps).map (layer[·]?) ++ hintsFor (next :: ls) (parents ps)
  | _, _ => []

/-- The number of turns of the loop of `verifyPath`, from the number of hints and the positions. -/
def turns : ℕ → ℕ → List ℕ → ℕ
  | 0, _, _ => 0
  | fuel + 1, hints, ps =>
    if hints = 0 ∧ ps.length ≤ 1 then 0
    else turns fuel (hints - (asked ps).length) (parents ps) + 1

theorem Levels.head {layer : Layer} (h : Levels H t layer ls) : ∃ rest, ls = layer :: rest := by
  cases h with
  | top d => exact ⟨[], rfl⟩
  | next => exact ⟨_, rfl⟩

theorem Levels.pos {layer : Layer} (h : Levels H t layer ls) : 0 < layer.length := by
  cases h with
  | top d => exact one_pos
  | next _ => omega

/-- A tree over two leaves. -/
theorem Levels.pair {x y : Bytes} (h : Levels H t [x, y] ls) :
    ∃ root, hashPair H t x y = .ok root ∧ ls = [[x, y], [root]] := by
  cases h with
  | @next _ layer _ _ hn hr =>
    have h1 : layer.length = 1 := by simp [hn.length]
    obtain ⟨root, rfl⟩ := length_eq_one_iff.mp h1
    obtain ⟨_, _, ⟨⟩, ⟨⟩, hd⟩ := hn.node 0 two_pos
    cases hr with
    | top => exact ⟨root, hd, rfl⟩
    | next hl => exact absurd hl (lt_irrefl 1)

theorem IsNext.parents_lt {layer : Layer} (h : IsNext H t layer next)
    (hs : ∀ p ∈ ps, p < layer.length) : ∀ p ∈ parents ps, p < next.length := by
  intro x hx
  obtain ⟨p, hp, rfl⟩ := mem_parents.mp hx
  have := hs p hp
  rw [h.length]
  omega

/-- Positions below 1, in order, are the position 0 alone. -/
theorem eq_zero_of_sorted (hn : ps ≠ []) (hs : ps.Pairwise (· < ·)) (hp : ∀ p ∈ ps, p < 1) :
    ps = [0] := by
  match ps, hn with
  | [p], _ =>
    have := hp p mem_cons_self
    rw [show p = 0 by omega]
  | p :: q :: ps, _ =>
    have h1 := (pairwise_cons.mp hs).1 q mem_cons_self
    have hq := hp q (mem_cons_of_mem _ mem_cons_self)
    omega

section

variable {layer : Layer} (h : Levels H t layer ls)
include h

/-- The climb of the prover leaves the hints for all levels and ends with one item. -/
theorem Levels.climb {tree : Tree} (ht : tree.levels.drop l = ls) (pl : PartialLayer) (he : pl ≠ [])
    (hs : (pl.map LayerItem.pos).Pairwise (· < ·))
    (hp : ∀ p ∈ pl.map LayerItem.pos, p < layer.length) (hints : List GenericDigest) :
    ∃ item, tree.climb H (ls.length - 1) l pl { tree := some tree, hints } =
      .ok ([item], { tree := some tree, hints := hints ++ hintsFor ls (pl.map LayerItem.pos) }) := by
  induction h generalizing l pl hints with
  | top d =>
    have hz := eq_zero_of_sorted (by simpa using he) hs hp
    obtain ⟨item, rfl, -⟩ := map_eq_singleton_iff.mp hz
    exact ⟨item, by simp [Tree.climb, hintsFor]⟩
  | @next layer next ls _ hn hr ih =>
    obtain ⟨rest, rfl⟩ := hr.head
    have hy : tree.levels[l]? = some layer := by
      have := congrArg List.head? ht
      rwa [head?_drop] at this
    have hd : tree.levels.drop (l + 1) = next :: rest := by
      rw [← drop_drop, ht]
      rfl
    obtain ⟨item, hc⟩ := ih hd
      ((parents (pl.map LayerItem.pos)).map fun p => { pos := p, hash := [] })
      (by simpa using parents_ne_nil (by simpa using he))
      (by simpa [comp_def] using parents_sorted hs)
      (by simpa [comp_def] using hn.parents_lt hp)
      (hints ++ (asked (pl.map LayerItem.pos)).map (layer[·]?))
    refine ⟨item, ?_⟩
    show tree.climb H (rest.length + 1) l pl _ = _
    rw [Tree.climb, up_prover hy pl hints]
    simp only [ok_bind]
    simp only [length_cons, Nat.add_sub_cancel, map_map, comp_def, map_id', append_assoc] at hc
    rw [hc, hintsFor]

/-- The verifier arrives at the root from the items of the tree and the hints of the prover, with one
turn for each level below it. -/
theorem Levels.verifyLoop (l : ℕ) (he : ps ≠ []) (hs : ps.Pairwise (· < ·))
    (h1 : ∀ p ∈ ps, p < layer.length) (hf : (hintsFor ls ps).length + ps.length ≤ fuel + 1) :
    ∃ d, ls.getLast? = some [d] ∧
      verifyLoop H t fuel l (itemsAt layer ps) { hints := hintsFor ls ps } =
        .ok [{ pos := 0, hash := d }] ∧
      turns fuel (hintsFor ls ps).length ps = ls.length - 1 := by
  induction h generalizing l ps fuel with
  | top d =>
    obtain rfl := eq_zero_of_sorted he hs h1
    exact ⟨d, rfl, verifyLoop_stop ⟨rfl, le_rfl⟩, by cases fuel <;> rfl⟩
  | @next layer next ls _ hx hr ih =>
    obtain ⟨rest, rfl⟩ := hr.head
    have hle := length_parents ps
    have hp := length_pos_iff.mpr (parents_ne_nil he)
    have hc : (hintsFor (layer :: next :: rest) ps).length =
        (asked ps).length + (hintsFor (next :: rest) (parents ps)).length := by simp [hintsFor]
    -- a single item has to ask for its sibling
    have hg : ¬(hintsFor (layer :: next :: rest) ps = [] ∧
        (itemsAt layer ps).length ≤ 1) := by
      rintro ⟨hn, ho⟩
      rw [hn, length_nil] at hc
      rw [itemsAt, length_map] at ho
      omega
    obtain ⟨k, rfl⟩ : ∃ k, fuel = k + 1 := ⟨fuel - 1, by omega⟩
    obtain ⟨d, hl, h2, ht⟩ := ih (l + 1) (parents_ne_nil he) (parents_sorted hs)
      (hx.parents_lt h1) (show _ ≤ k + 1 by omega)
    refine ⟨d, hl, ?_, ?_⟩
    · rw [verifyLoop_succ hg]
      simp only [hintsFor, up_verifier hx l h1, ok_bind]
      exact h2
    · rw [turns, if_neg (by omega), hc, Nat.add_sub_cancel_left, ht]
      rfl

/-- The number of levels is the logarithm of the number of leaves, rounded up. -/
theorem Levels.length_le : layer.length ≤ 2 ^ (ls.length - 1) := by
  induction h with
  | top d => exact le_rfl
  | @next layer next ls _ hn hr ih =>
    obtain ⟨_, rfl⟩ := hr.head
    rw [hn.length] at ih
    simp only [length_cons, Nat.add_sub_cancel] at ih ⊢
    omega

theorem Levels.levels_le (hk : layer.length ≤ 2 ^ k) : ls.length ≤ k + 1 := by
  induction h generalizing k with
  | top d => simp
  | @next layer next ls _ hn _ ih =>
    cases k with
    | zero => omega
    | succ k =>
      have hh : next.length ≤ 2 ^ k := by
        rw [hn.length]
        omega
      exact succ_le_succ (ih hh)

end

/-! ### What the workers build -/

theorem hashPair_ok {l : Bytes} (hl : l.length ≤ 2 * t.size) (r : Bytes) :
    hashPair H t l r = .ok (H.genericHashObj t
      { id := .merkleArrayNode, data := l ++ fit (2 * t.size - l.length) r }) := by
  simp only [hashPair, pairToBeHashed, failIf, if_neg (not_lt.mpr hl), ok_bind]
  rfl

theorem length_of_hashPair {l r d : Bytes} (h : hashPair H t l r = .ok d) : d.length = t.size := by
  simp only [hashPair, bind_ok, pure_ok] at h
  obtain ⟨p, -, rfl⟩ := h
  exact H.length_genericHashObj t p

/-- A pool whose tasks succeed fills its layer, in any interleaving. -/
theorem FillOutcome.layer {task : ℕ → Except MerkleError Bytes} (h : FillOutcome stride n task out)
    (hs : 0 < stride) (ht : ∀ i < n, ∃ a, task i = .ok a) :
    ∃ layer, out = .ok layer ∧ layer.length = (n + stride - 1) / stride ∧
      ∀ j, stride * j < n → ∃ a, task (stride * j) = .ok a ∧ layer[j]? = some a := by
  obtain ⟨_, hn, p, hr, h2, rfl⟩ := h
  have h1 : p.err = none := by
    rw [Option.eq_none_iff_forall_ne_some]
    intro e he
    obtain ⟨i, hi, hf⟩ := hr.err hn he
    obtain ⟨a, ha⟩ := ht i hi
    rw [ha] at hf
    cases hf
  rw [h1]
  refine ⟨_, rfl, by simp, ?_⟩
  intro j hj
  obtain ⟨a, ha, ho⟩ := hr.filled hn h2 h1 (dvd_mul_right stride j) hj
  rw [Nat.mul_div_cancel_left j hs] at ho
  have hl : j < (n + stride - 1) / stride := by
    rw [← succ_le_iff, le_div_iff_mul_le hs, succ_mul, mul_comm]
    omega
  exact ⟨a, ha, by simp [hl, ho]⟩

/-- The digests of a layer have the size of the hash. -/
def Sized (t : HashType) (layer : Layer) : Prop := ∀ d ∈ layer, d.length = t.size

theorem Sized.pairTask {layer : Layer} (h : Sized t layer) (hi : i < layer.length) :
    ∃ d, pairTask H t layer i = .ok d := by
  have hl := h layer[i] (getElem_mem hi)
  rw [MerkleArray.pairTask, getElem?_eq_getElem hi, orThrow_some]
  exact ⟨_, hashPair_ok (by omega) _⟩

theorem FillOutcome.isNext {layer : Layer} (h : FillOutcome 2 layer.length (pairTask H t layer) out)
    (hs : Sized t layer) : ∃ next, out = .ok next ∧ IsNext H t layer next := by
  obtain ⟨next, rfl, he, hn⟩ := h.layer two_pos fun i hi => hs.pairTask hi
  refine ⟨next, rfl, he, ?_⟩
  intro j hj
  obtain ⟨d, hd, hx⟩ := hn j hj
  simp only [pairTask, bind_ok, orThrow_ok] at hd
  obtain ⟨l, hl, hp⟩ := hd
  exact ⟨l, d, hl, hx, hp⟩

theorem IsNext.sized {layer : Layer} (h : IsNext H t layer next) : Sized t next := by
  intro d hd
  obtain ⟨j, hj, rfl⟩ := mem_iff_getElem.mp hd
  obtain ⟨l, d, -, hn, hp⟩ := h.node j (by rw [h.length] at hj; omega)
  rw [getElem?_eq_getElem hj] at hn
  rw [Option.some.inj hn]
  exact length_of_hashPair hp

theorem BuildLayers.levels {layer : Layer} {out : Except MerkleError (List Layer)}
    (h : BuildLayers H t layer out) (hs : Sized t layer) (he : layer ≠ []) :
    ∃ ls, out = .ok ls ∧ Levels H t layer ls := by
  induction h with
  | @top l hl =>
    obtain ⟨d, rfl⟩ : ∃ d, l = [d] :=
      length_eq_one_iff.mp (le_antisymm hl (length_pos_iff.mpr he))
    exact ⟨_, rfl, .top d⟩
  | @failed l e hl hf =>
    obtain ⟨next, ho, -⟩ := hf.isNext hs
    cases ho
  | @next l nl out hl hf _ ih =>
    obtain ⟨next, ho, hn⟩ := hf.isNext hs
    obtain rfl := Except.ok.inj ho
    have hn' : nl ≠ [] := by
      rw [← length_pos_iff, hn.length]
      omega
    obtain ⟨ls, rfl, h1⟩ := ih hn.sized hn'
    exact ⟨_, rfl, .next hl hn h1⟩

/-- The leaves of a tree over an array. -/
structure LeavesOf (H : Hashing) (t : HashType) (array : HashableArray) (leaves : Layer) : Prop where
  length : leaves.length = array.length
  leaf : ∀ i e, i < array.length → array.marshal i = .ok e →
    leaves[i]? = some (H.genericHashObj t e)

/-- An array whose elements can all be marshalled. -/
def HashableArray.Good (array : HashableArray) : Prop :=
  ∀ i < array.length, ∃ e, array.marshal i = .ok e

theorem LeavesOf.sized {leaves : Layer} (h : LeavesOf H t array leaves) (hg : array.Good) :
    Sized t leaves := by
  intro d hd
  obtain ⟨i, hi, rfl⟩ := mem_iff_getElem.mp hd
  obtain ⟨e, he⟩ := hg i (h.length ▸ hi)
  have hl := h.leaf i e (h.length ▸ hi) he
  rw [getElem?_eq_getElem hi] at hl
  rw [Option.some.inj hl]
  exact H.length_genericHashObj t e

theorem FillOutcome.leavesOf (h : FillOutcome 1 array.length (leafTask H t array) out)
    (h1 : array.Good) : ∃ leaves, out = .ok leaves ∧ LeavesOf H t array leaves := by
  have ht : ∀ i < array.length, ∃ d, leafTask H t array i = .ok d := by
    intro i hi
    obtain ⟨e, he⟩ := h1 i hi
    exact ⟨_, by rw [leafTask, he, ok_bind]; rfl⟩
  obtain ⟨leaves, rfl, hl, hf⟩ := h.layer one_pos ht
  refine ⟨leaves, rfl, by simpa using hl, ?_⟩
  intro i e hi he
  obtain ⟨d, hd, hg⟩ := hf i (by omega)
  rw [one_mul, leafTask, he] at hd
  rw [hg]
  exact congrArg some (Except.ok.inj hd).symm

/-- Every outcome of `Build` over a good array is a tree over its leaves. -/
theorem Build.tree {out : Except MerkleError Tree} (h : Build H t array out) (hg : array.Good) :
    ∃ levels, out = .ok { levels, numOfElements := array.length, hash := t } ∧
      (array.length = 0 ∧ levels = [] ∨
        ∃ leaves, LeavesOf H t array leaves ∧ Levels H t leaves levels) := by
  cases h with
  | failed hf =>
    obtain ⟨leaves, ho, -⟩ := hf.leavesOf hg
    cases ho
  | empty hf =>
    obtain ⟨leaves, ho, hl⟩ := hf.leavesOf hg
    obtain rfl := Except.ok.inj ho
    exact ⟨[], rfl, .inl ⟨hl.length.symm, rfl⟩⟩
  | @layers leaves out hf hn hy =>
    obtain ⟨_, ho, hl⟩ := hf.leavesOf hg
    obtain rfl := Except.ok.inj ho
    obtain ⟨ls, rfl, hs⟩ := hy.levels (hl.sized hg) hn
    exact ⟨ls, rfl, .inr ⟨leaves, hl, hs⟩⟩

/-! ### Proofs for positions of the tree -/

theorem mem_destutter'_ne {l : List ℕ} : x ∈ l.destutter' (· ≠ ·) a ↔ x = a ∨ x ∈ l := by
  induction l generalizing a with
  | nil => simp
  | cons b l ih =>
    by_cases ha : a = b
    · subst ha
      rw [List.destutter'_cons_neg _ (by simp), ih]
      simp
    · rw [List.destutter'_cons_pos _ ha, mem_cons, ih, mem_cons]

theorem mem_destutter_ne {l : List ℕ} : x ∈ l.destutter (· ≠ ·) ↔ x ∈ l := by
  cases l with
  | nil => simp
  | cons a l => rw [destutter_cons', mem_destutter'_ne, mem_cons]

/-- The positions of the first partial layer of a proof. -/
def provedPositions (idxs : List ℕ) : List ℕ := (idxs.insertionSort (· ≤ ·)).destutter (· ≠ ·)

theorem mem_provedPositions : i ∈ provedPositions idxs ↔ i ∈ idxs := by
  rw [provedPositions, mem_destutter_ne, mem_insertionSort]

theorem provedPositions_ne_nil (h : idxs ≠ []) : provedPositions idxs ≠ [] := by
  obtain ⟨i, hi⟩ := exists_mem_of_ne_nil _ h
  exact ne_nil_of_mem (mem_provedPositions.mpr hi)

theorem provedPositions_sorted (idxs : List ℕ) : (provedPositions idxs).Pairwise (· < ·) := by
  have hl : (provedPositions idxs).IsChain (· ≤ ·) :=
    ((pairwise_insertionSort (· ≤ ·) idxs).sublist (destutter_sublist _ _)).isChain
  have hn : (provedPositions idxs).IsChain (· ≠ ·) := isChain_destutter _ _
  rw [← isChain_iff_pairwise]
  rw [isChain_iff_getElem] at hl hn ⊢
  intro i hi
  exact lt_of_le_of_ne (hl i hi) (hn i hi)

variable {leaves : Layer} {tree : Tree}

theorem one_shiftLeft_mod (hd : d < 64) : 1 <<< d % 2 ^ 64 = 2 ^ d := by
  rw [one_shiftLeft]
  exact Nat.mod_eq_of_lt (Nat.pow_lt_pow_right (by omega) hd)

variable {elems : Dict ℕ Hashable}

/-- The verifier sorts the elements at the proved positions into the items of the tree. -/
theorem firstPartialLayer_eq (hk : ∀ i, i ∈ elems ↔ i ∈ idxs)
    (h1 : ∀ i e, elems.lookup i = some e → leaves[i]? = some (H.genericHashObj t e)) :
    buildFirstPartialLayer (elems.entries.map fun e =>
      { pos := e.1, hash := H.genericHashObj t e.2 }) =
        itemsAt leaves (provedPositions idxs) := by
  have hs : (itemsAt leaves (provedPositions idxs)).Pairwise (·.pos < ·.pos) :=
    pairwise_map.mpr (provedPositions_sorted idxs)
  have hn : (elems.entries.map fun e =>
      ({ pos := e.1, hash := H.genericHashObj t e.2 } : LayerItem)).Nodup := by
    have hk := elems.nodupKeys
    rw [List.NodupKeys, List.keys] at hk
    exact List.Nodup.of_map LayerItem.pos (by simpa [comp_def] using hk)
  have hp : (elems.entries.map fun e =>
      ({ pos := e.1, hash := H.genericHashObj t e.2 } : LayerItem)).Perm
        (itemsAt leaves (provedPositions idxs)) := by
    refine (perm_ext_iff_of_nodup hn (hs.imp fun h => ?_)).mpr ?_
    · rintro rfl
      exact lt_irrefl _ h
    · intro _
      constructor
      · intro hm
        obtain ⟨⟨i, e⟩, h2, rfl⟩ := mem_map.mp hm
        have hl := AList.mem_lookup_iff.mpr h2
        have hi : i ∈ idxs := (hk i).mp (Dict.mem_iff.mpr ⟨_, hl⟩)
        refine mem_map.mpr ⟨i, mem_provedPositions.mpr hi, ?_⟩
        simp [h1 i e hl]
      · intro hm
        obtain ⟨i, hi, rfl⟩ := mem_map.mp hm
        obtain ⟨e, he⟩ := Dict.mem_iff.mp ((hk i).mpr (mem_provedPositions.mp hi))
        refine mem_map.mpr ⟨⟨i, e⟩, AList.mem_lookup_iff.mp he, ?_⟩
        simp [h1 i e he]
  have ho := (perm_insertionSort (fun a b : LayerItem => a.pos ≤ b.pos) _).trans hp
  refine List.Perm.eq_of_pairwise ?_ (pairwise_insertionSort _ _) (hs.imp le_of_lt) ho
  intro a b ha hb h3 h4
  obtain ⟨i, -, rfl⟩ := mem_map.mp (ho.mem_iff.mp ha)
  obtain ⟨j, -, rfl⟩ := mem_map.mp hb
  obtain rfl : i = j := le_antisymm h3 h4
  rfl

section

variable (h : Levels H t leaves tree.levels)
include h

/-- The proof that the tree gives for positions of its leaves. -/
theorem Levels.createProof (ht : tree.hash = t) (he : idxs ≠ [])
    (hi : ∀ i ∈ idxs, i < leaves.length) :
    tree.createProof H (idxs.insertionSort (· ≤ ·)) =
      .ok { path := hintsFor tree.levels (provedPositions idxs)
            hashFactory := t
            treeDepth := tree.depth } := by
  subst ht
  have hl : ∀ p ∈ provedPositions idxs, p < leaves.length := fun p hp =>
    hi p (mem_provedPositions.mp hp)
  have h1 : tree.provedItems (idxs.insertionSort (· ≤ ·)) =
      .ok (itemsAt leaves (provedPositions idxs)) := by
    apply mapM_ok
    intro p hp
    obtain ⟨_, hh⟩ := h.head
    have hg := getElem?_eq_getElem (hl p hp)
    rw [hh, getElem?_cons_zero, orThrow_some, ok_bind, hg, orThrow_some]
    rfl
  have ho : (itemsAt leaves (provedPositions idxs)).map LayerItem.pos = provedPositions idxs := by
    simp [itemsAt, comp_def]
  have hn : itemsAt leaves (provedPositions idxs) ≠ [] := by
    simpa [itemsAt] using provedPositions_ne_nil he
  obtain ⟨_, hc⟩ := h.climb (drop_zero) (itemsAt leaves (provedPositions idxs)) hn
    (by rw [ho]; exact provedPositions_sorted idxs) (by rw [ho]; exact hl) []
  rw [Tree.createProof, h1, ok_bind, hc, ho]
  rfl

/-- The number of levels above the leaves fits the type `uint8`. -/
theorem Levels.depth (hf : leaves.length ≤ 2 ^ 63) :
    tree.depth.toNat = tree.levels.length - 1 ∧ tree.levels.length - 1 < 64 := by
  have hl := h.levels_le hf
  refine ⟨?_, by omega⟩
  exact mod_eq_of_lt (by omega)

/-- The verifier accepts the proof for the elements at the proved positions. Of the depth that the
proof claims, only a bound on the positions is used. -/
theorem Levels.verify (hne : idxs ≠ []) (h1 : ∀ i ∈ idxs, i < leaves.length)
    (hk : ∀ i, i ∈ elems ↔ i ∈ idxs)
    (he : ∀ i e, elems.lookup i = some e → leaves[i]? = some (H.genericHashObj t e)) {depth : UInt8}
    (hlt : depth.toNat < 64) (hd : leaves.length ≤ 2 ^ depth.toNat) :
    MerkleArray.verify H tree.root elems
      { path := hintsFor tree.levels (provedPositions idxs)
        hashFactory := t
        treeDepth := depth } = .ok () := by
  obtain ⟨i, hi⟩ := exists_mem_of_ne_nil _ hne
  have h2 : elems.entries ≠ [] := by
    intro hn
    have hm := (hk i).mpr hi
    rw [AList.mem_keys, AList.keys, hn] at hm
    cases hm
  have hl : hashLeaves H t elems depth =
      .ok (elems.entries.map fun e => { pos := e.1, hash := H.genericHashObj t e.2 }) := by
    apply mapM_ok
    rintro ⟨j, e⟩ ht
    have hj : j ∈ elems :=
      Dict.mem_iff.mpr ⟨_, AList.mem_lookup_iff.mpr ht⟩
    have hb := (h1 j ((hk j).mp hj)).trans_le hd
    rw [failIf, if_neg]
    · rfl
    · rw [one_shiftLeft_mod hlt]
      exact not_le.mpr hb
  obtain ⟨d, hs, h3, -⟩ := h.verifyLoop 0 (provedPositions_ne_nil hne)
    (provedPositions_sorted idxs) (fun p hp => h1 p (mem_provedPositions.mp hp)) (le_succ _)
  rw [MerkleArray.verify, if_neg h2, hl, ok_bind, firstPartialLayer_eq hk he,
    verifyPath, itemsAt, length_map, ← itemsAt, h3, ok_bind, Tree.root, hs]
  simp [inspectRoot, failIf]

end

end Novarand.MerkleArray
