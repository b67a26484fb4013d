import Novarand.Crypto.MerkleBinding

/-!
# Verification returns

A turn of the verifier's loop uses up hints or merges items, so the loop ends. With hints of at
most twice the size of the hash, the buffer of a pair is never overrun.
-/

namespace Novarand.MerkleArray

open Crypto List

variable {H : Hashing} {t : HashType}

theorem nextLayerHash_total {pos : ℕ} {x s : Bytes} (hx : x.length ≤ 2 * t.size)
    (hs : s.length ≤ 2 * t.size) : ∃ d, nextLayerHash H t true pos x s = .ok d := by
  rw [nextLayerHash, if_pos rfl]
  split
  · exact ⟨_, hashPair_ok hx _⟩
  · exact ⟨_, hashPair_ok hs _⟩

/-- Hints and items that fit the buffer of a pair. -/
def Fits (t : HashType) (pl : PartialLayer) (hints : List GenericDigest) : Prop :=
  (∀ x ∈ pl, x.hash.length ≤ 2 * t.size) ∧ ∀ d ∈ hints, (d.getD []).length ≤ 2 * t.size

/-- One turn of the loop fails only for want of a hint. -/
theorem up_total {l : ℕ} {pl : PartialLayer} {hints : List GenericDigest} (h : Fits t pl hints) :
    (∃ r, up H t l true pl { hints } = .ok r) ∨
      up H t l true pl { hints } = .error .noMoreHints := by
  fun_induction upInputs t pl hints with
  | case1 hints => exact .inl ⟨_, rfl⟩
  | case2 it hints =>
    cases hints with
    | nil => exact .inr rfl
    | cons d hints =>
      obtain ⟨dg, hd⟩ := @nextLayerHash_total H t it.pos it.hash (d.getD [])
        (h.1 it mem_cons_self) (h.2 d mem_cons_self)
      left
      simp only [up, Siblings.get, ok_bind, hd]
      exact ⟨_, rfl⟩
  | case3 it nx pl hints hn ih =>
    obtain ⟨dg, hd⟩ := @nextLayerHash_total H t it.pos it.hash nx.hash
      (h.1 it mem_cons_self) (h.1 nx (mem_cons_of_mem _ mem_cons_self))
    rw [up, if_pos hn]
    simp only [hd, ok_bind]
    rcases ih ⟨fun x hx => h.1 x (mem_cons_of_mem _ (mem_cons_of_mem _ hx)), h.2⟩ with
      ⟨r, hr⟩ | he
    · exact .inl ⟨_, by rw [hr]; rfl⟩
    · exact .inr (by rw [he]; rfl)
  | case4 it nx pl hints hn ih =>
    rw [up, if_neg hn]
    cases hints with
    | nil => exact .inr rfl
    | cons d hints =>
      obtain ⟨dg, hd⟩ := @nextLayerHash_total H t it.pos it.hash (d.getD [])
        (h.1 it mem_cons_self) (h.2 d mem_cons_self)
      simp only [Siblings.get, ok_bind, hd]
      rcases ih ⟨fun x hx => h.1 x (mem_cons_of_mem _ hx),
          fun x hx => h.2 x (mem_cons_of_mem _ hx)⟩ with ⟨r, hr⟩ | he
      · exact .inl ⟨_, by rw [tail_cons] at hr; rw [hr]; rfl⟩
      · exact .inr (by rw [tail_cons] at he; rw [he]; rfl)

/-- The loop of `verifyPath` comes to an end within the turns that the model allows it. -/
theorem verifyLoop_total {fuel l : ℕ} {pl : PartialLayer} {hints : List GenericDigest}
    (h : Fits t pl hints) (hn : pl ≠ []) (hf : hints.length + pl.length ≤ fuel + 1) :
    (∃ pl', verifyLoop H t fuel l pl { hints } = .ok pl' ∧ pl' ≠ []) ∨
      verifyLoop H t fuel l pl { hints } = .error .noMoreHints := by
  induction fuel generalizing l pl hints with
  | zero =>
    have hp := length_pos_iff.mpr hn
    have hs : hints = [] ∧ pl.length ≤ 1 :=
      ⟨length_eq_zero_iff.mp (by omega), by omega⟩
    exact .inl ⟨pl, verifyLoop_stop hs, hn⟩
  | succ fuel ih =>
    by_cases hs : hints = [] ∧ pl.length ≤ 1
    · exact .inl ⟨pl, verifyLoop_stop hs, hn⟩
    · rw [verifyLoop_succ hs]
      rcases @up_total H t l pl hints h with ⟨⟨pl', _⟩, hu⟩ | he
      · obtain ⟨hp, rfl, _, hz, -⟩ := up_inv hu
        have hl := length_parents (pl.map LayerItem.pos)
        have hl' := congrArg List.length hp
        rw [length_map] at hl hl'
        have hn' : pl' ≠ [] := by
          have := parents_ne_nil (show pl.map LayerItem.pos ≠ [] by simpa using hn)
          rw [← length_pos_iff] at this ⊢
          omega
        have hp' := length_pos_iff.mpr hn'
        rw [hu]
        refine ih ⟨fun x hx => ?_, fun d hd => h.2 d (mem_of_mem_drop hd)⟩ hn' ?_
        · have := hz x hx
          omega
        · show (hints.drop _).length + pl'.length ≤ _
          rw [length_drop]
          omega
      · exact .inr (by rw [he]; rfl)

variable {proof : Proof}

theorem Proof.Decodable.fits (h : proof.Decodable) :
    ∀ d ∈ proof.path, (d.getD []).length ≤ 2 * proof.hashFactory.size := by
  intro d hd
  refine (h.digests d hd).trans ?_
  cases proof.hashFactory <;> decide

variable {d : UInt8} {e : MerkleError} {elems : Dict ℕ Hashable}

theorem index_error {i : ℕ} (h : merkleTreeToVectorCommitmentIndex i d = .error e) :
    e = .posOutOfBound := by
  simp only [merkleTreeToVectorCommitmentIndex, bind_error_iff, failIf_error_iff] at h
  obtain ⟨-, rfl⟩ | ⟨_, _, h⟩ := h
  · rfl
  · cases h

theorem convertIndexes_error (h : convertIndexes elems d = .error e) : e = .posOutOfBound := by
  obtain ⟨x, -, m, hx⟩ := exists_of_foldlM_error h
  obtain hi | ⟨_, _, hi⟩ := bind_error_iff.mp hx
  · exact index_error hi
  · cases hi

theorem hashLeaves_error (h : hashLeaves H t elems d = .error e) : e = .posOutOfBound := by
  obtain ⟨x, -, hx⟩ := exists_of_mapM_error h
  obtain hp | ⟨_, _, hx⟩ := bind_error_iff.mp hx
  · exact (failIf_error_iff.mp hp).2.symm
  · cases hx

/-- The verification of a proof within the bounds of the codec returns. -/
theorem verifyVectorCommitment_returns {root : Bytes} (h : proof.Decodable)
    (he : verifyVectorCommitment H root elems proof = .error e) : ¬e.Fatal := by
  rw [verifyVectorCommitment, bind_error_iff] at he
  obtain he | ⟨_, -, he⟩ := he
  · rw [convertIndexes_error he]
    exact id
  rw [verify] at he
  split at he
  · obtain ⟨-, rfl⟩ := failIf_error_iff.mp he
    exact id
  rename_i hn
  rw [bind_error_iff] at he
  obtain he | ⟨leaves, hv, he⟩ := he
  · rw [hashLeaves_error he]
    exact id
  have hs := hashLeaves_ok hv
  have hm : ∀ x, x ∈ buildFirstPartialLayer leaves ↔ x ∈ leaves := fun x =>
    mem_insertionSort _
  have hne : buildFirstPartialLayer leaves ≠ [] := by
    obtain ⟨x, hx⟩ := exists_mem_of_ne_nil _ hn
    exact ne_nil_of_mem ((hm _).mpr (hs ▸ mem_map_of_mem hx))
  have hf : Fits proof.hashFactory (buildFirstPartialLayer leaves) proof.path := by
    refine ⟨fun x hx => ?_, h.fits⟩
    rw [hm, hs] at hx
    obtain ⟨c, -, rfl⟩ := mem_map.mp hx
    rw [H.length_genericHashObj]
    omega
  rw [verifyPath] at he
  rcases @verifyLoop_total H proof.hashFactory _ 0 _ _ hf hne (Nat.le_succ _) with
    ⟨pl, hl, hp⟩ | hl
  · rw [hl] at he
    cases pl with
    | nil => exact absurd rfl hp
    | cons x pl =>
      obtain ⟨-, rfl⟩ := failIf_error_iff.mp he
      exact id
  · rw [hl] at he
    rw [← Except.error.inj he]
    exact id

end Novarand.MerkleArray
