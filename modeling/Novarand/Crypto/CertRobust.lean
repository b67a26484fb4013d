import Novarand.Crypto.CertComplete
import Novarand.Crypto.MerkleTotal

/-!
# Builders and verifiers of certificates that return

Whatever the codec lets through, the verifier returns a result or an error, and so does a builder
with verified signatures. The exception is the serialisation of a signature: it indexes the path
of the signature's proof up to the depth that the proof claims.
-/

namespace Novarand.CompactCert

open Crypto MerkleArray Builder List

variable {P : Primitives}

/-! ### Computations that return -/

variable {e : CertError}

section Returns

variable {α β γ : Type} {x : Except CertError α}

theorem Returns.pure (a : α) : Returns (Except.ok a) := nofun

theorem Returns.failIf {p : Prop} [Decidable p] (he : ¬e.Fatal) : Returns (failIf p e) := by
  intro _ h
  obtain ⟨-, rfl⟩ := failIf_error_iff.mp h
  exact he

theorem Returns.orThrow {o : Option α} (h : o = none → ¬e.Fatal) : Returns (orThrow e o) := by
  intro _ he
  obtain ⟨hn, rfl⟩ := orThrow_error_iff.mp he
  exact h hn

theorem Returns.bind {f : α → Except CertError β} (hx : Returns x)
    (hf : ∀ a, x = .ok a → Returns (f a)) : Returns (x >>= f) := by
  intro e he
  rcases bind_error_iff.mp he with he | ⟨a, ha, he⟩
  · exact hx e he
  · exact hf a ha e he

theorem Returns.merkle {y : Except MerkleError α} (h : ∀ e, y = .error e → ¬e.Fatal) :
    Returns (y.mapError .merkle) := by
  intro e he
  obtain ⟨e', he', rfl⟩ := mapError_error_iff.mp he
  exact h e' he'

theorem Returns.forM {f : γ → Except CertError PUnit} {l : List γ} (hf : ∀ c ∈ l, Returns (f c)) :
    Returns (l.forM f) := by
  intro e he
  obtain ⟨c, hc, he⟩ := exists_of_forM_error he
  exact hf c hc e he

/-- A loop returns if its turns do; what they keep is known of the result. -/
theorem Returns.foldlM {f : β → γ → Except CertError β} (I : β → Prop) {l : List γ}
    (hf : ∀ b, I b → ∀ c ∈ l, Returns (f b c) ∧ ∀ b', f b c = .ok b' → I b') {b : β} (hb : I b) :
    Returns (l.foldlM f b) ∧ ∀ b', l.foldlM f b = .ok b' → I b' := by
  induction l generalizing b with
  | nil =>
    refine ⟨.pure b, fun b' h => ?_⟩
    obtain rfl := Except.ok.inj h
    exact hb
  | cons c l ih =>
    obtain ⟨ht, hk⟩ := hf b hb c mem_cons_self
    have hr := fun b' (hb' : I b') =>
      ih (fun b hb c hc => hf b hb c (mem_cons_of_mem _ hc)) hb'
    refine ⟨ht.bind fun b' hb' => (hr b' (hk b' hb')).1, fun b'' h => ?_⟩
    obtain ⟨b', hb', h⟩ := bind_ok.mp h
    exact (hr b' (hk b' hb')).2 b'' h

end Returns

/-! ### The verifier -/

/-- Serialising the signature does not crash: it fails before, or stays within the path. -/
def Signature.Safe (P : Primitives) (s : Signature) : Prop :=
  s.Serializes ∨ P.convertToCT (s.signature.getD []) = none

theorem buildCommittableSignature_returns_iff {c : SigslotCommit} :
    Returns (buildCommittableSignature P c) ↔ c.sig.Safe P := by
  constructor
  · intro h
    by_contra hf
    obtain ⟨hs, hc⟩ := not_or.mp hf
    exact h _ (buildCommittableSignature_crash hs (Option.ne_none_iff_exists'.mp hc)) trivial
  · rintro hf e he
    rcases buildCommittableSignature_error he with ⟨rfl, -⟩ | ⟨rfl, hs⟩
    · exact id
    · have hn := hf.resolve_left hs
      rw [buildCommittableSignature, if_neg (fun h => hs (.inl h)), Signature.representation,
        hn] at he
      cases he

variable {pk partcom : Bytes}

theorem verifySignature_returns {round : ℕ} {msg : Hashable} {sig : Signature}
    (h : sig.proof.Decodable) : Returns (verifySignature P pk round msg sig) :=
  (Returns.merkle fun _ => verifyVectorCommitment_returns h).bind fun _ _ => .failIf id

/-- A certificate within the bounds of the codec. -/
structure Cert.Decodable (c : Cert) : Prop where
  sigProofs : c.sigProofs.Decodable
  partProofs : c.partProofs.Decodable
  reveals : ∀ r ∈ c.reveals.entries, r.2.sigSlot.sig.proof.Decodable

theorem verifyCert_returns {params : Params} {c : Cert} (h : c.Decodable)
    (hs : ∀ r ∈ c.reveals.entries, r.2.sigSlot.sig.Safe P) :
    Returns (verifyCert P params partcom c) := by
  refine (Returns.failIf id).bind fun _ hw => ?_
  have hw := failIf_ok.mp hw
  refine Returns.bind ?_ fun ma _ => ?_
  · -- the loop over the reveals
    refine (Returns.foldlM (fun _ => True) (fun ma _ r hr => ⟨?_, fun _ _ => trivial⟩) trivial).1
    refine (buildCommittableSignature_returns_iff.mpr (hs r hr)).bind fun _ _ => ?_
    exact (verifySignature_returns (h.reveals r hr)).bind fun _ _ => .pure _
  refine (Returns.merkle fun _ => verifyVectorCommitment_returns h.sigProofs).bind fun _ _ => ?_
  refine (Returns.merkle fun _ => verifyVectorCommitment_returns h.partProofs).bind fun _ _ => ?_
  refine Returns.bind ?_ fun nr _ => ?_
  · intro e he
    obtain ⟨_, -, rfl⟩ := mapError_error_iff.mp he
    exact id
  · refine Returns.forM fun j _ => ?_
    -- the coin is reduced by a signed weight above the proven one
    refine Returns.bind ?_ fun cn _ => .failIf id
    obtain ⟨cn, hc, -⟩ := @hashCoin_ok P (params.coinChoice c.signedWeight c.sigCommit partcom
      (P.hashing.genericHashObj c.partProofs.hashFactory params.msg) j)
      (show c.signedWeight ≠ 0 by omega)
    rw [hc]
    exact .pure cn

/-- The verifier may meet the reveals in any order. It returns in all exactly if the weight is too
low to look at them, or all their signatures are safe. -/
theorem verifyCert_returns_iff {params : Params} {c : Cert} (h : c.Decodable) :
    (∀ reveals : Dict ℕ Reveal, reveals.entries.Perm c.reveals.entries →
      Returns (verifyCert P params partcom { c with reveals })) ↔
    c.signedWeight ≤ params.provenWeight ∨
      ∀ r ∈ c.reveals.entries, r.2.sigSlot.sig.Safe P := by
  constructor
  · intro ht
    by_contra hn
    obtain ⟨hw, hn⟩ := not_or.mp hn
    obtain ⟨r, hr, hu⟩ : ∃ r ∈ c.reveals.entries, ¬r.2.sigSlot.sig.Safe P := by
      by_contra ha
      exact hn fun r hr => by_contra fun hu => ha ⟨r, hr, hu⟩
    -- the order that begins with the unsafe reveal
    obtain ⟨bf, af, h1⟩ := append_of_mem hr
    have hp : (r :: (bf ++ af)).Perm c.reveals.entries := by
      rw [h1]
      exact perm_middle.symm
    have hc := ht ⟨r :: (bf ++ af), (perm_nodupKeys hp).mpr c.reveals.nodupKeys⟩ hp
    obtain ⟨hs, h2⟩ := not_or.mp hu
    have hb := buildCommittableSignature_crash hs (Option.ne_none_iff_exists'.mp h2)
    refine hc .indexOutOfRange ?_ trivial
    rw [verifyCert, failIf, if_neg hw, checkReveals]
    rw [foldlM_cons, hb]
    rfl
  · rintro (hl | hf) reveals hp
    · intro e he
      rw [verifyCert, failIf, if_pos hl] at he
      obtain rfl := Except.error.inj he
      exact id
    · exact verifyCert_returns
        ⟨h.sigProofs, h.partProofs, fun r hr => h.reveals r (hp.mem_iff.mp hr)⟩
        fun r hr => hf r (hp.mem_iff.mp hr)

/-! ### The builder -/

namespace Builder

variable {params : Params} {part : List Participant} {tree sigtree : Tree} {b : Builder}

/-- The search ends with a slot of the builder or an error. -/
theorem coinIndexLoop_returns {coin fuel lo hi : ℕ} (hl : hi ≤ b.sigs.length)
    (hf : hi ≤ lo + fuel) :
    Returns (b.coinIndexLoop coin fuel lo hi) ∧
      ∀ pos, b.coinIndexLoop coin fuel lo hi = .ok pos → pos < b.sigs.length := by
  induction fuel generalizing lo hi with
  | zero =>
    rw [coinIndexLoop, if_pos (show hi ≤ lo by omega)]
    exact ⟨fun e he => Except.error.inj he ▸ id, by rintro _ ⟨⟩⟩
  | succ fuel ih =>
    rw [coinIndexLoop]
    split
    · exact ⟨fun e he => Except.error.inj he ▸ id, by rintro _ ⟨⟩⟩
    · have hm : (lo + hi) / 2 < b.sigs.length := by omega
      simp only [getElem?_eq_getElem hm, orThrow_some, ok_bind]
      split
      · exact ih (by omega) (by omega)
      · split
        · refine ⟨.pure _, fun pos hp => ?_⟩
          obtain rfl := Except.ok.inj hp
          exact hm
        · exact ih hl (by omega)

theorem coinIndex_returns (coin : ℕ) :
    Returns (b.coinIndex coin) ∧ ∀ pos, b.coinIndex coin = .ok pos → pos < b.sigs.length := by
  obtain ⟨hr, hl⟩ := @coinIndexLoop_returns b coin b.sigs.length 0 b.sigs.length le_rfl
    (Nat.le_add_left _ _)
  refine ⟨(Returns.failIf id).bind fun _ _ => hr, fun pos hp => ?_⟩
  obtain ⟨-, -, hp⟩ := bind_ok.mp hp
  exact hl pos hp

theorem reveal_returns (hp : 0 < b.signedWeight) (sigcom : Bytes) (j : ℕ)
    {acc : Dict ℕ Reveal × List ℕ} (ha : ∀ i ∈ acc.2, i < b.sigs.length) :
    Returns (b.reveal P sigcom j acc) ∧
      ∀ acc', b.reveal P sigcom j acc = .ok acc' → ∀ i ∈ acc'.2, i < b.sigs.length := by
  obtain ⟨cn, hc, -⟩ := @hashCoin_ok P (b.params.coinChoice b.signedWeight sigcom
    b.parttree.root (P.hashing.genericHashObj hashType b.params.msg) j) hp.ne'
  obtain ⟨hr, hl⟩ := b.coinIndex_returns cn
  rw [reveal, hc]
  refine ⟨hr.bind fun pos hn => ?_, ?_⟩
  · refine (Returns.orThrow fun _ => id).bind fun p _ => ?_
    split
    · exact .pure _
    · rw [getElem?_eq_getElem (hl pos hn)]
      exact .pure _
  · intro acc' ha' i hi
    simp only [ok_bind, bind_ok] at ha'
    obtain ⟨pos, hn, p, -, ha'⟩ := ha'
    split at ha'
    · obtain rfl := pure_ok.mp ha'
      exact ha i hi
    · obtain ⟨_, -, ha'⟩ := bind_ok.mp ha'
      obtain rfl := pure_ok.mp ha'
      exact forall_mem_append.mpr ⟨ha, forall_mem_singleton.mpr (hl pos hn)⟩ i hi

/-- From the tree over the signatures on, nothing crashes. -/
theorem Collects.certFrom_returns (hl : part.length ≤ 2 ^ 63)
    (hr : BuildVectorCommitmentTree P.hashing hashType (participantsArray part) (.ok tree))
    (h : Collects P params part tree b) (hp : 0 < b.signedWeight)
    (hg : BuildVectorCommitmentTree P.hashing hashType (b.sigsArray P) (.ok sigtree)) :
    Returns (b.certFrom P sigtree) := by
  have hs : b.sigs.length = part.length := h.slots.length_eq
  refine Returns.bind ?_ fun nr _ => ?_
  · intro e he
    obtain ⟨_, -, rfl⟩ := mapError_error_iff.mp he
    exact id
  obtain ⟨h1, ht⟩ := Returns.foldlM (fun acc => ∀ i ∈ acc.2, i < b.sigs.length)
    (fun acc ha j (_ : j ∈ List.range nr) => @reveal_returns P b hp sigtree.root j acc ha)
    (b := ((∅ : Dict ℕ Reveal), ([] : List ℕ))) nofun
  refine h1.bind fun acc ha => ?_
  obtain ⟨_, hf⟩ := hg.prove (hg.good (hs.trans_le hl)) (hs.trans_le hl) (ht acc ha)
  obtain ⟨_, hp'⟩ := hr.prove (participantsArray_good part) hl
    fun i hi => (ht acc ha i hi).trans_eq hs
  simp only [hf, h.parttree, hp']
  exact .pure _

/-- A builder returns exactly if its signatures are not looked at, or all of them serialise. -/
theorem Collects.build_returns_iff (hP : P.Converts) (hl : part.length ≤ 2 ^ 63)
    (hp : BuildVectorCommitmentTree P.hashing hashType (participantsArray part) (.ok tree))
    (h : Collects P params part tree b) :
    (∀ out, b.Build P out → Returns out) ↔
      b.signedWeight ≤ params.provenWeight ∨ ∀ slot ∈ b.sigs, slot.commit.sig.Serializes := by
  constructor
  · intro ht
    by_contra hn
    obtain ⟨hw, hn⟩ := not_or.mp hn
    obtain ⟨out, ho⟩ := exists_build P b
    obtain ⟨ha, -⟩ | ⟨-, rfl⟩ := h.build hP hl (Nat.lt_of_not_le hw) ho
    · exact hn ha
    · exact ht _ ho _ rfl trivial
  · intro hc out ho
    by_cases hr : params.provenWeight < b.signedWeight
    · obtain ⟨-, -, _, hs, rfl⟩ | ⟨hn, -⟩ := h.build hP hl hr ho
      · exact h.prepared.certFrom_returns hl hp (Nat.zero_lt_of_lt hr) hs
      · exact absurd (hc.resolve_left (Nat.not_le_of_lt hr)) hn
    · obtain ⟨-, rfl⟩ | ⟨hr', -⟩ := ho.inv
      · intro e he
        obtain rfl := Except.error.inj he
        exact id
      · exact absurd (h.params_eq ▸ hr') hr

end Builder

/-- The verifier returns for a decoded certificate, and the builder for accepted signatures, exactly
if no signature claims a tree that is deeper than its path. -/
theorem certificates_return_iff (P : Primitives) :
    (∀ (params : Params) (partcom : Bytes) (c : Cert), c.Decodable →
      ((∀ reveals : Dict ℕ Reveal, reveals.entries.Perm c.reveals.entries →
        Returns (verifyCert P params partcom { c with reveals })) ↔
      c.signedWeight ≤ params.provenWeight ∨ ∀ r ∈ c.reveals.entries, r.2.sigSlot.sig.Safe P)) ∧
    (P.Converts → ∀ (params : Params) (part : List Participant) (tree : Tree),
      part.length ≤ 2 ^ 63 →
      BuildVectorCommitmentTree P.hashing hashType (participantsArray part) (.ok tree) →
      ∀ b, Reached P params part tree b →
      ((∀ out, b.Build P out → Returns out) ↔
        b.signedWeight ≤ params.provenWeight ∨
          ∀ slot ∈ b.sigs, slot.commit.sig.Serializes)) :=
  ⟨fun _ _ _ hc => verifyCert_returns_iff hc,
    fun hP _ _ _ hl hp _ hb => hb.collects.build_returns_iff hP hl hp⟩

namespace Sample

/-- A certificate that reveals both signatures. -/
def cert (treeDepth : UInt8) : Cert where
  sigCommit := []
  signedWeight := 3
  sigProofs := { hashFactory := .sha512_256, treeDepth := 1 }
  partProofs := { hashFactory := .sha512_256, treeDepth := 1 }
  reveals := (AList.singleton 1
    { sigSlot := { sig := signature treeDepth, l := 2 }, part := participant 1 }).insert 0
      { sigSlot := { sig := signature treeDepth }, part := participant 2 }

theorem cert_sig {treeDepth : UInt8} : ∀ r ∈ (cert treeDepth).reveals.entries,
    r.2.sigSlot.sig = signature treeDepth := by
  simp [cert]

theorem cert_decodable (treeDepth : UInt8) : (cert treeDepth).Decodable where
  sigProofs := ⟨Nat.zero_le _, nofun⟩
  partProofs := ⟨Nat.zero_le _, nofun⟩
  reveals r hr := by
    rw [cert_sig r hr]
    have hl : (leaf 2).length ≤ maxHashDigestSize := by decide +kernel
    exact ⟨show 1 ≤ 32768 by decide, forall_mem_singleton.mpr hl⟩

end Sample

open Sample

theorem certificates_return_two :
    Returns (verifyCert primitives (params 1) [] (cert 1)) ∧
    ∃ tree, BuildVectorCommitmentTree primitives.hashing hashType
        (participantsArray participants) (.ok tree) ∧
      ∀ out, (builder 1 1 tree).Build primitives out → Returns out := by
  obtain ⟨hv, hb⟩ := certificates_return_iff primitives
  constructor
  · refine (hv (params 1) [] _ (cert_decodable 1)).mpr (.inr ?_) _ (.refl _)
    intro r hr
    rw [cert_sig r hr]
    exact .inl (.inr le_rfl)
  · obtain ⟨tree, hp⟩ := exists_parttree primitives length_participants
    refine ⟨tree, hp, ?_⟩
    exact (hb converts _ _ tree length_participants hp _
      (reached_one 1 tree)).mpr (.inr (serializes_one 1 tree))

/-- A path with one digest and a depth of 2: verified by `Add`, it crashes `Build` and `Verify`. -/
theorem certificates_crash :
    (∃ c : Cert, c.Decodable ∧ verifyCert primitives (params 1) [] c = .error .indexOutOfRange) ∧
    ∃ tree b, BuildVectorCommitmentTree primitives.hashing hashType
        (participantsArray participants) (.ok tree) ∧
      Reached primitives (params 1) participants tree b ∧
      ∃ out, b.Build primitives out ∧ ¬Returns out := by
  constructor
  · exact ⟨cert 2, cert_decodable 2, by rfl⟩
  · obtain ⟨tree, hp⟩ := exists_parttree primitives length_participants
    have hb := reached_two 1 tree
    refine ⟨tree, _, hp, hb, ?_⟩
    have hn := (hb.collects.build_returns_iff converts length_participants
      hp).not.mpr (not_or.mpr ⟨Nat.not_le_of_lt (ready (show 1 < 3 by decide) 2 tree),
        not_serializes_two 1 tree⟩)
    by_contra ha
    exact hn fun out ho => by_contra fun h => ha ⟨out, ho, h⟩

end Novarand.CompactCert
