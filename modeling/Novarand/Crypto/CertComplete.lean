import Novarand.Crypto.CertBuild

/-!
# Certificates that a builder makes

A builder that holds verified signatures of enough weight makes a certificate that the verifier
accepts, unless `numReveals` fails or a signature claims a tree deeper than its own path: the
serialisation of such a signature indexes beyond the path.
-/

namespace Novarand.CompactCert

open Crypto MerkleArray List Dict Nat

variable {P : Primitives}

/-! ### Serialising signatures -/

/-- The serialisation of the signature stays within its path. -/
def Signature.Serializes (s : Signature) : Prop :=
  s.signature = none ∨ s.proof.treeDepth.toNat ≤ s.proof.path.length

/-- Falcon signatures that verify can be converted. -/
def Primitives.Converts (P : Primitives) : Prop :=
  ∀ key data sig, P.falconVerify key data sig = true → ∃ ct, P.convertToCT sig = some ct

variable {proof : Proof}

theorem proofRepresentation_ok (h : proof.treeDepth.toNat ≤ proof.path.length) :
    ∃ bytes, proofRepresentation proof = .ok bytes := by
  rw [proofRepresentation, mapM_ok (g := fun i => (proof.path[i]?.getD none).getD
    (List.replicate proof.hashFactory.size 0))]
  · exact ⟨_, rfl⟩
  · intro i hi
    rw [getElem?_eq_getElem ((mem_range.mp hi).trans_le h)]
    rfl

theorem proofRepresentation_crash (h : proof.path.length < proof.treeDepth.toNat) :
    proofRepresentation proof = .error .indexOutOfRange := by
  have hb : proof.path[proof.path.length]? = none := getElem?_eq_none le_rfl
  rw [proofRepresentation]
  cases hm : (List.range proof.treeDepth.toNat).mapM (fun i => do
      let digest ← orThrow CertError.indexOutOfRange proof.path[i]?
      return digest.getD (List.replicate proof.hashFactory.size (0 : UInt8))) with
  | ok _ =>
    obtain ⟨a, ha⟩ := forall_ok_of_mapM_ok hm _ (mem_range.mpr h)
    rw [hb] at ha
    cases ha
  | error e =>
    obtain ⟨i, -, hi⟩ := exists_of_mapM_error hm
    obtain hi | ⟨_, _, hi⟩ := bind_error_iff.mp hi
    · rw [(orThrow_error_iff.mp hi).2]
      rfl
    · cases hi

variable {c : SigslotCommit}

theorem buildCommittableSignature_ok (h : c.sig.Serializes)
    (hc : ∃ ct, P.convertToCT (c.sig.signature.getD []) = some ct) :
    ∃ e, buildCommittableSignature P c = .ok e := by
  rw [buildCommittableSignature]
  split_ifs with hs
  · exact ⟨_, rfl⟩
  · obtain ⟨ct, hc⟩ := hc
    obtain ⟨_, hb⟩ := proofRepresentation_ok (h.resolve_left hs)
    rw [Signature.representation, hc, orThrow_some, hb]
    exact ⟨_, rfl⟩

theorem buildCommittableSignature_none (h : c.sig.signature = none) :
    buildCommittableSignature P c = .ok { id := .compactCertSig } := if_pos h

/-- The serialisation crashes if it gets beyond the path, and fails otherwise only to convert. -/
theorem buildCommittableSignature_error {e : CertError}
    (h : buildCommittableSignature P c = .error e) :
    e = .convertToCT ∧ P.convertToCT (c.sig.signature.getD []) = none ∨
      e = .indexOutOfRange ∧ ¬c.sig.Serializes := by
  rw [buildCommittableSignature] at h
  split at h
  · cases h
  rename_i hs
  simp only [Signature.representation, bind_error_iff, orThrow_error_iff] at h
  obtain (⟨hc, rfl⟩ | ⟨_, -, hp | ⟨_, _, h⟩⟩) | ⟨_, _, h⟩ := h
  · exact .inl ⟨rfl, hc⟩
  · right
    by_cases hl : c.sig.proof.treeDepth.toNat ≤ c.sig.proof.path.length
    · obtain ⟨_, hb⟩ := proofRepresentation_ok hl
      rw [hb] at hp
      cases hp
    · rw [proofRepresentation_crash (Nat.lt_of_not_le hl)] at hp
      exact ⟨(Except.error.inj hp).symm, fun h => h.elim hs hl⟩
  · cases h
  · cases h

theorem buildCommittableSignature_crash (h : ¬c.sig.Serializes)
    (hc : ∃ ct, P.convertToCT (c.sig.signature.getD []) = some ct) :
    buildCommittableSignature P c = .error .indexOutOfRange := by
  obtain ⟨hs, hl⟩ := not_or.mp h
  obtain ⟨ct, hc⟩ := hc
  rw [buildCommittableSignature, if_neg hs, Signature.representation, hc, orThrow_some,
    proofRepresentation_crash (Nat.lt_of_not_le hl)]
  rfl

variable {round i w nr : ℕ}

theorem converts_of_verify (hP : P.Converts) {pk : Bytes} {msg : Hashable} {sig : Signature}
    (h : verifySignature P pk round msg sig = .ok ()) :
    ∃ ct, P.convertToCT (sig.signature.getD []) = some ct := by
  simp only [verifySignature, bind_ok, failIf_ok, not_not] at h
  obtain ⟨-, -, h⟩ := h
  exact hP _ _ _ h

/-! ### The reveals of a certificate -/

variable {acc : Dict ℕ Reveal × List ℕ} {e : Hashable} {slot : Sigslot}

namespace Builder

variable {params : Params} {part : List Participant} {tree : Tree} {b : Builder}

/-- What the loop of `Build` has revealed: slots with weight, and their participants. -/
structure Revealed (b : Builder) (acc : Dict ℕ Reveal × List ℕ) : Prop where
  keys : ∀ i, i ∈ acc.1 ↔ i ∈ acc.2
  entry : ∀ i r, acc.1.lookup i = some r → ∃ slot p, b.sigs[i]? = some slot ∧
    b.participants[i]? = some p ∧ r = { sigSlot := slot.commit, part := p } ∧ slot.weight ≠ 0

theorem hashCoin_ok {choice : CoinChoice} (h : choice.signedWeight ≠ 0) :
    ∃ coin, hashCoin P choice = .ok coin ∧ coin < choice.signedWeight := by
  rw [hashCoin, failIf, if_neg h]
  exact ⟨_, rfl, mod_lt _ (pos_of_ne_zero h)⟩

variable {i : ℕ}

theorem Collects.getElem? (h : Collects P params part tree b) (hs : b.sigs[i]? = some slot) :
    ∃ p, part[i]? = some p ∧ SlotOf P params slot p := by
  have hl := h.slots.length_eq
  obtain ⟨hi, rfl⟩ := List.getElem?_eq_some_iff.mp hs
  refine ⟨part[i], getElem?_eq_getElem (hl ▸ hi), ?_⟩
  exact (List.forall₂_iff_get.mp h.slots).2 i hi (hl ▸ hi)

section

variable {slots : List Sigslot} (h : Collects P params part tree b) (hu : b.HasSums slots)
  (hwe : b.signedWeight = totalWeight slots) (hpos : 0 < b.signedWeight) (sigcom : Bytes)
include h hu hwe hpos

/-- One turn of the loop of `Build`. -/
theorem reveal_ok (j : ℕ) (ha : b.Revealed acc) :
    ∃ acc', b.reveal P sigcom j acc = .ok acc' ∧ b.Revealed acc' ∧
      (∀ i r, acc.1.lookup i = some r → acc'.1.lookup i = some r) ∧
      ∃ coin, hashCoin P (params.coinChoice b.signedWeight sigcom tree.root
          (P.hashing.genericHashObj hashType params.msg) j) = .ok coin ∧
        ∃ i r, acc'.1.lookup i = some r ∧ r.Holds coin := by
  obtain ⟨coin, hc, hlt⟩ := @hashCoin_ok P (params.coinChoice b.signedWeight sigcom tree.root
    (P.hashing.genericHashObj hashType params.msg) j) hpos.ne'
  obtain ⟨pos, hd, hi⟩ := hu.coinIndex (hwe ▸ hlt)
  have h4 := hi.lt
  obtain ⟨slot, hs, h6, -, hl⟩ := hu.slot pos slots[pos] (getElem?_eq_getElem h4)
  have h7 := weightBelow_succ (getElem?_eq_getElem h4)
  obtain ⟨p, hp, hf⟩ := h.getElem? hs
  have hn : slot.weight ≠ 0 := by
    have h1 := hi.1
    have h2 := hi.2
    omega
  have hw : p.weight = slot.weight := by
    rcases hf with ⟨hz, -⟩ | ⟨he, -⟩
    · exact absurd hz hn
    · exact he.symm
  have hh : Reveal.Holds { sigSlot := slot.commit, part := p } coin := by
    have hb := weightBelow_le_total slots (pos + 1)
    have ht := hu.total
    refine ⟨hl ▸ hi.1, ?_⟩
    rw [hl, hw, h6, ← h7, mod_eq_of_lt (hb.trans_lt ht)]
    exact hi.2
  have h3 : b.participants[pos]? = some p := h.participants ▸ hp
  have hv : b.reveal P sigcom j acc =
      if (acc.1.lookup pos).isSome then .ok acc
      else .ok (acc.1.upsert pos { sigSlot := slot.commit, part := p }, acc.2 ++ [pos]) := by
    rw [reveal, h.params_eq, h.parttree, hc, ok_bind, hd, ok_bind, h3, orThrow_some, hs]
    rfl
  rw [hv]
  by_cases ho : (acc.1.lookup pos).isSome
  · rw [if_pos ho]
    refine ⟨acc, rfl, ha, fun _ _ hr => hr, coin, hc, ?_⟩
    obtain ⟨r, hr⟩ := Option.isSome_iff_exists.mp ho
    obtain ⟨_, _, hs', hp', rfl, -⟩ := ha.entry pos r hr
    obtain rfl := Option.some.inj (hs'.symm.trans hs)
    obtain rfl := Option.some.inj (hp'.symm.trans h3)
    exact ⟨pos, _, hr, hh⟩
  · rw [if_neg ho]
    have h5 : acc.1.lookup pos = none := Option.not_isSome_iff_eq_none.mp ho
    refine ⟨_, rfl, ⟨?_, ?_⟩, ?_, coin, hc, pos, _, by rw [lookup_upsert, if_pos rfl], hh⟩
    · intro i
      rw [mem_upsert, ha.keys, mem_append, mem_singleton, or_comm]
    · intro i r hr
      rcases (lookup_upsert_new h5 _ _ _).mp hr with hr | ⟨rfl, rfl⟩
      · exact ha.entry i r hr
      · exact ⟨slot, p, hs, h3, rfl, hn⟩
    · intro i r hr
      exact (lookup_upsert_new h5 _ _ _).mpr (.inl hr)

/-- All turns of the loop: every coin has its slot among the reveals. -/
theorem reveals_ok (js : List ℕ) (ha : b.Revealed acc) :
    ∃ acc', js.foldlM (fun acc j => b.reveal P sigcom j acc) acc = .ok acc' ∧ b.Revealed acc' ∧
      (∀ i r, acc.1.lookup i = some r → acc'.1.lookup i = some r) ∧
      ∀ j ∈ js, ∃ coin, hashCoin P (params.coinChoice b.signedWeight sigcom tree.root
          (P.hashing.genericHashObj hashType params.msg) j) = .ok coin ∧
        ∃ i r, acc'.1.lookup i = some r ∧ r.Holds coin := by
  induction js generalizing acc with
  | nil => exact ⟨acc, rfl, ha, fun _ _ hr => hr, by simp⟩
  | cons j js ih =>
    obtain ⟨_, hs, ha1, hk1, coin, ho, i, r, hr, hh⟩ :=
      reveal_ok h hu hwe hpos sigcom j ha
    obtain ⟨acc2, h1, ha2, hk2, hc⟩ := ih ha1
    refine ⟨acc2, by rw [foldlM_cons, hs, ok_bind, h1], ha2, fun i r hr => hk2 i r (hk1 i r hr), ?_⟩
    exact forall_mem_cons.mpr ⟨⟨coin, ho, i, r, hk2 i r hr, hh⟩, hc⟩

end

/-! ### The commitment to the signatures -/

theorem sigsArray_marshal_ok : (b.sigsArray P).marshal i = .ok e ↔
    ∃ slot, b.sigs[i]? = some slot ∧ buildCommittableSignature P slot.commit = .ok e := by
  cases hs : b.sigs[i]? with
  | none => simp [sigsArray, hs]
  | some slot =>
    simp only [sigsArray, hs, Option.some.injEq, exists_eq_left']
    split <;> simp_all

section

variable (hP : P.Converts) (h : Collects P params part tree b)
include hP h

/-- The participants' signatures can be committed to, except for those that do not serialise. -/
theorem Collects.commitsTo (hl : slot ∈ b.sigs) :
    (∃ e, buildCommittableSignature P slot.commit = .ok e) ∧ slot.commit.sig.Serializes ∨
      buildCommittableSignature P slot.commit = .error .indexOutOfRange ∧
        ¬slot.commit.sig.Serializes := by
  obtain ⟨i, hi⟩ := mem_iff_getElem?.mp hl
  obtain ⟨p, -, ⟨-, hn⟩ | ⟨-, hv⟩⟩ := h.getElem? hi
  · exact .inl ⟨⟨_, buildCommittableSignature_none hn⟩, .inl hn⟩
  · have hc := converts_of_verify hP hv
    by_cases hs : slot.commit.sig.Serializes
    · exact .inl ⟨buildCommittableSignature_ok hs hc, hs⟩
    · exact .inr ⟨buildCommittableSignature_crash hs hc, hs⟩

theorem Collects.good_iff : (b.sigsArray P).Good ↔ ∀ slot ∈ b.sigs, slot.commit.sig.Serializes := by
  constructor
  · intro hg slot hl
    obtain ⟨i, hi⟩ := mem_iff_getElem?.mp hl
    obtain ⟨e, he⟩ := hg i (List.getElem?_eq_some_iff.mp hi).1
    obtain ⟨_, hs', hb⟩ := sigsArray_marshal_ok.mp he
    obtain rfl := Option.some.inj (hi.symm.trans hs')
    rcases h.commitsTo hP hl with ⟨-, hs⟩ | ⟨hc, -⟩
    · exact hs
    · rw [hc] at hb
      cases hb
  · intro ha i hi
    rcases h.commitsTo hP (getElem_mem hi) with ⟨⟨e, he⟩, -⟩ | ⟨-, hs⟩
    · exact ⟨e, sigsArray_marshal_ok.mpr ⟨_, getElem?_eq_getElem hi, he⟩⟩
    · exact absurd (ha _ (getElem_mem hi)) hs

theorem Collects.marshal_error (hi : i < b.sigs.length) {e : MerkleError}
    (he : (b.sigsArray P).marshal i = .error e) : e = .indexOutOfRange := by
  simp only [sigsArray, getElem?_eq_getElem hi] at he
  rcases h.commitsTo hP (getElem_mem hi) with ⟨⟨c, hc⟩, -⟩ | ⟨hr, -⟩
  · rw [hc] at he
    cases he
  · rw [hr] at he
    exact (Except.error.inj he).symm

end

/-- The signatures stay the same when the `L` values are filled in. -/
theorem forall_sig_prepared {q : Signature → Prop} :
    (∀ slot ∈ b.prepared.sigs, q slot.commit.sig) ↔ ∀ slot ∈ b.sigs, q slot.commit.sig := by
  have hm : b.prepared.sigs.map (fun slot => slot.commit.sig) =
      b.sigs.map (fun slot => slot.commit.sig) := by
    have hr := b.prepared_weights
    generalize b.prepared.sigs = slots, b.sigs = slots' at hr
    induction hr with
    | nil => rfl
    | cons hs _ ih => rw [map_cons, map_cons, hs.2, ih]
  rw [← forall_mem_map (P := q), hm, forall_mem_map]

end Builder

/-! ### The verifier on what was built -/

def participantsArray (part : List Participant) : HashableArray where
  length := part.length
  marshal pos :=
    match part[pos]? with
    | none => .error .marshal
    | some p => .ok p.toBeHashed

variable {part : List Participant}

theorem participantsArray_marshal_ok :
    (participantsArray part).marshal i = .ok e ↔ ∃ p, part[i]? = some p ∧ p.toBeHashed = e := by
  cases hp : part[i]? <;> simp [participantsArray, hp]

theorem participantsArray_good (part : List Participant) : (participantsArray part).Good :=
  fun i hi => ⟨_, participantsArray_marshal_ok.mpr ⟨part[i], getElem?_eq_getElem hi, rfl⟩⟩

theorem exists_parttree (P : Primitives) (hl : part.length ≤ 2 ^ 63) :
    ∃ tree, BuildVectorCommitmentTree P.hashing hashType (participantsArray part) (.ok tree) := by
  obtain ⟨_, hb⟩ := exists_buildVectorCommitmentTree P.hashing hashType (participantsArray part)
  obtain ⟨tree, -, -, rfl, -⟩ := hb.commits (participantsArray_good part) hl
  exact ⟨tree, hb⟩

/-- The maps that the first loop of `Verify` makes, where every reveal passes. -/
theorem checkReveals_ok {params : Params} {reveals : Dict ℕ Reveal} {sig : Reveal → Hashable}
    (hi : ∀ i r, reveals.lookup i = some r → buildCommittableSignature P r.sigSlot = .ok (sig r))
    (h1 : ∀ i r, reveals.lookup i = some r →
      verifySignature P r.part.pk params.sigRound params.msg r.sigSlot.sig = .ok ()) :
    ∃ sigs parts, checkReveals P params reveals.entries = .ok (sigs, parts) ∧
      (∀ i, sigs.lookup i = (reveals.lookup i).map sig) ∧
      ∀ i, parts.lookup i = (reveals.lookup i).map fun r => r.part.toBeHashed := by
  have hf : ∀ (l : List (Σ _ : ℕ, Reveal)) (ma : Dict ℕ Hashable × Dict ℕ Hashable),
      (∀ r ∈ l, buildCommittableSignature P r.2.sigSlot = .ok (sig r.2) ∧
        verifySignature P r.2.part.pk params.sigRound params.msg r.2.sigSlot.sig = .ok ()) →
      l.foldlM (fun ma r => do
          let sig ← buildCommittableSignature P r.2.sigSlot
          verifySignature P r.2.part.pk params.sigRound params.msg r.2.sigSlot.sig
          return (upsert ma.1 r.1 sig, upsert ma.2 r.1 r.2.part.toBeHashed)) ma =
        .ok (l.foldl (fun m r => upsert m r.1 (sig r.2)) ma.1,
          l.foldl (fun m r => upsert m r.1 r.2.part.toBeHashed) ma.2) := by
    intro l
    induction l with
    | nil => exact fun ma _ => rfl
    | cons r l ih =>
      intro ma ha
      obtain ⟨⟨hs, hv⟩, h2⟩ := forall_mem_cons.mp ha
      rw [foldlM_cons, hs, hv]
      exact ih _ h2
  have he := hf reveals.entries (∅, ∅) fun r hr =>
    have hl : reveals.lookup r.1 = some r.2 := AList.mem_lookup_iff.mpr hr
    ⟨hi r.1 r.2 hl, h1 r.1 r.2 hl⟩
  refine ⟨_, _, he, fun i => ?_, fun i => ?_⟩
  · rw [lookup_foldl_upsert (fun _ => sig) _ reveals.nodupKeys, AList.lookup_empty, Option.or_none]
    rfl
  · rw [lookup_foldl_upsert (fun _ r => r.part.toBeHashed) _ reveals.nodupKeys,
      AList.lookup_empty, Option.or_none]
    rfl

theorem Params.numReveals_cases (params : Params) (hw : 0 < w) :
    (∃ nr, params.numReveals w = .ok nr) ∧ params.provenWeight ≠ 0 ∨
      params.numReveals w = .error (.reveals .tooManyReveals) ∧ params.provenWeight ≠ 0 ∨
      params.numReveals w = .error (.reveals .zeroWeight) ∧ params.provenWeight = 0 := by
  rw [Params.numReveals]
  cases h : CompactCert.numReveals w params.provenWeight params.secKQ maxReveals with
  | ok nr =>
    refine .inl ⟨⟨nr, rfl⟩, fun hz => ?_⟩
    simp only [CompactCert.numReveals, bind_ok, orThrow_ok] at h
    obtain ⟨_, -, _, hp, -⟩ := h
    rw [setu64Up_eq_none_iff.mpr hz] at hp
    cases hp
  | error e =>
    right
    rcases numReveals_error hw h with ⟨rfl, hp⟩ | ⟨rfl, hp⟩
    · exact .inl ⟨rfl, hp⟩
    · exact .inr ⟨rfl, hp⟩

namespace Builder

variable {params : Params} {part : List Participant} {tree sigtree : Tree} {b : Builder}

/-- The reveals pass the first loop of `Verify`, and give the elements at their positions. -/
theorem Revealed.check (h : Collects P params part tree b) (hg : (b.sigsArray P).Good)
    (ha : b.Revealed acc) :
    (∀ i ∈ acc.2, i < b.sigs.length) ∧
      ∃ sigs parts, checkReveals P params acc.1.entries = .ok (sigs, parts) ∧
        ElemsAt (b.sigsArray P) acc.2 sigs ∧ ElemsAt (participantsArray part) acc.2 parts := by
  have hn : ∀ i ∈ acc.2, ∃ sl p, b.sigs[i]? = some sl ∧ part[i]? = some p ∧
      acc.1.lookup i = some { sigSlot := sl.commit, part := p } := by
    intro i hi
    obtain ⟨r, hr⟩ := mem_iff.mp ((ha.keys i).mpr hi)
    obtain ⟨sl, p, hs, hp, rfl, -⟩ := ha.entry i r hr
    exact ⟨sl, p, hs, h.participants ▸ hp, hr⟩
  have hm : ∀ i r, acc.1.lookup i = some r → i ∈ acc.2 := fun i r hr =>
    (ha.keys i).mp (mem_iff.mpr ⟨_, hr⟩)
  have hl : ∀ i ∈ acc.2, i < b.sigs.length := by
    intro i hi
    obtain ⟨sl, p, hs, -, -⟩ := hn i hi
    exact (List.getElem?_eq_some_iff.mp hs).1
  obtain ⟨sigs, parts, hh, h1, h2⟩ := @checkReveals_ok P params acc.1
    (fun r => (buildCommittableSignature P r.sigSlot).toOption.getD { id := .compactCertSig })
    (by
      intro i r hr
      obtain ⟨sl, p, hs, -, rfl, -⟩ := ha.entry i r hr
      obtain ⟨e, he⟩ := hg i (hl i (hm i _ hr))
      obtain ⟨sl', hs', he⟩ := sigsArray_marshal_ok.mp he
      obtain rfl := Option.some.inj (hs.symm.trans hs')
      rw [he]
      rfl)
    (by
      intro i r hr
      obtain ⟨sl, p, hs, hp, rfl, hwe⟩ := ha.entry i r hr
      obtain ⟨p', hp', ⟨hz, -⟩ | ⟨-, hv⟩⟩ := h.getElem? hs
      · exact absurd hz hwe
      · rw [h.participants] at hp
        obtain rfl := Option.some.inj (hp.symm.trans hp')
        exact hv)
  refine ⟨hl, sigs, parts, hh, ?_, ?_⟩
  · intro i e
    rw [h1, sigsArray_marshal_ok]
    constructor
    · intro he
      obtain ⟨r, hr, rfl⟩ := Option.map_eq_some_iff.mp he
      obtain ⟨c, hc⟩ := hg i (hl i (hm i r hr))
      obtain ⟨sl, hs, hc⟩ := sigsArray_marshal_ok.mp hc
      obtain ⟨sl', p, hs', -, rfl, -⟩ := ha.entry i r hr
      obtain rfl := Option.some.inj (hs'.symm.trans hs)
      exact ⟨hm i _ hr, sl', hs, by rw [hc]; rfl⟩
    · rintro ⟨hi, sl, hs, he⟩
      obtain ⟨sl', p, hs', -, hr⟩ := hn i hi
      obtain rfl := Option.some.inj (hs'.symm.trans hs)
      rw [hr, Option.map_some, he]
      rfl
  · intro i e
    rw [h2, participantsArray_marshal_ok]
    constructor
    · intro he
      obtain ⟨r, hr, rfl⟩ := Option.map_eq_some_iff.mp he
      obtain ⟨sl, p, -, hp, rfl, -⟩ := ha.entry i r hr
      exact ⟨hm i _ hr, p, h.participants ▸ hp, rfl⟩
    · rintro ⟨hi, p, hp, rfl⟩
      obtain ⟨sl, p', -, hp', hr⟩ := hn i hi
      obtain rfl := Option.some.inj (hp'.symm.trans hp)
      rw [hr, Option.map_some]

/-- With as many reveals as are needed, `Build` makes a certificate, and the verifier accepts it. -/
theorem certFrom_ok (hl : part.length ≤ 2 ^ 63)
    (hp : BuildVectorCommitmentTree P.hashing hashType (participantsArray part) (.ok tree))
    (h : Collects P params part tree b) {slots : List Sigslot} (hu : b.HasSums slots)
    (hwe : b.signedWeight = totalWeight slots) (hd : params.provenWeight < b.signedWeight)
    (hg : (b.sigsArray P).Good)
    (h1 : BuildVectorCommitmentTree P.hashing hashType (b.sigsArray P) (.ok sigtree))
    (hn : params.numReveals b.signedWeight = .ok nr) :
    ∃ cert, b.certFrom P sigtree = .ok cert ∧ verifyCert P params tree.root cert = .ok () := by
  have hs : b.sigs.length = part.length := h.slots.length_eq
  have he : b.Revealed (∅, []) := ⟨fun i => by simp [AList.mem_keys], fun i r hr => by simp at hr⟩
  obtain ⟨acc, h2, ha, -, hc⟩ := reveals_ok h hu hwe (by omega) sigtree.root (List.range nr) he
  obtain ⟨ht, sigs, _, h3, h4, h5⟩ := ha.check h hg
  obtain ⟨_, sigProofs, ⟨⟩, h6, hv⟩ :=
    h1.complete hg (hs.trans_le hl) ht h4
  obtain ⟨_, partProofs, ⟨⟩, hp', hv'⟩ := hp.complete (participantsArray_good part)
    hl (fun i hi => (ht i hi).trans_eq hs) h5
  have hf : partProofs.hashFactory = hashType := by
    obtain ⟨_, k, _, ⟨⟩, hm⟩ := hp.commits (participantsArray_good part) hl
    exact (Tree.prove_hashFactory hp').trans hm.hash
  have h7 : b.certFrom P sigtree =
      .ok { sigCommit := sigtree.root
            signedWeight := b.signedWeight
            sigProofs
            partProofs
            reveals := acc.1 } := by
    rw [certFrom, h.params_eq, hn, ok_bind, h2, ok_bind]
    simp only [h6, h.parttree, hp']
    rfl
  refine ⟨_, h7, ?_⟩
  rw [verifyCert, failIf, if_neg (by simpa using hd)]
  simp only [h3, ok_bind, mapError_ok_iff.mpr hv, mapError_ok_iff.mpr hv', hn, hf]
  rw [forM_ok_iff]
  intro j hj
  obtain ⟨_, ho, i, r, hr, hh⟩ := hc j hj
  rw [ho, ok_bind, failIf_ok, not_not]
  exact ⟨⟨i, r⟩, AList.mem_lookup_iff.mp hr, hh⟩

theorem Build.inv {out : Except CertError Cert} (h : b.Build P out) :
    b.signedWeight ≤ b.params.provenWeight ∧ out = .error .notEnoughWeight ∨
      b.params.provenWeight < b.signedWeight ∧
        ∃ tree, BuildVectorCommitmentTree P.hashing hashType (b.prepared.sigsArray P) tree ∧
          out = tree.mapError .merkle >>= b.prepared.certFrom P := by
  cases h with
  | lowWeight h => exact .inl ⟨h, rfl⟩
  | tree h hb => exact .inr ⟨h, _, hb, rfl⟩

theorem exists_build (P : Primitives) (b : Builder) : ∃ out, b.Build P out := by
  by_cases h : b.params.provenWeight < b.signedWeight
  · obtain ⟨out, hb⟩ :=
      exists_buildVectorCommitmentTree P.hashing hashType (b.prepared.sigsArray P)
    exact ⟨_, .tree h hb⟩
  · exact ⟨_, .lowWeight (Nat.le_of_not_lt h)⟩

/-- The tree over the signatures is built if all of them serialise; otherwise `Build` crashes. -/
theorem Collects.build (hP : P.Converts) (hl : part.length ≤ 2 ^ 63)
    (h : Collects P params part tree b) (hr : params.provenWeight < b.signedWeight)
    {out : Except CertError Cert} (hb : b.Build P out) :
    (∀ slot ∈ b.sigs, slot.commit.sig.Serializes) ∧ (b.prepared.sigsArray P).Good ∧
        (∃ sigtree, BuildVectorCommitmentTree P.hashing hashType (b.prepared.sigsArray P)
          (.ok sigtree) ∧ out = b.prepared.certFrom P sigtree) ∨
      (¬∀ slot ∈ b.sigs, slot.commit.sig.Serializes) ∧
        out = .error (.merkle .indexOutOfRange) := by
  have hf : (b.prepared.sigsArray P).length ≤ 2 ^ 63 :=
    h.prepared.slots.length_eq.trans_le hl
  have hg := h.prepared.good_iff hP
  rw [forall_sig_prepared] at hg
  rw [← h.params_eq] at hr
  obtain ⟨_, -⟩ | ⟨-, sigtree, hs, rfl⟩ := hb.inv
  · omega
  cases sigtree with
  | ok sigtree =>
    have := hs.good hf
    exact .inl ⟨hg.mp this, this, sigtree, hs, rfl⟩
  | error e =>
    obtain ⟨i, hi, he⟩ := hs.error hf
    obtain rfl := h.prepared.marshal_error hP hi he
    refine .inr ⟨fun ha => ?_, rfl⟩
    obtain ⟨c, hc⟩ := hg.mpr ha i hi
    rw [hc] at he
    cases he

/-- What `Build` makes of the tree over enough signatures. -/
theorem Inv.certFrom (hl : part.length ≤ 2 ^ 63) (ht : (part.map Participant.weight).sum < 2 ^ 64)
    (h2 : BuildVectorCommitmentTree P.hashing hashType (participantsArray part) (.ok tree))
    (h : Inv P params part tree b) (hr : params.provenWeight < b.signedWeight)
    (hg : (b.prepared.sigsArray P).Good)
    (hs : BuildVectorCommitmentTree P.hashing hashType (b.prepared.sigsArray P) (.ok sigtree)) :
    (∃ cert, b.prepared.certFrom P sigtree = .ok cert ∧
      verifyCert P params tree.root cert = .ok ()) ∧ params.provenWeight ≠ 0 ∨
    b.prepared.certFrom P sigtree = .error (.reveals .tooManyReveals) ∧ params.provenWeight ≠ 0 ∨
    b.prepared.certFrom P sigtree = .error (.reveals .zeroWeight) ∧ params.provenWeight = 0 := by
  have h1 : ∀ e, params.numReveals b.signedWeight = .error e →
      b.prepared.certFrom P sigtree = .error e := by
    intro e he
    rw [Builder.certFrom, h.prepared.params_eq]
    show params.numReveals b.signedWeight >>= _ = _
    rw [he, error_bind]
  rcases params.numReveals_cases (zero_lt_of_lt hr) with ⟨⟨_, hn⟩, hp⟩ | ⟨he, hp⟩ | ⟨he, hp⟩
  · have hu := hasSums_prepared h.first ((totalWeight_le h.slots).trans_lt ht)
    exact .inl ⟨certFrom_ok hl h2 h.toCollects.prepared hu h.signedWeight hr hg hs hn, hp⟩
  · exact .inr (.inl ⟨h1 _ he, hp⟩)
  · exact .inr (.inr ⟨h1 _ he, hp⟩)

end Builder

open Builder

/-- The certificates that a builder makes are accepted, every coin is found in its slot, and only the
bound on the reveals keeps `Build` from making one, exactly if the proven weight is not zero and all
the signatures serialise. -/
theorem built_certificate_accepted (hP : P.Converts) {params : Params} {part : List Participant}
    (htotal : (part.map Participant.weight).sum < 2 ^ 64) (hlen : part.length ≤ 2 ^ 63) {tree : Tree}
    (hparttree : BuildVectorCommitmentTree P.hashing hashType (participantsArray part) (.ok tree))
    {b : Builder} (hb : Reached P params part tree b)
    (hready : params.provenWeight < b.signedWeight) :
    (∃ out, b.Build P out) ∧
    (∀ cert, b.Build P (.ok cert) → verifyCert P params tree.root cert = .ok ()) ∧
    (∀ coin < b.signedWeight, ∃ pos, b.prepared.coinIndex coin = .ok pos ∧ InSlot b.sigs coin pos ∧
      ∀ pos', InSlot b.sigs coin pos' → pos' = pos) ∧
    ((∀ e, b.Build P (.error e) → e = .reveals .tooManyReveals) ↔
      params.provenWeight ≠ 0 ∧ ∀ slot ∈ b.sigs, slot.commit.sig.Serializes) := by
  have h := hb.inv htotal
  have hu := hasSums_prepared h.first ((totalWeight_le h.slots).trans_lt htotal)
  have hl := fun out => @Collects.build P params part tree b hP hlen h.toCollects hready out
  refine ⟨exists_build P b, ?_, ?_, ?_, ?_⟩
  · intro cert hc
    obtain ⟨-, hg, sg, hs, ho⟩ | ⟨-, ho⟩ := hl _ hc
    · rcases h.certFrom hlen htotal hparttree hready hg hs with
        ⟨⟨cert', hf, hv⟩, -⟩ | ⟨hf, -⟩ | ⟨hf, -⟩ <;> rw [hf] at ho <;> cases ho
      exact hv
    · cases ho
  · intro coin h2
    obtain ⟨pos, hi, hpos⟩ := hu.coinIndex (h.signedWeight ▸ h2)
    exact ⟨pos, hi, hpos, fun pos' hp' => hp'.unique hpos⟩
  · intro h1
    obtain ⟨out, ho⟩ := exists_build P b
    obtain ⟨ha, hg, sg, hs, rfl⟩ | ⟨-, rfl⟩ := hl _ ho
    · refine ⟨?_, ha⟩
      rcases h.certFrom hlen htotal hparttree hready hg hs with
        ⟨-, hp⟩ | ⟨-, hp⟩ | ⟨hf, -⟩
      · exact hp
      · exact hp
      · rw [hf] at ho
        cases h1 _ ho
    · cases h1 _ ho
  · rintro ⟨hp, ha⟩ e he
    obtain ⟨-, hg, sg, hs, ho⟩ | ⟨hn, -⟩ := hl _ he
    · rcases h.certFrom hlen htotal hparttree hready hg hs with
        ⟨⟨cert, hf, -⟩, -⟩ | ⟨hf, -⟩ | ⟨-, hz⟩
      · rw [hf] at ho
        cases ho
      · exact Except.error.inj (ho.trans hf)
      · exact absurd hz hp
    · exact absurd ha hn

variable (provenWeight : ℕ) (tree : Tree)

namespace Sample

def primitives : Primitives where
  hashing := Sample.hashing
  convertToCT := some
  falconVerify _ _ _ := true
  encodeCoin _ := []

def params (provenWeight : ℕ) : Params :=
  { msg := { id := .testHashable }, provenWeight, sigRound := 1, secKQ := 2 }

/-- The digest of the ephemeral key of a round. -/
def leaf (round : ℕ) : Bytes :=
  Sample.hashing.genericHashObj .sha512_256 (committablePublicKey [] round)

/-- A key with the ephemeral keys of two rounds. -/
def participant (weight : ℕ) : Participant where
  pk := Sample.hashing.genericHashObj .sha512_256
    { id := .merkleArrayNode, data := leaf 1 ++ leaf 2 }
  weight

def participants : List Participant := [participant 2, participant 1]

/-- Its signature of the first round, with a tree depth that is 1 for the tree of two leaves. -/
def signature (treeDepth : UInt8) : Signature where
  signature := some []
  proof := { path := [some (leaf 2)], hashFactory := .sha512_256, treeDepth }

theorem converts : primitives.Converts := fun _ _ sig _ => ⟨sig, rfl⟩

/-- The builder that has added the signatures of both. -/
def builder (provenWeight : ℕ) (treeDepth : UInt8) (tree : Tree) : Builder where
  params := params provenWeight
  sigs := participants.map fun p => { weight := p.weight, commit := { sig := signature treeDepth } }
  signedWeight := 3
  participants := participants
  parttree := tree

section

variable (provenWeight : ℕ) (tree : Tree)

theorem reached {treeDepth : UInt8}
    (h : verifySignature primitives (participant 0).pk 1 { id := .testHashable }
      (signature treeDepth) = .ok ()) :
    Reached primitives (params provenWeight) participants tree
      (builder provenWeight treeDepth tree) := by
  let b1 : Builder := { builder provenWeight treeDepth tree with
    sigs := [{ weight := 2, commit := { sig := signature treeDepth } }, {}]
    signedWeight := 2 }
  have h1 : (mkBuilder (params provenWeight) participants tree).add primitives 0
      (signature treeDepth) true = .ok b1 := by
    show (verifySignature primitives (participant 0).pk 1 { id := .testHashable }
      (signature treeDepth) >>= fun _ => Except.ok b1) = _
    rw [h, ok_bind]
  have h2 : b1.add primitives 1 (signature treeDepth) true =
      .ok (builder provenWeight treeDepth tree) := by
    show (verifySignature primitives (participant 0).pk 1 { id := .testHashable }
      (signature treeDepth) >>= fun _ => Except.ok (builder provenWeight treeDepth tree)) = _
    rw [h, ok_bind]
  exact .add (.add .start h1) h2

theorem reached_one :
    Reached primitives (params provenWeight) participants tree (builder provenWeight 1 tree) :=
  reached provenWeight tree (by decide +kernel)

theorem reached_two :
    Reached primitives (params provenWeight) participants tree (builder provenWeight 2 tree) :=
  reached provenWeight tree (by decide +kernel)

end

theorem ready {provenWeight : ℕ} (h : provenWeight < 3) (treeDepth : UInt8) (tree : Tree) :
    (params provenWeight).provenWeight < (builder provenWeight treeDepth tree).signedWeight := h

theorem serializes_one :
    ∀ slot ∈ (builder provenWeight 1 tree).sigs, slot.commit.sig.Serializes :=
  forall_mem_map.mpr fun _ _ => .inr le_rfl

theorem not_serializes_two :
    ¬∀ slot ∈ (builder provenWeight 2 tree).sigs, slot.commit.sig.Serializes := by
  intro h
  rcases h _ mem_cons_self with h | h
  · cases h
  · exact absurd h (by decide)

theorem length_participants : participants.length ≤ 2 ^ 63 := by decide

theorem weight_participants : (participants.map Participant.weight).sum < 2 ^ 64 := by decide

end Sample

open Sample

theorem built_certificate_accepted_two :
    ∃ tree cert, BuildVectorCommitmentTree primitives.hashing hashType
        (participantsArray participants) (.ok tree) ∧
      (builder 1 1 tree).Build primitives (.ok cert) ∧
      verifyCert primitives (params 1) tree.root cert = .ok () := by
  obtain ⟨tree, hp⟩ := exists_parttree primitives length_participants
  have hb := reached_one 1 tree
  have hr := ready (show 1 < 3 by decide) 1 tree
  have h := hb.inv weight_participants
  obtain ⟨_, ho⟩ := exists_build primitives (builder 1 1 tree)
  obtain ⟨-, hg, _, hs, hf⟩ | ⟨hn, -⟩ :=
    hb.collects.build converts length_participants hr ho
  · have h1 : (params 1).numReveals 3 = .ok 2 := by decide +kernel
    have hu := hasSums_prepared h.first ((totalWeight_le h.slots).trans_lt weight_participants)
    obtain ⟨cert, hc, -⟩ := certFrom_ok length_participants hp
      h.toCollects.prepared hu h.signedWeight hr hg hs h1
    rw [hf, hc] at ho
    exact ⟨tree, cert, hp, ho, (built_certificate_accepted converts
      weight_participants length_participants hp hb hr).2.1 cert ho⟩
  · exact absurd (serializes_one 1 tree) hn

/-- A signature that claims a tree deeper than its path crashes `Build`, and without a proven weight
the number of reveals is not computed. -/
theorem build_crashes :
    (∃ tree b, BuildVectorCommitmentTree primitives.hashing hashType
        (participantsArray participants) (.ok tree) ∧
      Reached primitives (params 1) participants tree b ∧
      (params 1).provenWeight < b.signedWeight ∧
      b.Build primitives (.error (.merkle .indexOutOfRange))) ∧
    ∃ tree b, BuildVectorCommitmentTree primitives.hashing hashType
        (participantsArray participants) (.ok tree) ∧
      Reached primitives (params 0) participants tree b ∧
      (params 0).provenWeight < b.signedWeight ∧
      b.Build primitives (.error (.reveals .zeroWeight)) := by
  obtain ⟨tree, hp⟩ := exists_parttree primitives length_participants
  constructor
  · have hb := reached_two 1 tree
    have hr := ready (show 1 < 3 by decide) 2 tree
    refine ⟨tree, _, hp, hb, hr, ?_⟩
    obtain ⟨out, ho⟩ := exists_build primitives (builder 1 2 tree)
    obtain ⟨ha, -⟩ | ⟨-, rfl⟩ :=
      hb.collects.build converts length_participants hr ho
    · exact absurd ha (not_serializes_two 1 tree)
    · exact ho
  · have hb := reached_one 0 tree
    have hr := ready (show 0 < 3 by decide) 1 tree
    refine ⟨tree, _, hp, hb, hr, ?_⟩
    obtain ⟨out, ho⟩ := exists_build primitives (builder 0 1 tree)
    obtain ⟨-, hg, _, hs, rfl⟩ | ⟨hn, -⟩ :=
      hb.collects.build converts length_participants hr ho
    · rcases (hb.inv weight_participants).certFrom length_participants
        weight_participants hp hr hg hs with ⟨-, h⟩ | ⟨-, h⟩ | ⟨h, -⟩
      · cases h rfl
      · cases h rfl
      · rwa [h] at ho
    · exact absurd (serializes_one 0 tree) hn

end Novarand.CompactCert
