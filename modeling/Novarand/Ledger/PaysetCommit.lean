import Novarand.Crypto.MerkleRoots
import Novarand.Ledger.Evaluator
import Novarand.Lib.Codec

/-!
# The commitment of a header to its payset

The hash of a header is that of its encoding, which has the root of the payset and the protocol that
says how the root is computed: as the hash of the encoded payset, or as a Merkle tree with a leaf for
each transaction.

Digests and versions are numbers in the ledger. The bytes of a digest are those of its number, and
`Codec.text` is the text of a version.
-/

namespace Novarand.Ledger

open Crypto MerkleArray List Function Nat Sample Option

open Msgp (Member Record member)

/-! ### Bytes of digests -/

/-- The number of a digest. -/
def digestOf : Octets → Digest
  | [] => 0
  | b :: bs => b.toNat + 256 * digestOf bs

/-- The first `n` bytes of a digest. -/
def digestBytes : ℕ → Digest → Octets
  | 0, _ => []
  | n + 1, d => UInt8.ofNat (d % 256) :: digestBytes n (d / 256)

@[simp] theorem length_digestBytes (n : ℕ) (d : Digest) : (digestBytes n d).length = n := by
  induction n generalizing d with
  | zero => rfl
  | succ n ih => rw [digestBytes, length_cons, ih]

theorem digestBytes_digestOf (bs : Octets) : digestBytes bs.length (digestOf bs) = bs := by
  induction bs with
  | nil => rfl
  | cons b bs ih =>
    have hl : b.toNat < 256 := b.toNat_lt
    have hm : (b.toNat + 256 * digestOf bs) % 256 = b.toNat := by omega
    have hd : (b.toNat + 256 * digestOf bs) / 256 = digestOf bs := by omega
    rw [length_cons, digestOf, digestBytes, hm, hd, ih, UInt8.ofNat_toNat]

/-! ### The encoding of a header -/

/-- What the encodings rest on: the library, the texts of versions, and the encoding of the
transactions of a block. -/
structure Codec where
  msgp : Msgp
  text : ConsensusVersion → Octets
  text_injective : Injective text
  /-- `SignedTxnInBlock.MarshalMsg`. -/
  stib : SignedTxnInBlock → Octets

open Msgp.Codec in
def compactCertStateMembers : List Member := [
  member "v" "CompactCertVoters" bytes,
  member "t" "CompactCertVotersTotal" uint64,
  member "n" "CompactCertNextRound" uint64]

open Msgp.Codec in
/-- The fields of `BlockHeader`. Headers are not read here, so the bounds are left out. -/
def headerMembers : List Member := [
  member "rnd" "Round" uint64,
  member "prev" "Branch" (exactBytes 32),
  member "seed" "Seed" (exactBytes 32),
  member "txn" "TxnRoot" (exactBytes 32),
  member "ts" "TimeStamp" int64,
  member "gen" "GenesisID" string,
  member "gh" "GenesisHash" (exactBytes 32),
  member "fees" "FeeSink" (exactBytes 32),
  member "rwd" "RewardsPool" (exactBytes 32),
  member "earn" "RewardsLevel" uint64,
  member "rate" "RewardsRate" uint64,
  member "frac" "RewardsResidue" uint64,
  member "rwcalr" "RewardsRecalculationRound" uint64,
  member "proto" "CurrentProtocol" string,
  member "nextproto" "NextProtocol" string,
  member "nextyes" "NextProtocolApprovals" uint64,
  member "nextbefore" "NextProtocolVoteBefore" uint64,
  member "nextswitch" "NextProtocolSwitchOn" uint64,
  member "upgradeprop" "UpgradePropose" string,
  member "upgradedelay" "UpgradeDelay" uint64,
  member "upgradeyes" "UpgradeApprove" bool,
  member "tc" "TxnCounter" uint64,
  member "cc" "CompactCert" (Msgp.Codec.map none (struct compactCertStateMembers (by decide +kernel))),
  member "partupdrmv" "ExpiredParticipationAccounts" (slice none (exactBytes 32))]

def headerCodec : Msgp.Codec (Record headerMembers) :=
  Msgp.Codec.structWith Msgp.appendMapHeader headerMembers (by decide +kernel)
    fun m n rest _ => m.mapHeader n rest

theorem headerCodec_fits (r : Record headerMembers) : headerCodec.Fits r := by
  intro (i : Fin 24)
  fin_cases i
  case «22» =>
    refine ⟨fun _ hb => (by cases hb), fun _ _ (j : Fin 3) => ?_⟩
    fin_cases j <;> trivial
  case «23» => exact ⟨fun _ hb => (by cases hb), fun _ _ => trivial⟩
  all_goals trivial

def digest (d : Digest) : { b : Octets // b.length = 32 } := ⟨digestBytes 32 d, length_digestBytes 32 d⟩

open UInt64 (ofNat) in
def compactCertState (s : CompactCertState) : Record compactCertStateMembers :=
  .cons (if s.voters = 0 then [] else digestBytes 32 s.voters) <|
  .cons (ofNat s.votersTotal) <| .cons (ofNat s.nextRound) .nil

namespace Codec

variable (c : Codec)

open UInt64 (ofNat) in
/-- The header with its digests and versions as bytes. -/
def headerRecord (bh : BlockHeader) : Record headerMembers :=
  .cons (ofNat bh.round) <| .cons (digest bh.branch) <| .cons (digest bh.seed) <|
  .cons (digest bh.txnRoot) <| .cons (Int64.ofInt bh.timeStamp) <| .cons bh.genesisID <|
  .cons (digest bh.genesisHash) <| .cons (digest bh.feeSink) <| .cons (digest bh.rewardsPool) <|
  .cons (ofNat bh.rewardsLevel) <| .cons (ofNat bh.rewardsRate) <| .cons (ofNat bh.rewardsResidue) <|
  .cons (ofNat bh.rewardsRecalculationRound) <| .cons (c.text bh.currentProtocol) <|
  .cons (c.text bh.nextProtocol) <| .cons (ofNat bh.nextProtocolApprovals) <|
  .cons (ofNat bh.nextProtocolVoteBefore) <| .cons (ofNat bh.nextProtocolSwitchOn) <|
  .cons (c.text bh.upgradePropose) <| .cons (ofNat bh.upgradeDelay) <| .cons bh.upgradeApprove <|
  .cons (ofNat bh.txnCounter) <|
  .cons (bh.compactCert.entries.foldl (fun l e => l.put (Fin.ofNat _ e.1) (compactCertState e.2))
    ⟨[], .nil⟩) <|
  .cons (bh.expiredParticipationAccounts.map digest) .nil

/-- `BlockHeader.MarshalMsg`. -/
def header (bh : BlockHeader) : Octets := headerCodec.append c.msgp (c.headerRecord bh)

/-- `Payset.MarshalMsg`, of a payset that is nil if it is empty. -/
def payset (stibs : List SignedTxnInBlock) : Octets :=
  if stibs = [] then c.msgp.appendNil
  else c.msgp.appendArrayHeader stibs.length ++ stibs.flatMap c.stib

end Codec

/-! ### The commitment -/

inductive PaysetError
  | unsupportedProtocol
  | unsupportedCommitType
  | merkle (e : MerkleError)

section Commit

variable (H : Hashing) (c : Codec) {P : Type} (env : Environment P)

variable (bh : BlockHeader)

/-- What `BlockHeader.Hash` hashes. -/
def headerObj : Hashable := { id := .blockHeader, data := c.header bh }

/-- `BlockHeader.Hash`. -/
def headerHash : Octets := H.genericHashObj .sha512_256 (headerObj c bh)

/-- What `SignedTxnInBlock.Hash` hashes. -/
def stibObj (stib : SignedTxnInBlock) : Hashable := { id := .signedTxnInBlock, data := c.stib stib }

/-- What `Payset.CommitFlat` hashes. -/
def paysetObj (payset : List SignedTxnInBlock) : Hashable :=
  { id := .paysetFlat, data := c.payset payset }

/-- The leaf of a transaction, whose ID is that of the transaction as decoded. -/
def txnMerkleElem (stib : SignedTxnInBlock) : Except EvalError Hashable := do
  let stxn ← bh.decodeSignedTxn env stib
  return { id := .txnMerkleLeaf
           data := digestBytes 32 (env.txid stxn.signedTxn.txn) ++
             H.genericHashObj .sha512_256 (stibObj c stib) }

def txnMerkleArray (blk : Block) : HashableArray where
  length := blk.payset.length
  marshal pos :=
    match blk.payset[pos]? with
    | none => .error .marshal
    | some stib => (txnMerkleElem H c env blk.toBlockHeader stib).mapError fun _ => .marshal

/-- The outcomes of `PaysetCommit`; those of the Merkle tree are the outcomes of building it. -/
inductive PaysetCommit (blk : Block) : Except PaysetError Octets → Prop
  | unsupportedProtocol (hproto : env.consensus blk.currentProtocol = none) :
    PaysetCommit blk (.error .unsupportedProtocol)
  | unsupported {params} (hproto : env.consensus blk.currentProtocol = some params)
      (htype : params.paysetCommit = .unsupported) :
    PaysetCommit blk (.error .unsupportedCommitType)
  | flat {params} (hproto : env.consensus blk.currentProtocol = some params)
      (htype : params.paysetCommit = .flat) :
    PaysetCommit blk (.ok (H.genericHashObj .sha512_256 (paysetObj c blk.payset)))
  | merkle {params tree} (hproto : env.consensus blk.currentProtocol = some params)
      (htype : params.paysetCommit = .merkle)
      (hbuild : Build H .sha512_256 (txnMerkleArray H c env blk) (.ok tree)) :
    PaysetCommit blk (.ok (fit 32 tree.root))
  | merkleFailed {params e} (hproto : env.consensus blk.currentProtocol = some params)
      (htype : params.paysetCommit = .merkle)
      (hbuild : Build H .sha512_256 (txnMerkleArray H c env blk) (.error e)) :
    PaysetCommit blk (.error (.merkle e))

/-- `ContentsMatchHeader` can return true. -/
def ContentsMatchHeader (blk : Block) : Prop :=
  ∃ expected, PaysetCommit H c env blk (.ok expected) ∧ digestOf expected = blk.txnRoot

/-- Everything that is hashed for the header and for the commitment. -/
def blockInputs (blk : Block) : Set Octets :=
  {x | x = (headerObj c blk.toBlockHeader).hashRep ∨ x = (paysetObj c blk.payset).hashRep ∨
    (∃ stib ∈ blk.payset, x = (stibObj c stib).hashRep) ∨
    ∃ tree, Build H .sha512_256 (txnMerkleArray H c env blk) (.ok tree) ∧
      x ∈ treeInputs .sha512_256 (txnMerkleArray H c env blk) tree.levels}

end Commit

/-! ### What the encoding of a header tells -/

namespace Codec

variable (c : Codec) {bh bh' : BlockHeader} (h : c.header bh = c.header bh')
include h

theorem headerRecord_inj : c.headerRecord bh = c.headerRecord bh' :=
  headerCodec.append_inj c.msgp (headerCodec_fits _) (headerCodec_fits _) h

theorem currentProtocol_eq : bh.currentProtocol = bh'.currentProtocol :=
  c.text_injective (congrFun (c.headerRecord_inj h) (13 : Fin 24))

theorem txnRoot_eq : digestBytes 32 bh.txnRoot = digestBytes 32 bh'.txnRoot :=
  congrArg Subtype.val (congrFun (c.headerRecord_inj h) (3 : Fin 24))

end Codec

variable {S : Set Octets} {x : Octets}

/-! ### Binding -/

section Binding

variable {H : Hashing} {c : Codec} {P : Type} {env : Environment P}

variable {expected : Octets}

section

variable {blk : Block} (h : PaysetCommit H c env blk (.ok expected))
include h

theorem PaysetCommit.length : expected.length = 32 := by
  cases h with
  | flat => exact H.length_genericHashObj _ _
  | @merkle _ _ =>
    rw [fit, length_append, length_take, length_replicate]
    omega

/-- The two kinds of commitment. -/
theorem PaysetCommit.cases :
    ∃ params, env.consensus blk.currentProtocol = some params ∧
      (params.paysetCommit = .flat ∧
          expected = H.genericHashObj .sha512_256 (paysetObj c blk.payset) ∨
        params.paysetCommit = .merkle ∧ ∃ tree,
          Build H .sha512_256 (txnMerkleArray H c env blk) (.ok tree) ∧
            expected = fit 32 tree.root) := by
  cases h with
  | flat hp ht => exact ⟨_, hp, .inl ⟨ht, rfl⟩⟩
  | merkle hp ht hb => exact ⟨_, hp, .inr ⟨ht, _, hb, rfl⟩⟩

/-- The root in a header that matches the contents is the commitment. -/
theorem digestBytes_txnRoot (hr : digestOf expected = blk.txnRoot) :
    digestBytes 32 blk.txnRoot = expected := by
  have hb := digestBytes_digestOf expected
  rwa [h.length, hr] at hb

end

theorem txnMerkleArray_inv {blk : Block} {i : ℕ} {e : Hashable}
    (h : (txnMerkleArray H c env blk).marshal i = .ok e) :
    ∃ stib txid, blk.payset[i]? = some stib ∧ txid.length = 32 ∧
      e = { id := .txnMerkleLeaf
            data := txid ++ H.genericHashObj .sha512_256 (stibObj c stib) } := by
  unfold txnMerkleArray at h
  simp only at h
  cases hs : blk.payset[i]? with
  | none =>
    rw [hs] at h
    cases h
  | some stib =>
    rw [hs] at h
    simp only [mapError_ok_iff, txnMerkleElem, bind_ok, pure_ok] at h
    obtain ⟨_, -, rfl⟩ := h
    exact ⟨stib, _, rfl, length_digestBytes 32 _, rfl⟩

/-- The leaves of a block tell the encodings of its transactions. -/
theorem map_stib_eq (hS : Set.InjOn (H.sum .sha512_256) S) {blk blk' : Block}
    (hn : ∀ stib ∈ blk.payset, (stibObj c stib).hashRep ∈ S)
    (hn' : ∀ stib ∈ blk'.payset, (stibObj c stib).hashRep ∈ S)
    (hg : (txnMerkleArray H c env blk).Good) (hl : blk.payset.length = blk'.payset.length)
    (hm : ∀ i < blk.payset.length,
      (txnMerkleArray H c env blk).marshal i = (txnMerkleArray H c env blk').marshal i) :
    blk.payset.map c.stib = blk'.payset.map c.stib := by
  refine ext_getElem (by simpa using hl) fun i hi hi' => ?_
  rw [length_map] at hi hi'
  obtain ⟨e, he⟩ := hg i hi
  obtain ⟨stib, _, h1, ht, rfl⟩ := txnMerkleArray_inv he
  obtain ⟨stib', _, hs', ht', hq⟩ := txnMerkleArray_inv ((hm i hi).symm.trans he)
  have hd := congrArg Hashable.data hq
  obtain ⟨-, hs⟩ := append_inj hd (ht.trans ht'.symm)
  have hr := hS (hn stib (mem_of_getElem? h1)) (hn' stib' (mem_of_getElem? hs')) hs
  have h2 : c.stib stib = c.stib stib' := congrArg Hashable.data (Hashable.hashRep_inj hr)
  rw [getElem?_eq_getElem hi] at h1
  rw [getElem?_eq_getElem hi'] at hs'
  rw [getElem_map, getElem_map, some.inj h1, some.inj hs', h2]

theorem Codec.payset_eq {stibs stibs' : List SignedTxnInBlock}
    (h : stibs.map c.stib = stibs'.map c.stib) : c.payset stibs = c.payset stibs' := by
  have hl : stibs.length = stibs'.length := by simpa using congrArg List.length h
  have hn : stibs = [] ↔ stibs' = [] := by rw [← length_eq_zero_iff, hl, length_eq_zero_iff]
  rw [payset, flatMap_def, h, hl]
  exact if_congr hn rfl rfl

/-- Two blocks with the same header hash, whose contents match it, have the same encoded payset, if
no two of the strings hashed for them collide and none has the hash of all zeros. -/
theorem contents_bound (blk blk' : Block)
    (hS : Set.InjOn (H.sum .sha512_256) (blockInputs H c env blk ∪ blockInputs H c env blk'))
    (hzero : NonZero H .sha512_256 (blockInputs H c env blk ∪ blockInputs H c env blk'))
    (hmatch : ContentsMatchHeader H c env blk) (hmatch' : ContentsMatchHeader H c env blk')
    (hhash : headerHash H c blk.toBlockHeader = headerHash H c blk'.toBlockHeader) :
    c.payset blk.payset = c.payset blk'.payset := by
  obtain ⟨ex, hc, h2⟩ := hmatch
  obtain ⟨expected', hc', hr'⟩ := hmatch'
  have hn : blockInputs H c env blk ⊆ blockInputs H c env blk ∪ blockInputs H c env blk' :=
    Set.subset_union_left
  have hi' : blockInputs H c env blk' ⊆ blockInputs H c env blk ∪ blockInputs H c env blk' :=
    Set.subset_union_right
  -- the headers have the same encoding, so the same protocol and the same root
  have hr := hS (hn (.inl rfl)) (hi' (.inl rfl)) hhash
  have h1 : c.header blk.toBlockHeader = c.header blk'.toBlockHeader :=
    congrArg Hashable.data (Hashable.hashRep_inj hr)
  have hp := c.currentProtocol_eq h1
  have h3 : ex = expected' := by
    rw [← digestBytes_txnRoot hc h2, ← digestBytes_txnRoot hc' hr', c.txnRoot_eq h1]
  subst h3
  obtain ⟨_, h4, hk⟩ := hc.cases
  obtain ⟨_, hp', hk'⟩ := hc'.cases
  rw [← hp] at hp'
  obtain rfl := some.inj (h4.symm.trans hp')
  rcases hk with ⟨hf, hs⟩ | ⟨h5, tr, hb, hs⟩
  · rcases hk' with ⟨-, hs'⟩ | ⟨hm', -⟩
    · have hy := hS (hn (.inr (.inl rfl))) (hi' (.inr (.inl rfl)))
        (hs.symm.trans hs')
      exact congrArg Hashable.data (Hashable.hashRep_inj hy)
    · rw [hf] at hm'
      cases hm'
  · rcases hk' with ⟨hf', -⟩ | ⟨-, tr', hb', hs'⟩
    · rw [h5] at hf'
      cases hf'
    · have hi : ∀ {b : Block} {i : ℕ} {e : Hashable},
          (txnMerkleArray H c env b).marshal i = .ok e → e.id ≠ .merkleArrayNode := by
        intro b i e he
        obtain ⟨st, _, -, -, rfl⟩ := txnMerkleArray_inv he
        exact HashID.noConfusion
      obtain ⟨hl, hm⟩ := hb.root_binding hS hzero hb' (fun _ _ _ he => hi he)
        (fun _ _ _ he => hi he)
        (fun x hx => hn (.inr (.inr (.inr ⟨tr, hb, hx⟩))))
        (fun x hx => hi' (.inr (.inr (.inr ⟨tr', hb', hx⟩))))
        (hs.symm.trans hs')
      exact Codec.payset_eq (map_stib_eq hS
        (fun st ht => hn (.inr (.inr (.inl ⟨st, ht, rfl⟩))))
        (fun st ht => hi' (.inr (.inr (.inl ⟨st, ht, rfl⟩))))
        hb.good hl hm)

end Binding

namespace PaysetSample

/-- Only the note of a transaction is encoded. -/
def codec : Codec where
  msgp := .unary
  text := Unary.append
  text_injective a b h := by
    have hr := Unary.read_append a []
    rw [h, Unary.read_append] at hr
    exact (Prod.mk.inj (Except.ok.inj hr)).1.symm
  stib stib := stib.signedTxn.txn.note

variable (fee : ℕ)

def stib (note : UInt8) : SignedTxnInBlock := { signedTxn := { txn := { note := [note], fee } } }

def leaf (note : UInt8) : Hashable :=
  { id := .txnMerkleLeaf
    data := digestBytes 32 (note.toNat + 1) ++
      hashing.genericHashObj .sha512_256 (stibObj codec (stib 0 note)) }

def leaves : MerkleArray.Layer := [7, 9].map fun note => hashing.genericHashObj .sha512_256 (leaf note)

/-- Two transactions. -/
def blk : Block where
  round := 2
  currentProtocol := 31
  txnRoot := digestOf (hashing.genericHashObj .sha512_256 (nodeAt .sha512_256 leaves 0))
  payset := [stib fee 7, stib fee 9]

def array : HashableArray := txnMerkleArray hashing codec env (blk fee)

theorem array_good : (array fee).Good
  | 0, _ => ⟨leaf 7, rfl⟩
  | 1, _ => ⟨leaf 9, rfl⟩

theorem levels_eq {fee : ℕ} {tree : Tree} (h : Build hashing .sha512_256 (array fee) (.ok tree)) :
    tree.levels = [leaves, [hashing.genericHashObj .sha512_256 (nodeAt .sha512_256 leaves 0)]] := by
  obtain ⟨levels, ht, he⟩ := h.tree (array_good fee)
  obtain rfl := Except.ok.inj ht
  rcases he with ⟨hz, -⟩ | ⟨_, hv, hs⟩
  · exact absurd hz two_ne_zero
  · obtain ⟨x, y, rfl⟩ := length_eq_two.mp hv.length
    obtain rfl := some.inj (hv.leaf 0 (leaf 7) two_pos rfl)
    obtain rfl := some.inj (hv.leaf 1 (leaf 9) one_lt_two rfl)
    obtain ⟨_, hp, rfl⟩ := hs.pair
    obtain rfl := Except.ok.inj hp
    rfl

/-- All strings that are hashed. -/
def inputs : List Octets :=
  [(headerObj codec (blk 0).toBlockHeader).hashRep, (paysetObj codec (blk 0).payset).hashRep,
    (stibObj codec (stib 0 7)).hashRep, (stibObj codec (stib 0 9)).hashRep, (leaf 7).hashRep,
    (leaf 9).hashRep, (nodeAt .sha512_256 leaves 0).hashRep]

theorem mem_inputs {fee : ℕ} (h : x ∈ blockInputs hashing codec env (blk fee)) : x ∈ inputs := by
  rcases h with rfl | rfl | ⟨s, hs, rfl⟩ | ⟨_, hb, hx⟩
  · exact mem_cons_self
  · exact mem_cons_of_mem _ mem_cons_self
  · rcases mem_pair.mp hs with rfl | rfl
    · simp [inputs, stibObj, codec, stib]
    · simp [inputs, stibObj, codec, stib]
  · rcases hx with ⟨i, hi, e, he, rfl⟩ | ⟨_, hy, hl, j, hj, rfl⟩
    · have hi : i < 2 := hi
      interval_cases i
      · obtain rfl := Except.ok.inj (he.symm.trans (show (array fee).marshal 0 = .ok (leaf 7) from rfl))
        simp [inputs]
      · obtain rfl := Except.ok.inj (he.symm.trans (show (array fee).marshal 1 = .ok (leaf 9) from rfl))
        simp [inputs]
    · rw [levels_eq hb] at hy
      rcases mem_pair.mp hy with rfl | rfl
      · obtain rfl : j = 0 := by
          have hl : leaves.length = 2 := rfl
          omega
        simp [inputs]
      · exact absurd hl (lt_irrefl 1)

theorem collision_free : ∀ x ∈ inputs, ∀ y ∈ inputs,
    hashing.sum .sha512_256 x = hashing.sum .sha512_256 y → x = y := by decide +kernel

theorem non_zero : ∀ x ∈ inputs, hashing.sum .sha512_256 x ≠ List.replicate 32 0 := by
  decide +kernel

theorem matches_header :
    ContentsMatchHeader hashing codec env (blk fee) := by
  obtain ⟨_, hb⟩ := exists_build hashing .sha512_256 (array fee)
  obtain ⟨_, rfl, -⟩ := hb.tree (array_good fee)
  refine ⟨_, .merkle rfl rfl hb, ?_⟩
  rw [Tree.root, levels_eq hb]
  exact congrArg digestOf (fit_of_length (hashing.length_sum _ _))

end PaysetSample

open PaysetSample

/-- The fees of the transactions are not encoded. -/
theorem contents_bound_two :
    headerHash hashing codec (blk 0).toBlockHeader =
      headerHash hashing codec (blk 5).toBlockHeader ∧
    codec.payset (blk 0).payset = codec.payset (blk 5).payset := by
  have hm : ∀ x ∈ blockInputs hashing codec env (blk 0) ∪
      blockInputs hashing codec env (blk 5), x ∈ inputs := by
    rintro x (hx | hx)
    · exact mem_inputs hx
    · exact mem_inputs hx
  exact ⟨rfl, contents_bound _ _
    (fun x hx y hy => collision_free x (hm x hx) y (hm y hy))
    (fun x hx => non_zero x (hm x hx)) (matches_header 0)
    (matches_header 5) rfl⟩

end Novarand.Ledger
