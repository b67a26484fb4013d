import Novarand.Ledger.Evaluator

/-!
# The transaction tail

`txTail` remembers the transactions of the recent blocks, so that none is accepted twice while it is
alive, and the leases they hold. It drops entries by two rules, rounds that are too old and last
valid rounds that have passed, and is rebuilt from the blocks on disk when the ledger is loaded.

`Tracks` says what the tail knows when the latest round is `n`; every operation keeps it, in any
order, on a chain of valid blocks.
-/

namespace Novarand.Ledger

open List Dict Nat Cow

variable {P : Type} (env : Environment P)

def Transaction.txlease (tx : Transaction) : Txlease := { sender := tx.sender, lease := tx.lease }

def Block.decodePaysetFlat (blk : Block) : Except EvalError (List SignedTxnWithAD) :=
  blk.payset.mapM (blk.toBlockHeader.decodeSignedTxn env)

/-- `config.Consensus[v]`, with the fields read here of the zero record if there is no such version. -/
def Environment.protocol (v : ConsensusVersion) : ConsensusParams :=
  (env.consensus v).getD
    { maxTxnLife := 0, supportTransactionLeases := false, fixTransactionLeases := false }

structure RoundTxMembers where
  /-- The lease to when it expires. -/
  txleases : Dict Txlease Round := ∅
  proto : ConsensusParams

structure TxTail where
  recent : Dict Round RoundTxMembers := ∅
  /-- The last valid round to the transactions confirmed with it. -/
  lastValid : Dict Round (Finset Txid) := ∅
  lowWaterMark : Round := 0

inductive TailError
  | missingRound (round : Round)
  | leaseInLedger (txid : Txid) (txl : Txlease)
  | transactionInLedger (txid : Txid)
  deriving DecidableEq

/-- What `txTail` reads of the ledger. -/
structure BlockSource where
  latest : Round
  block : Round → Except EvalError Block

namespace TxTail

def putLV (m : Dict Round (Finset Txid)) (lastValid : Round) (id : Txid) : Dict Round (Finset Txid) :=
  m.upsert lastValid (insert id (m.getD lastValid ∅))

/-- The transactions of one block in `loadFromDisk`. The lists collected first only size the maps. -/
def loadTx (consensusParams : ConsensusParams) (lowWaterMark : Round)
    (m : Dict Txlease Round × Dict Round (Finset Txid)) (tx : Transaction) :
    Dict Txlease Round × Dict Round (Finset Txid) :=
  (if consensusParams.supportTransactionLeases ∧ tx.lease ≠ 0 then
      m.1.upsert tx.txlease tx.lastValid
    else m.1,
   if lowWaterMark < tx.lastValid then putLV m.2 tx.lastValid (env.txid tx) else m.2)

def loadBlock (l : BlockSource) (t : TxTail) (old : Round) : Except EvalError TxTail := do
  let blk ← l.block old
  let payset ← blk.decodePaysetFlat env
  let consensusParams := env.protocol blk.currentProtocol
  let m := (payset.map (·.signedTxn.txn)).foldl (loadTx env consensusParams t.lowWaterMark)
    (∅, t.lastValid)
  return { t with
    recent := t.recent.upsert old { txleases := m.1, proto := consensusParams }
    lastValid := m.2 }

def loadFromDisk (l : BlockSource) : Except EvalError TxTail := do
  let hdr ← l.block l.latest
  let proto := env.protocol hdr.currentProtocol
  let old := subSaturate (l.latest + 1) proto.maxTxnLife
  (List.range' old (l.latest + 1 - old)).foldlM (loadBlock env l) { lowWaterMark := l.latest }

def newBlock (blk : Block) (txids : Dict Txid Round) (txleases : Dict Txlease Round) (t : TxTail) :
    TxTail :=
  if (t.recent.lookup blk.round).isSome then t
  else { t with
    recent := t.recent.upsert blk.round { txleases, proto := env.protocol blk.currentProtocol }
    lastValid := txids.entries.foldl (fun m e => putLV m e.2 e.1) t.lastValid }

/-- `committedUpTo`, with the first round whose block is to be kept. -/
def committedUpTo (rnd : Round) (t : TxTail) : TxTail × Round :=
  let maxlife := ((t.recent.lookup rnd).map (·.proto.maxTxnLife)).getD 0
  ({ recent := t.recent.filterKeys fun r => !(r + maxlife < rnd)
     lastValid := t.lastValid.filterKeys fun lv => !(t.lowWaterMark ≤ lv ∧ lv < rnd)
     lowWaterMark := max t.lowWaterMark rnd },
   subSaturate (rnd + 1) maxlife)

/-- The rounds whose leases `checkDup` looks at. -/
def checkedRounds (proto : ConsensusParams) (current firstValid lastValid : Round) : List Round :=
  let firstChecked :=
    if proto.fixTransactionLeases then subSaturate current proto.maxTxnLife else firstValid
  let lastChecked := if proto.fixTransactionLeases then current else lastValid
  List.range' firstChecked (lastChecked + 1 - firstChecked)

def checkDup (proto : ConsensusParams) (current firstValid lastValid : Round) (txid : Txid)
    (txl : Txlease) (t : TxTail) : Except TailError Unit :=
  if lastValid < t.lowWaterMark then throw (.missingRound lastValid)
  else if proto.supportTransactionLeases ∧ txl.lease ≠ 0 ∧
      ∃ rnd ∈ checkedRounds proto current firstValid lastValid, ∃ m ∈ t.recent.lookup rnd,
        ∃ expires ∈ m.txleases.lookup txl, current ≤ expires then
    throw (.leaseInLedger txid txl)
  else if txid ∈ t.lastValid.getD lastValid ∅ then throw (.transactionInLedger txid)
  else return ()

end TxTail

open TxTail

/-! ## Blocks and their deltas -/

/-- The transactions of a block in order, each after its check against the block so far. -/
def Cow.addTxns (x : BlockContext) : List Transaction → Cow → Except EvalError Cow
  | [], c => pure c
  | tx :: rest, c => do
    c.checkDup x tx.firstValid tx.lastValid (env.txid tx) tx.txlease
    addTxns x rest (c.addTx (env.txid tx) tx.lastValid tx.txlease)

/-- One of the transactions has the id, and the last valid round `lv`. -/
def Confirmed (txns : List Transaction) (id : Txid) (lv : Round) : Prop :=
  ∃ tx ∈ txns, env.txid tx = id ∧ tx.lastValid = lv

/-- One of the transactions holds the lease until the round `lv`. -/
def Leased (txns : List Transaction) (txl : Txlease) (lv : Round) : Prop :=
  ∃ tx ∈ txns, tx.lease ≠ 0 ∧ tx.txlease = txl ∧ tx.lastValid = lv

/-- The block of round `r` with its decoded transactions and the records of its evaluation. -/
structure ValidBlock (life : ℕ) (r : Round) (blk : Block) (txns : List Transaction)
    (delta : Layer) : Prop where
  round : blk.round = r
  decodes : ∀ payset, blk.decodePaysetFlat env = .ok payset → payset.map (·.signedTxn.txn) = txns
  known : ∃ params, env.consensus blk.currentProtocol = some params ∧ params.maxTxnLife = life ∧
    (∀ tx ∈ txns, tx.lease ≠ 0 → params.supportTransactionLeases = true) ∧
    ∃ b, addTxns env { proto := params, round := r } txns (.layer (.base b) {}) =
      .ok (.layer (.base b) delta)
  /-- Every transaction is alive in the block, and its lifetime is bounded. -/
  alive : ∀ tx ∈ txns, tx.firstValid ≤ r ∧ r ≤ tx.lastValid ∧ tx.lastValid ≤ tx.firstValid + life

variable {first last lv : Round} {tx : Transaction} {txl : Txlease} {id : Txid} {life n' rnd : ℕ}

section

variable {env} {x : BlockContext} {txns : List Transaction} {b : RoundCowBase} {l l' : Layer}

theorem addTx_layer (p : Cow) (id : Txid) (lv : Round) (txl : Txlease) :
    (layer p l).addTx id lv txl = .layer p
      { l with
        txids := l.txids.upsert id lv
        txnCount := l.txnCount + 1
        txleases := if txl.lease ≠ 0 then l.txleases.upsert txl lv else l.txleases } := by
  unfold addTx
  split <;> rfl

theorem checkDup_layer_ok {p : Cow} (h : (layer p l).checkDup x first last id txl = .ok ()) :
    l.txids.lookup id = none ∧
      (x.proto.supportTransactionLeases = true → txl.lease ≠ 0 →
        ∀ e, l.txleases.lookup txl = some e → e < x.round) := by
  simp only [Cow.checkDup] at h
  split at h
  · cases h
  next hi =>
    refine ⟨Option.not_isSome_iff_eq_none.mp hi, fun hs hl e he => ?_⟩
    rw [if_pos ⟨hs, hl⟩, he] at h
    by_contra hle
    simp only [Option.any_some, decide_eq_true (Nat.le_of_not_lt hle), if_true] at h
    cases h

theorem confirmed_cons :
    Confirmed env (tx :: txns) id lv ↔
      (env.txid tx = id ∧ tx.lastValid = lv) ∨ Confirmed env txns id lv := by simp [Confirmed]

theorem leased_cons :
    Leased (tx :: txns) txl lv ↔
      (tx.lease ≠ 0 ∧ tx.txlease = txl ∧ tx.lastValid = lv) ∨ Leased txns txl lv := by simp [Leased]

/-- The records of a block: each of its transactions once, each of its leases once. -/
theorem addTxns_records (hr : ∀ tx ∈ txns, x.round ≤ tx.lastValid)
    (hl : ∀ tx ∈ txns, tx.lease ≠ 0 → x.proto.supportTransactionLeases = true)
    (hh : ∀ txl e, l.txleases.lookup txl = some e → x.round ≤ e)
    (h : addTxns env x txns (.layer (.base b) l) = .ok (.layer (.base b) l')) :
    (∀ id lv, l'.txids.lookup id = some lv ↔ l.txids.lookup id = some lv ∨ Confirmed env txns id lv) ∧
    ∀ txl lv, l'.txleases.lookup txl = some lv ↔
      l.txleases.lookup txl = some lv ∨ Leased txns txl lv := by
  induction txns generalizing l with
  | nil =>
    obtain rfl : l = l' := by
      cases h
      rfl
    simp [Confirmed, Leased]
  | cons tx _ ih =>
    obtain ⟨ht, h1⟩ := forall_mem_cons.mp hr
    obtain ⟨hs, hl⟩ := forall_mem_cons.mp hl
    simp only [addTxns, bind_ok, addTx_layer] at h
    obtain ⟨⟨⟩, hc, h⟩ := h
    obtain ⟨hn, hf⟩ := checkDup_layer_ok hc
    -- no lease of the block has expired, so the one of `tx` is free
    have h2 : tx.lease ≠ 0 → l.txleases.lookup tx.txlease = none := by
      intro hne
      refine Option.eq_none_iff_forall_ne_some.mpr fun e he => ?_
      exact Nat.not_lt_of_le (hh _ e he) (hf (hs hne) hne e he)
    obtain ⟨hi, hle⟩ := ih h1 hl (fun txl e he => by
      split at he
      · rw [lookup_upsert] at he
        split at he
        · exact Option.some.inj he ▸ ht
        · exact hh txl e he
      · exact hh txl e he) h
    refine ⟨fun id lv => ?_, fun txl lv => ?_⟩
    · rw [hi, confirmed_cons, ← or_assoc]
      exact or_congr (lookup_upsert_new hn ..) Iff.rfl
    · rw [hle, leased_cons, ← or_assoc]
      refine or_congr ?_ Iff.rfl
      by_cases hne : tx.lease ≠ 0
      · rw [if_pos (show tx.txlease.lease ≠ 0 from hne), lookup_upsert_new (h2 hne)]
        exact or_congr_right (iff_and_self.mpr fun _ => hne)
      · simp [hne, if_neg (show ¬tx.txlease.lease ≠ 0 from hne)]

/-- The delta of a valid block has its transactions and their leases. -/
theorem ValidBlock.records {r : Round} {blk : Block} {delta : Layer}
    (h : ValidBlock env life r blk txns delta) :
    (∀ id lv, delta.txids.lookup id = some lv ↔ Confirmed env txns id lv) ∧
      ∀ txl lv, delta.txleases.lookup txl = some lv ↔ Leased txns txl lv := by
  obtain ⟨_, -, -, hl, b, ha⟩ := h.known
  simpa using addTxns_records (fun tx ht => (h.alive tx ht).2.1) hl (by simp) ha

end

variable {l : BlockSource} {k len old : ℕ} {t' : TxTail}

namespace TxTail

/-! ## The maps of the tail -/

variable {env} {m : Dict Round (Finset Txid)} {id id' : Txid} {lv lv' : Round}

theorem mem_putLV : id ∈ (putLV m lv' id').getD lv ∅ ↔
    id ∈ m.getD lv ∅ ∨ id' = id ∧ lv' = lv := by
  rw [putLV, Dict.getD, lookup_upsert]
  by_cases h : lv = lv'
  · subst h
    simp [or_comm, eq_comm]
  · simp [h, Ne.symm h, Dict.getD]

theorem mem_foldl_putLV (txids : List (Σ _ : Txid, Round)) :
    id ∈ (txids.foldl (fun m e => putLV m e.2 e.1) m).getD lv ∅ ↔
      id ∈ m.getD lv ∅ ∨ ⟨id, lv⟩ ∈ txids := by
  induction txids generalizing m with
  | nil => simp
  | cons e txids ih =>
    obtain ⟨_, _⟩ := e
    rw [foldl_cons, ih, mem_putLV, or_assoc]
    simp [eq_comm]

variable {params proto : ConsensusParams} {mark : Round} {txns : List Transaction}
  {leases : Dict Txlease Round} {txl : Txlease}

/-- The transactions that `loadFromDisk` takes from one block. -/
theorem mem_foldl_loadTx :
    id ∈ (txns.foldl (loadTx env params mark) (leases, m)).2.getD lv ∅ ↔
      id ∈ m.getD lv ∅ ∨ mark < lv ∧ Confirmed env txns id lv := by
  induction txns generalizing leases m with
  | nil => simp [Confirmed]
  | cons tx _ ih =>
    rw [foldl_cons, loadTx, ih, confirmed_cons, and_or_left, ← or_assoc]
    refine or_congr ?_ Iff.rfl
    by_cases hl : mark < tx.lastValid
    · rw [if_pos hl, mem_putLV]
      refine or_congr_right ⟨fun h => ⟨h.2 ▸ hl, h⟩, And.right⟩
    · rw [if_neg hl, iff_self_or]
      rintro ⟨ht, -, rfl⟩
      exact absurd ht hl

/-- The leases that `loadFromDisk` takes from one block: only those of its transactions. -/
theorem lookup_foldl_loadTx
    (h : (txns.foldl (loadTx env params mark) (leases, m)).1.lookup txl = some lv) :
    leases.lookup txl = some lv ∨ Leased txns txl lv := by
  induction txns generalizing leases m with
  | nil => exact .inl h
  | cons _ _ ih =>
    rw [leased_cons, ← or_assoc]
    refine (ih h).imp (fun hl => ?_) id
    split at hl
    next hs =>
      rw [lookup_upsert] at hl
      split at hl
      next ht => exact .inr ⟨hs.2, ht.symm, Option.some.inj hl⟩
      next ht => exact .inl hl
    next => exact .inl hl

/-- The leases that `loadFromDisk` takes from one block: all of them. -/
theorem isSome_foldl_loadTx
    (hs : ∀ tx ∈ txns, tx.lease ≠ 0 → params.supportTransactionLeases = true)
    (h : (leases.lookup txl).isSome ∨ Leased txns txl lv) :
    ((txns.foldl (loadTx env params mark) (leases, m)).1.lookup txl).isSome := by
  induction txns generalizing leases m with
  | nil => simpa [Leased] using h
  | cons tx _ ih =>
    obtain ⟨ht, hr⟩ := forall_mem_cons.mp hs
    rw [leased_cons, ← or_assoc] at h
    refine ih hr (h.imp ?_ id)
    rintro (hl | ⟨h1, rfl, -⟩)
    · split
      · rw [lookup_upsert]
        split
        · rfl
        · exact hl
      · exact hl
    · rw [if_pos ⟨ht h1, h1⟩, lookup_upsert, if_pos rfl]
      rfl

/-! ## What the tail knows -/

variable {life n last : ℕ} {t : TxTail} {blk : Round → Block} {txnsOf : Round → List Transaction}
  {delta : Round → Layer}

variable (env) in
/-- The tail for the latest round `n`: the leases of the rounds from which a transaction can be alive
in the next round, and the transactions that are. -/
structure Tracks (life : ℕ) (txnsOf : Round → List Transaction) (n : Round) (t : TxTail) : Prop where
  mark : t.lowWaterMark ≤ n
  recent : ∀ r m, t.recent.lookup r = some m → r ≤ n ∧ m.proto.maxTxnLife = life ∧
    ∀ txl lv, m.txleases.lookup txl = some lv ↔ Leased (txnsOf r) txl lv
  window : ∀ r, n < r + life → r ≤ n → (t.recent.lookup r).isSome
  sound : ∀ lv id, id ∈ t.lastValid.getD lv ∅ → ∃ r ≤ n, Confirmed env (txnsOf r) id lv
  complete : ∀ r ≤ n, ∀ id lv, n < lv → Confirmed env (txnsOf r) id lv → id ∈ t.lastValid.getD lv ∅

/-- A block of the chain, the next one or one that is already there. -/
theorem Tracks.newBlock {r : ℕ} (h : Tracks env life txnsOf n t)
    (hb : ValidBlock env life r (blk r) (txnsOf r) (delta r)) (hr : r ≤ n') (hn : n ≤ n')
    (hx : ∀ q, n < q → q ≤ n' → q = r) :
    Tracks env life txnsOf n' (t.newBlock env (blk r) (delta r).txids (delta r).txleases) := by
  obtain ⟨_, hp, hl, -, -⟩ := hb.known
  obtain ⟨hi, h2⟩ := hb.records
  unfold TxTail.newBlock
  rw [hb.round]
  split
  next hs =>
    -- a repeated round
    obtain ⟨m, hm⟩ := Option.isSome_iff_exists.mp hs
    have h4 := (h.recent r m hm).1
    obtain rfl : n = n' := by
      by_contra he
      have := hx n' (by lia) le_rfl
      lia
    exact h
  next hs =>
    refine ⟨h.mark.trans hn, fun q m hq => ?_, fun q ht hq => ?_, fun lv id hd => ?_,
      fun q hq id lv ht hc => ?_⟩
    · rw [lookup_upsert] at hq
      split at hq
      next heq =>
        subst heq
        obtain rfl := Option.some.inj hq
        refine ⟨hr, ?_, h2⟩
        rw [Environment.protocol, hp]
        exact hl
      next he =>
        obtain ⟨h1, h3⟩ := h.recent q m hq
        exact ⟨h1.trans hn, h3⟩
    · rw [lookup_upsert]
      split
      · rfl
      next he =>
        refine h.window q (by lia) ?_
        by_contra h1
        exact he (hx q (by lia) hq)
    · rw [mem_foldl_putLV, ← mem_dlookup_iff (delta r).txids.nodupKeys] at hd
      rcases hd with ho | hw
      · obtain ⟨q, h1, hc⟩ := h.sound lv id ho
        exact ⟨q, h1.trans hn, hc⟩
      · exact ⟨r, hr, (hi id lv).mp hw⟩
    · rw [mem_foldl_putLV, ← mem_dlookup_iff (delta r).txids.nodupKeys]
      by_cases h1 : q ≤ n
      · exact .inl (h.complete q h1 id lv (by lia) hc)
      · obtain rfl := hx q (by lia) hq
        exact .inr ((hi id lv).mpr hc)

/-- Dropping what is too old for the committed round. -/
theorem Tracks.committedUpTo (h : Tracks env life txnsOf n t) (hn : rnd ≤ n) :
    Tracks env life txnsOf n (t.committedUpTo rnd).1 := by
  -- a round that is not among the recent ones is older than all that are needed
  have hl : ∀ r, r + ((t.recent.lookup rnd).map (·.proto.maxTxnLife)).getD 0 < rnd →
      r + life ≤ n := by
    intro r hr
    cases hm : t.recent.lookup rnd with
    | none =>
      by_contra ht
      have hk := h.window rnd (by lia) hn
      rw [hm] at hk
      cases hk
    | some m =>
      rw [hm] at hr
      have hq := (h.recent rnd m hm).2.1
      simp only [Option.map_some, Option.getD_some, hq] at hr
      lia
  refine ⟨max_le h.mark hn, fun r m hr => ?_, fun r ht hr => ?_, fun lv id hi => ?_,
    fun r hr id lv ht hc => ?_⟩
  · simp only [TxTail.committedUpTo, lookup_filterKeys] at hr
    split at hr
    · exact h.recent r m hr
    · cases hr
  · have he : ¬r + ((t.recent.lookup rnd).map (·.proto.maxTxnLife)).getD 0 < rnd := by
      intro ho
      have := hl r ho
      lia
    simp only [TxTail.committedUpTo, lookup_filterKeys]
    rw [if_pos (by simpa using he)]
    exact h.window r ht hr
  · simp only [TxTail.committedUpTo, Dict.getD, lookup_filterKeys] at hi
    split at hi
    · exact h.sound lv id hi
    · simp at hi
  · simp only [TxTail.committedUpTo]
    rw [getD_filterKeys]
    · exact h.complete r hr id lv ht hc
    · have : ¬lv < rnd := by lia
      simp [this]

variable (env) in
/-- The tail while `loadFromDisk` is at round `k`, after the rounds from `old` on. -/
structure Loading (life : ℕ) (txnsOf : Round → List Transaction) (n old k : Round) (t : TxTail) :
    Prop where
  mark : t.lowWaterMark = n
  recent : ∀ r m, t.recent.lookup r = some m → r < k ∧ m.proto.maxTxnLife = life ∧
    ∀ txl lv, m.txleases.lookup txl = some lv ↔ Leased (txnsOf r) txl lv
  window : ∀ r, old ≤ r → r < k → (t.recent.lookup r).isSome
  mem : ∀ lv id, id ∈ t.lastValid.getD lv ∅ ↔
    n < lv ∧ ∃ r, old ≤ r ∧ r < k ∧ Confirmed env (txnsOf r) id lv

theorem Loading.loadBlock (h : Loading env life txnsOf n old k t) (ho : old ≤ k)
    (h1 : ValidBlock env life k (blk k) (txnsOf k) (delta k))
    (hl : ∀ b, l.block k = .ok b → b = blk k) (hd : loadBlock env l t k = .ok t') :
    Loading env life txnsOf n old (k + 1) t' := by
  simp only [TxTail.loadBlock, bind_ok, pure_ok] at hd
  obtain ⟨b, hb, py, hp, rfl⟩ := hd
  obtain rfl := hl b hb
  obtain ⟨params, h2, hf, hs, -⟩ := h1.known
  have ht : env.protocol (blk k).currentProtocol = params := by
    rw [Environment.protocol, h2]
    rfl
  rw [ht, h1.decodes py hp, h.mark]
  -- the leases of a block are exclusive, so the map has all of them
  have h3 : ∀ txl lv,
      ((txnsOf k).foldl (loadTx env params n) (∅, t.lastValid)).1.lookup txl = some lv ↔
        Leased (txnsOf k) txl lv := by
    intro txl lv
    refine ⟨fun h4 => (lookup_foldl_loadTx h4).resolve_left (by simp), fun hh => ?_⟩
    have hm : (((txnsOf k).foldl (loadTx env params n) (∅, t.lastValid)).1.lookup txl).isSome :=
      isSome_foldl_loadTx hs (.inr hh)
    obtain ⟨_, hl'⟩ := Option.isSome_iff_exists.mp hm
    have hh' := (lookup_foldl_loadTx hl').resolve_left (by simp)
    rw [← h1.records.2] at hh hh'
    rw [hl', Option.some.inj (hh.symm.trans hh')]
  refine ⟨rfl, fun r m hr => ?_, fun r hr hk => ?_, fun lv id => ?_⟩
  · rw [lookup_upsert] at hr
    split at hr
    next he =>
      subst he
      obtain rfl := Option.some.inj hr
      exact ⟨lt_succ_self _, hf, h3⟩
    next hn =>
      obtain ⟨hlt, h5⟩ := h.recent r m hr
      exact ⟨lt_succ_of_lt hlt, h5⟩
  · rw [lookup_upsert]
    split
    · rfl
    next hn => exact h.window r hr (by lia)
  · rw [mem_foldl_loadTx, h.mem]
    constructor
    · rintro (⟨ha, r, hr, hk, hc⟩ | ⟨ha, hc⟩)
      · exact ⟨ha, r, hr, lt_succ_of_lt hk, hc⟩
      · exact ⟨ha, k, ho, lt_succ_self k, hc⟩
    · rintro ⟨ha, r, hr, hk, hc⟩
      rcases Nat.lt_succ_iff_lt_or_eq.mp hk with hlt | rfl
      · exact .inl ⟨ha, r, hr, hlt, hc⟩
      · exact .inr ⟨ha, hc⟩

theorem Loading.loadBlocks (h : Loading env life txnsOf n old k t) (ho : old ≤ k)
    (hb : ∀ r < k + len, ValidBlock env life r (blk r) (txnsOf r) (delta r))
    (hl : ∀ r b, l.block r = .ok b → b = blk r)
    (hd : (List.range' k len).foldlM (TxTail.loadBlock env l) t = .ok t') :
    Loading env life txnsOf n old (k + len) t' := by
  induction len generalizing k t with
  | zero =>
    obtain rfl := pure_ok.mp hd
    exact h
  | succ len ih =>
    rw [List.range'_succ, foldlM_cons, bind_ok] at hd
    obtain ⟨_, hf, hd⟩ := hd
    have h1 := h.loadBlock ho (hb k (by lia)) (hl k) hf
    rw [show k + (len + 1) = k + 1 + len by lia]
    exact ih h1 (by lia) (fun r hr => hb r (by lia)) hd

/-- The tail rebuilt from the blocks. -/
theorem Tracks.loadFromDisk
    (h2 : ∀ r ≤ l.latest, ValidBlock env life r (blk r) (txnsOf r) (delta r))
    (hl : ∀ r b, l.block r = .ok b → b = blk r) (h1 : loadFromDisk env l = .ok t) :
    Tracks env life txnsOf l.latest t := by
  simp only [TxTail.loadFromDisk, bind_ok] at h1
  obtain ⟨b, hb, h1⟩ := h1
  obtain rfl := hl _ b hb
  obtain ⟨_, hp, hf, -, -⟩ := (h2 l.latest le_rfl).known
  have h3 : (env.protocol (blk l.latest).currentProtocol).maxTxnLife = life := by
    rw [Environment.protocol, hp]
    exact hf
  rw [h3, subSaturate] at h1
  have hs : Loading env life txnsOf l.latest (l.latest + 1 - life) (l.latest + 1 - life)
      { lowWaterMark := l.latest } :=
    ⟨rfl, by simp, by lia, fun lv id => by simp [Dict.getD]; lia⟩
  have hd := hs.loadBlocks le_rfl (fun r hr => h2 r (by lia)) hl h1
  rw [show l.latest + 1 - life + (l.latest + 1 - (l.latest + 1 - life)) = l.latest + 1 by lia] at hd
  refine ⟨hd.mark.le, fun r m hr => ?_, fun r ha hr => ?_, fun lv id hi => ?_,
    fun r hr id lv ha hc => ?_⟩
  · obtain ⟨hlt, h4⟩ := hd.recent r m hr
    exact ⟨le_of_lt_succ hlt, h4⟩
  · exact hd.window r (by lia) (by lia)
  · obtain ⟨-, r, -, hr, hc⟩ := (hd.mem lv id).mp hi
    exact ⟨r, le_of_lt_succ hr, hc⟩
  · -- a transaction that is alive in the next round is not older than its lifetime
    obtain ⟨tx, ht, he, h5⟩ := hc
    obtain ⟨_, -, _⟩ := (h2 r hr).alive tx ht
    exact (hd.mem lv id).mpr ⟨ha, r, by lia, by lia, tx, ht, he, h5⟩

/-! ## Runs -/

variable (env) in
/-- The tail after loads, new and repeated blocks and commits, in any order. The first number is the
latest round. -/
inductive Run (blk : Round → Block) (delta : Round → Layer) (last : Round) : Round → TxTail → Prop
  | load {t : TxTail} (l : BlockSource) (hlast : l.latest ≤ last)
      (hl : ∀ r b, l.block r = .ok b → b = blk r) (hload : loadFromDisk env l = .ok t) :
      Run blk delta last l.latest t
  | newBlock {n : Round} {t : TxTail} (h : Run blk delta last n t) (hlast : n < last) :
      Run blk delta last (n + 1)
        (t.newBlock env (blk (n + 1)) (delta (n + 1)).txids (delta (n + 1)).txleases)
  | repeated {n r : Round} {t : TxTail} (h : Run blk delta last n t) (hr : r ≤ n) :
      Run blk delta last n (t.newBlock env (blk r) (delta r).txids (delta r).txleases)
  | committed {n rnd : Round} {t : TxTail} (h : Run blk delta last n t) (hrnd : rnd ≤ n) :
      Run blk delta last n (t.committedUpTo rnd).1

theorem Run.le_last (h : Run env blk delta last n t) : n ≤ last := by
  induction h with
  | load l hl => exact hl
  | newBlock _ hl => exact hl
  | repeated _ _ ih => exact ih
  | committed _ _ ih => exact ih

theorem Run.tracks (hc : ∀ r ≤ last, ValidBlock env life r (blk r) (txnsOf r) (delta r))
    (h : Run env blk delta last n t) : Tracks env life txnsOf n t := by
  induction h with
  | load l hs hl hd =>
    exact .loadFromDisk (fun r hr => hc r (hr.trans hs)) hl hd
  | @newBlock n _ h hs ih =>
    exact ih.newBlock (hc (n + 1) hs) le_rfl (le_succ n) (by lia)
  | @repeated _ r _ h hr ih =>
    exact ih.newBlock (hc r (hr.trans h.le_last)) hr le_rfl (by lia)
  | committed h hn ih => exact ih.committedUpTo hn

/-- An earlier transaction holds the lease in the round after `n`. -/
def LeaseHeld (txnsOf : Round → List Transaction) (n : Round) (txl : Txlease) : Prop :=
  ∃ r ≤ n, ∃ lv, Leased (txnsOf r) txl lv ∧ n + 1 ≤ lv

/-- The leases that `checkDup` finds are those that are held. -/
theorem Tracks.leaseHeld_iff (h : Tracks env life txnsOf n t)
    (ha : ∀ r ≤ n, ∀ tx ∈ txnsOf r, tx.firstValid ≤ r ∧ tx.lastValid ≤ tx.firstValid + life)
    (hf : proto.fixTransactionLeases = true) (hl : proto.maxTxnLife = life) {last : Round} :
    (∃ rnd ∈ checkedRounds proto (n + 1) first last, ∃ m ∈ t.recent.lookup rnd,
      ∃ expires ∈ m.txleases.lookup txl, n + 1 ≤ expires) ↔ LeaseHeld txnsOf n txl := by
  constructor
  · rintro ⟨r, -, m, hm, e, he, hlt⟩
    obtain ⟨hr, -, hs⟩ := h.recent r m hm
    exact ⟨r, hr, e, (hs txl e).mp he, hlt⟩
  · rintro ⟨r, hr, lv, hh, hlt⟩
    have ⟨tx, ht, _, _, hv⟩ := hh
    obtain ⟨_, _⟩ := ha r hr tx ht
    obtain ⟨m, hm⟩ := Option.isSome_iff_exists.mp (h.window r (by lia) hr)
    refine ⟨r, ?_, m, hm, lv, ((h.recent r m hm).2.2 txl lv).mpr hh, hlt⟩
    simp only [checkedRounds, hf, if_true, hl, subSaturate, mem_range'_1]
    lia

/-- `checkDup` of a transaction alive in the next round, after any run on a chain of valid blocks: a
lease conflict exactly if an earlier transaction holds its lease then; else a duplicate exactly if
its id is in an earlier block. -/
theorem checkDup_iff (hchain : ∀ r ≤ last, ValidBlock env life r (blk r) (txnsOf r) (delta r))
    (hrun : Run env blk delta last n t) {proto : ConsensusParams}
    (hfix : proto.fixTransactionLeases = true) (hlife : proto.maxTxnLife = life)
    {tx : Transaction} (halive : tx.firstValid ≤ n + 1 ∧ n + 1 ≤ tx.lastValid)
    (hlease : tx.lease ≠ 0 → proto.supportTransactionLeases = true)
    (hid : ∀ tx', env.txid tx' = env.txid tx → tx'.lastValid = tx.lastValid) :
    let checked := t.checkDup proto (n + 1) tx.firstValid tx.lastValid (env.txid tx) tx.txlease
    let held := tx.lease ≠ 0 ∧ LeaseHeld txnsOf n tx.txlease
    let present := ∃ r ≤ n, ∃ tx' ∈ txnsOf r, env.txid tx' = env.txid tx
    (checked = .error (.leaseInLedger (env.txid tx) tx.txlease) ↔ held) ∧
      (checked = .error (.transactionInLedger (env.txid tx)) ↔ present ∧ ¬held) ∧
      (checked = .ok () ↔ ¬present ∧ ¬held) := by
  intro checked held present
  have ht := hrun.tracks hchain
  have h2 : ¬tx.lastValid < t.lowWaterMark := by
    have := ht.mark
    lia
  have h1 : (proto.supportTransactionLeases = true ∧ tx.txlease.lease ≠ 0 ∧
      ∃ rnd ∈ checkedRounds proto (n + 1) tx.firstValid tx.lastValid, ∃ m ∈ t.recent.lookup rnd,
        ∃ expires ∈ m.txleases.lookup tx.txlease, n + 1 ≤ expires) ↔ held := by
    rw [ht.leaseHeld_iff (fun r hr tx hx => ?_) hfix hlife]
    · exact ⟨And.right, fun h1 => ⟨hlease h1.1, h1⟩⟩
    · obtain ⟨hf, -, hl⟩ := (hchain r (hr.trans hrun.le_last)).alive tx hx
      exact ⟨hf, hl⟩
  have h3 : env.txid tx ∈ t.lastValid.getD tx.lastValid ∅ ↔ present := by
    constructor
    · intro hm
      obtain ⟨r, hr, tx', ht', hi', -⟩ := ht.sound _ _ hm
      exact ⟨r, hr, tx', ht', hi'⟩
    · rintro ⟨r, hr, tx', ht', hi'⟩
      exact ht.complete r hr _ _ halive.2 ⟨tx', ht', hi', hid tx' hi'⟩
  by_cases hh : held
  · have hc : checked = .error (.leaseInLedger (env.txid tx) tx.txlease) := by
      show checkDup .. = _
      rw [checkDup, if_neg h2, if_pos (h1.mpr hh)]
      rfl
    simp [hc, hh]
  · by_cases hp : present
    · have hc : checked = .error (.transactionInLedger (env.txid tx)) := by
        show checkDup .. = _
        rw [checkDup, if_neg h2, if_neg (mt h1.mp hh), if_pos (h3.mpr hp)]
        rfl
      simp [hc, hh, hp]
    · have hc : checked = .ok () := by
        show checkDup .. = _
        rw [checkDup, if_neg h2, if_neg (mt h1.mp hh), if_neg (mt h3.mp hp)]
        rfl
      simp [hc, hh, hp]

end TxTail

namespace Sample

/-- Transactions are told apart by their last valid rounds. -/
def tailEnv : Environment Unit := { Sample.env with txid := fun tx => tx.lastValid }

/-- A payment with a lease that is alive in the rounds 1 to 10. -/
def leased : Transaction :=
  { type := .payment, sender := 1, firstValid := 1, lastValid := 10, lease := 5, genesisHash := 1 }

variable (r : Round)

/-- It is in the block of round 1. -/
def leasedTxns : List Transaction := if r = 1 then [leased] else []

def leasedBlock : Block :=
  { round := r, currentProtocol := 31, genesisHash := 1
    payset := if r = 1 then [{ signedTxn := { txn := { leased with genesisHash := 0 } } }] else [] }

def leasedDelta : Layer :=
  if r = 1 then
    { txids := (∅ : Dict Txid Round).upsert 10 10
      txleases := (∅ : Dict Txlease Round).upsert leased.txlease 10
      txnCount := 1 }
  else {}

theorem leased_valid (hr : r ≤ 1) :
    ValidBlock tailEnv 1000 r (leasedBlock r) (leasedTxns r) (leasedDelta r) := by
  rcases le_one_iff_eq_zero_or_eq_one.mp hr with rfl | rfl
  · exact
      { round := rfl
        decodes := fun py h => by
          obtain rfl := Except.ok.inj h
          rfl
        known := ⟨{}, rfl, rfl, by simp [leasedTxns], {}, rfl⟩
        alive := by simp [leasedTxns] }
  · exact
      { round := rfl
        decodes := fun py h => by
          obtain rfl := Except.ok.inj h
          rfl
        known := ⟨{}, rfl, rfl, by simp, {}, rfl⟩
        alive := by decide }

/-- The tail of a ledger that was loaded in round 0 and got block 1. -/
def leasedTail : TxTail :=
  newBlock tailEnv (leasedBlock 1) (leasedDelta 1).txids (leasedDelta 1).txleases
    { recent := (∅ : Dict Round RoundTxMembers).upsert 0 { proto := {} } }

theorem leasedTail_run : Run tailEnv leasedBlock leasedDelta 1 1 leasedTail :=
  .newBlock (.load ⟨0, fun r => .ok (leasedBlock r)⟩ (zero_le 1)
    (fun _ _ h => (Except.ok.inj h).symm) rfl) (lt_succ_self 0)

/-- Another payment under the lease, offered in round 2. -/
def leasedAgain : Transaction :=
  { leased with firstValid := 2, lastValid := 20 }

theorem leasedAgain_alive : leasedAgain.firstValid ≤ 1 + 1 ∧ 1 + 1 ≤ leasedAgain.lastValid := by
  decide

end Sample

open Sample

/-- A second payment under the lease is turned away for the lease. -/
theorem checkDup_iff_leased :
    leasedTail.checkDup {} 2 2 20 20 leased.txlease =
      .error (.leaseInLedger 20 leased.txlease) :=
  (checkDup_iff leased_valid leasedTail_run rfl rfl
    leasedAgain_alive (by decide) (fun _ h => h)).1.mpr
    ⟨by decide, 1, le_rfl, 10, ⟨leased, by decide, by decide, rfl, rfl⟩, by decide⟩

/-- The payment itself is in block 1 and alive in round 2, and yet it is not reported as a
duplicate: it holds its own lease, which is checked first. -/
theorem leased_duplicate :
    leased ∈ leasedTxns 1 ∧ 2 ≤ leased.lastValid ∧
      leasedTail.checkDup {} 2 1 10 (tailEnv.txid leased)
          leased.txlease ≠
        .error (.transactionInLedger (tailEnv.txid leased)) := by decide +kernel

end Novarand.Ledger
