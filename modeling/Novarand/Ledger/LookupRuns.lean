import Novarand.Ledger.Lookups

/-!
# Runs of lookups, blocks and commits

What each step does to the invariant, and the answers along a run.
-/

namespace Novarand.Ledger

open Deltas List AccountUpdates PersistedAccountData Nat TrackedBlock

variable {consensus : ConsensusVersion → ConsensusParams} {typeOf : CreatableIndex → CreatableType}
  {chain : DeltaChain} {db db' : AccountsDb} {au au' : AccountUpdates} {query : Query}

/-! ### Rounds that are as good -/

theorem Follows.trans {r rnd rnd' : ℕ} (h : Follows chain query r rnd)
    (h' : Follows chain query rnd rnd') : Follows chain query r rnd' := by
  rcases h with rfl | ⟨ad, sy, rfl, hf, he, hl, hu⟩
  · exact h'
  · rcases h' with rfl | ⟨_, _, hq, _, he', hl', hu'⟩
    · exact .inr ⟨ad, sy, rfl, hf, he, hl, hu⟩
    · cases hq
      exact .inr ⟨ad, sy, rfl, hf, he.trans he', hl', hu.trans hu'⟩

theorem Follows.right {r rnd : ℕ} {a : Answer} (h : Follows chain query r rnd)
    (hr : Right consensus chain query rnd a) : Right consensus chain query r a := by
  rcases h with rfl | ⟨_, _, rfl, hf, hl, _, hu⟩
  · exact hr
  · obtain ⟨_, hl', hr⟩ := hr
    refine ⟨hf, hl.trans hl', ?_⟩
    cases a with
    | account _ _ =>
      obtain ⟨hd, he', ht, hu'⟩ := hr
      exact ⟨hd.trans (hu.account hf hl), hl.trans he', ht, hu.trans hu'⟩
    | creator creator => exact hr

/-! ### Another block -/

variable {data e acct : PersistedAccountData} {fetched : Fetched} {dcc dcc' : DeferredCommit}
  {chain' : DeltaChain} {a : Address} {seen : Seen} {failed fails : Bool}

section Push

variable (blk : TrackedBlock) {cached currentDbRound k r rnd base : ℕ}

theorem Follows.push (h : Follows chain query r rnd) : Follows (chain.push blk) query r rnd := by
  rcases h with rfl | ⟨ad, sy, rfl, hf, he, hl, hu⟩
  · exact .inl rfl
  · have hl' := chain.push_last blk
    exact .inr ⟨ad, sy, rfl, hf, he, by omega, (chain.push_unchanged blk hl).mpr hu⟩

theorem Seen.Ok.push (h : seen.Ok query chain cached) : seen.Ok query (chain.push blk) cached := by
  have hl := chain.push_last blk
  have he := h.last
  have hr := chain.push_stateAt blk he
  have hd := chain.push_stateAt blk (h.le.trans he)
  refine ⟨h.first, h.cached, h.le, by omega, ?_⟩
  have ha := h.answers
  cases query with
  | withRewards ad =>
    obtain ⟨hu, _, _⟩ := ha
    exact ⟨(chain.push_unchanged blk he).mpr hu, by rwa [hr], by rwa [hr]⟩
  | withoutRewards ad sy => exact (chain.push_unchanged blk he).mpr ha
  | creator cd ct sy =>
    rwa [hr, hd]

theorem PersistedAccountData.Valid.push (hd : db.round ≤ chain.last) (h : e.Valid chain db) :
    e.Valid (chain.push blk) db := by
  refine ⟨h.first, h.le, ?_, fun hu => h.rowid ((chain.push_unchanged blk hd).mp hu)⟩
  rw [chain.push_stateAt blk (h.le.trans hd)]
  exact h.data

theorem PersistedAccountData.ReadOk.mono (h : data.ReadOk failed a chain db currentDbRound)
    (hv : ∀ e : PersistedAccountData, e.Valid chain db → e.Valid chain' db') :
    data.ReadOk failed a chain' db' currentDbRound := by
  cases failed with
  | true => exact h
  | false =>
    obtain ⟨ha, hd⟩ := h
    exact ⟨ha, hv data hd⟩

theorem Fetched.Ok.mono (h : fetched.Ok query chain db currentDbRound)
    (hv : ∀ e : PersistedAccountData, e.Valid chain db → e.Valid chain' db')
    (hs : ∀ rnd ≤ chain.last, rnd ≤ chain'.last ∧ chain'.stateAt rnd = chain.stateAt rnd) :
    fetched.Ok query chain' db' currentDbRound := by
  cases query <;> cases fetched
  case withRewards.account | withoutRewards.account =>
    exact ReadOk.mono h hv
  case creator.creator =>
    intro hf
    obtain ⟨hl, _⟩ := h hf
    obtain ⟨hl', he⟩ := hs _ hl
    exact ⟨hl', by rwa [he]⟩
  all_goals exact h

theorem Call.Ok.push {c : Call} (hd : db.round ≤ chain.last) (h : c.Ok chain db cached) :
    c.Ok (chain.push blk) db cached := by
  obtain ⟨_, rnd, ph⟩ := c
  cases ph with
  | enter | waiting => exact Follows.push blk h
  | reading => exact ⟨h.1.push blk, h.2.push blk⟩
  | fetched =>
    refine ⟨h.1.push blk, h.2.1.push blk, h.2.2.mono (fun e he => he.push blk hd) fun rnd hle => ?_⟩
    have hl := chain.push_last blk
    exact ⟨by omega, chain.push_stateAt blk hle⟩

theorem AccountsDb.At.push (h : db.At typeOf chain) : db.At typeOf (chain.push blk) := by
  have hl := chain.push_last blk
  have he := h.last
  refine ⟨h.first, by omega, ?_⟩
  rw [chain.push_stateAt blk he]
  exact h.holds

theorem DeltaChain.push_drop (hk : k ≤ chain.blocks.length) :
    (chain.push blk).blocks.drop k = chain.blocks.drop k ++ [blk] :=
  drop_append_of_le_length hk

theorem DeferredCommit.Within.push {blocks : List TrackedBlock} (h : dcc.Within base blocks) :
    dcc.Within base (blocks ++ [blk]) := by
  have ht : (blocks ++ [blk]).take dcc.offset = blocks.take dcc.offset :=
    take_append_of_le_length h.le
  refine ⟨h.pos, ?_, h.newBase, ?_, ?_⟩
  · rw [length_append]
    exact h.le.trans (le_add_right _ _)
  · rw [ht]
    exact h.accounts
  · rw [ht]
    exact h.creatables

theorem CommitPhase.Ok.push {phase : CommitPhase} (hk : k ≤ chain.blocks.length)
    (hd : db.round ≤ chain.last) (h : phase.Ok base k chain db) :
    phase.Ok base k (chain.push blk) db := by
  cases phase with
  | idle => exact h
  | prepared dcc =>
    obtain ⟨hn, hw, h1⟩ := h
    refine ⟨hn, ?_, h1⟩
    rw [chain.push_drop blk hk]
    exact hw.push blk
  | committed dcc =>
    obtain ⟨hn, hw, hu, h2⟩ := h
    refine ⟨hn, ?_, fun ac ha => ?_, fun ad h3 => h2 ad fun hu' => h3 ?_⟩
    · rw [chain.push_drop blk hk]
      exact hw.push blk
    · obtain ⟨hr, hv⟩ := hu ac ha
      exact ⟨hr, hv.push blk hd⟩
    · rw [hn] at hd
      exact (chain.push_unchanged blk hd).mpr hu'

/-- A new block adds its deltas, and moves what is pending into the cache. -/
theorem AccountUpdates.newBlockImpl_ok (h : au.newBlockImpl rnd blk = .ok au')
    (hr : ¬rnd ≤ au.latest) :
    au' = { au with
      deltas := au.deltas ++ [blk.accts]
      versions := au.versions ++ [blk.currentProtocol]
      creatableDeltas := au.creatableDeltas ++ [blk.creatables]
      pendingAccounts := []
      accounts := track au.accounts blk.accts
      creatables := track au.creatables blk.creatables
      roundTotals := au.roundTotals ++ [blk.totals]
      baseAccounts := Lru.prune ((track au.accounts blk.accts).keys.length + 1 +
          baseAccountsPendingAccountsBufferSize)
        (Lru.flush addr round au.baseAccounts
          au.pendingAccounts) } := by
  rw [newBlockImpl, if_neg hr] at h
  simp only [bind_ok, failIf_ok, pure_ok] at h
  obtain ⟨-, -, rfl⟩ := h
  rfl

theorem AccountUpdates.Over.newBlock (h : au.Over chain k) (ho : au.newBlockImpl rnd blk = .ok au')
    (hr : ¬rnd ≤ au.latest) : au'.Over (chain.push blk) k := by
  obtain rfl := newBlockImpl_ok blk ho hr
  have hd := chain.push_drop blk h.le
  have hs := chain.push_state blk h.le
  refine ⟨h.base, ?_, ?_, ?_, ?_, ?_, h.accounts.track _, h.creatables.track _⟩
  · show k ≤ (chain.blocks ++ [blk]).length
    rw [length_append]
    exact h.le.trans (le_add_right _ _)
  · rw [hd, map_append, h.deltas]
    rfl
  · rw [hd, map_append, h.creatableDeltas]
    rfl
  · rw [hd, hs, map_append, h.versions]
    rfl
  · rw [hd, hs, map_append, h.roundTotals]
    rfl

end Push

/-! ### A commit -/

theorem PersistedAccountData.Valid.commit (h : e.Valid chain db) (hl : db.round ≤ db'.round)
    (hr : ∀ addr, chain.Unchanged addr db.round db'.round → db'.rowidOf addr = db.rowidOf addr) :
    e.Valid chain db' := by
  refine ⟨h.first, h.le.trans hl, h.data, fun hu => ?_⟩
  rw [hr e.addr (hu.mono h.le (le_rfl))]
  exact h.rowid (hu.mono (le_rfl) hl)

variable {cached rnd offset : ℕ} {events : List Event}

theorem Seen.Ok.mono {cached' : ℕ} (h : seen.Ok query chain cached) (hl : cached ≤ cached') :
    seen.Ok query chain cached' :=
  ⟨h.first, h.cached.trans hl, h.le, h.last, h.answers⟩

theorem Call.Ok.mono {c : Call} {cached' : ℕ} (h : c.Ok chain db cached)
    (hv : ∀ e : PersistedAccountData, e.Valid chain db → e.Valid chain db')
    (hl : cached ≤ cached') : c.Ok chain db' cached' := by
  obtain ⟨_, _, ph⟩ := c
  cases ph with
  | enter | waiting => exact h
  | reading => exact ⟨h.1, h.2.mono hl⟩
  | fetched => exact ⟨h.1, h.2.1.mono hl, h.2.2.mono hv fun _ hl => ⟨hl, rfl⟩⟩

/-- `postCommit` does not panic, and leaves the memory over the blocks that were committed. -/
theorem AccountUpdates.Over.postCommit {k : ℕ} (h : au.Over chain k)
    (hw : dcc.Within au.cachedDBRound (chain.blocks.drop k)) :
    ∃ au', au.postCommit dcc = .ok au' ∧ au'.Over chain (k + dcc.offset) ∧
      au'.cachedDBRound = dcc.newBase ∧ au'.pendingAccounts = au.pendingAccounts ∧
      au'.baseAccounts = Lru.flush addr round
        au.baseAccounts dcc.updatedPersistedAccounts := by
  have hl := hw.le
  -- the counts that the commit releases are those of its blocks
  obtain ⟨_, hm⟩ := hw.accounts
  have ha : CountsOf (dcc.compactAccountDeltas.map fun u => (u.1, u.2.ndeltas))
      (((chain.blocks.drop k).take dcc.offset).map accts) := by
    rw [hm, makeCompactAccountDeltas, map_map]
    exact countsOf_compact _
  have h1 := hw.creatables ▸ countsOf_compact
    (((chain.blocks.drop k).take dcc.offset).map TrackedBlock.creatables)
  have hs : ∀ {V : Type} (f : TrackedBlock → V), (chain.blocks.drop k).map f =
      ((chain.blocks.drop k).take dcc.offset).map f ++ (chain.blocks.drop (k + dcc.offset)).map f := by
    intro V f
    rw [← map_append, ← drop_drop, take_append_drop]
  have hr : ∀ {V : Type} (f : TrackedBlock → V), ((chain.blocks.drop k).map f).drop dcc.offset =
      (chain.blocks.drop (k + dcc.offset)).map f := by
    intro V f
    rw [← map_drop, drop_drop]
  have ht := h.accounts
  rw [h.deltas, hs] at ht
  obtain ⟨accounts, h2, h3⟩ := ht.release ha
  have ht' := h.creatables
  rw [h.creatableDeltas, hs] at ht'
  obtain ⟨creatables, hr', hc'⟩ := ht'.release h1
  refine ⟨{ au with
    accounts
    creatables
    baseAccounts := Lru.flush addr round au.baseAccounts dcc.updatedPersistedAccounts
    deltas := au.deltas.drop dcc.offset
    versions := au.versions.drop dcc.offset
    roundTotals := au.roundTotals.drop dcc.offset
    creatableDeltas := au.creatableDeltas.drop dcc.offset
    cachedDBRound := dcc.newBase }, ?_, ?_, rfl, rfl, rfl⟩
  · rw [AccountUpdates.postCommit, h2, hr']
    rfl
  · have hb := h.base
    have hn := hw.newBase
    have hd : au.deltas.drop dcc.offset =
        (chain.blocks.drop (k + dcc.offset)).map accts := by rw [h.deltas, hr]
    have hc : au.creatableDeltas.drop dcc.offset =
        (chain.blocks.drop (k + dcc.offset)).map TrackedBlock.creatables := by
      rw [h.creatableDeltas, hr]
    refine ⟨by show dcc.newBase = _; omega, ?_, hd, hc, ?_, ?_, ?_, ?_⟩
    · have := h.le
      rw [length_drop] at hl
      omega
    · rw [h.versions]
      exact DeltaChain.drop_history (fun _ _ => rfl) hl
    · rw [h.roundTotals]
      exact DeltaChain.drop_history (fun _ _ => rfl) hl
    · rw [hd]
      exact h3
    · rw [hc]
      exact hc'

/-! ### The steps of the tracker -/

namespace System

variable {s : System}

/-- The entries that the cache has are those of the round of the memory. -/
theorem Inv.cacheRight (h : s.Inv typeOf) : s.au.CacheRight s.chain := by
  intro _ e hr
  obtain ⟨hm, ha⟩ := Lru.mem_of_read hr
  obtain ⟨hv, hl, hu⟩ := h.cache e hm
  rw [hv.data, ← ha, hu.account hv.first hl]

theorem Inv.newBlock (h : s.Inv typeOf) {blk : TrackedBlock} (ht : blk.Typed typeOf)
    (hk : s.au.newBlockImpl rnd blk = .ok au) (hr : ¬rnd ≤ s.au.latest) (hf : s.FlushesFresh) :
    Inv typeOf { s with au, chain := s.chain.push blk } := by
  obtain ⟨k, h1, h2⟩ := h.memory
  have ho' := h1.newBlock blk hk hr
  have hd := h.db.last
  have h3 : s.au.cachedDBRound ≤ s.chain.last := by
    have := h1.latest
    rw [latest] at this
    omega
  obtain rfl := newBlockImpl_ok blk hk hr
  refine ⟨⟨k, ho', h2.push blk h1.le hd⟩, h.db.push blk, ?_, ?_, ?_, ?_⟩
  · exact forall_mem_append.mpr ⟨h.typed, forall_mem_singleton.mpr ht⟩
  · intro e he
    -- an entry that replaces one of the cache is as fresh as the one it replaces
    suffices hm : e.Valid s.chain s.db ∧ e.round ≤ s.au.cachedDBRound ∧
        s.chain.Unchanged e.addr e.round s.au.cachedDBRound from
      ⟨hm.1.push blk hd, hm.2.1, (s.chain.push_unchanged blk h3).mpr hm.2.2⟩
    rcases Lru.mem_flush (Lru.mem_prune he) with ⟨he, -⟩ | ⟨he, hn | ⟨old, ho, ha, hlt⟩⟩
    · exact h.cache e he
    · obtain ⟨hv, hl⟩ := h.pending e he
      exact ⟨hv, hl, hf e he hn⟩
    · obtain ⟨hv, hl⟩ := h.pending e he
      obtain ⟨-, -, hu⟩ := h.cache old ho
      rw [ha] at hu
      exact ⟨hv, hl, hu.mono hlt.le (le_rfl)⟩
  · exact forall_mem_nil _
  · exact fun c hc => (h.calls c hc).push blk hd

variable {dcc : DeferredCommit}

theorem Inv.prepareCommit (h : s.Inv typeOf) (hi : s.commit = .idle)
    (hk : s.au.prepareCommit offset = .ok dcc) : Inv typeOf { s with commit := .prepared dcc } := by
  obtain ⟨k, h1, hc⟩ := h.memory
  rw [hi] at hc
  simp only [AccountUpdates.prepareCommit, bind_ok, failIf_ok, pure_ok, not_or, not_lt] at hk
  obtain ⟨-, ⟨hp, hl⟩, -, -, rfl⟩ := hk
  refine ⟨⟨k, h1, hc, ⟨pos_of_ne_zero hp, ?_, rfl, ?_, ?_⟩, ?_⟩, h.db, h.typed,
    h.cache, h.pending, h.calls⟩
  · rwa [h1.deltas, length_map] at hl
  · refine ⟨s.au.baseAccounts, ?_⟩
    rw [h1.deltas, ← map_take]
  · rw [h1.creatableDeltas, ← map_take]
  · intro u hu old ho
    obtain ⟨-, -, hr⟩ := mem_makeCompactAccountDeltas hu
    obtain ⟨hm, ha⟩ := Lru.mem_of_read (hr.symm.trans ho)
    obtain ⟨hv, -, _⟩ := h.cache old hm
    rw [← ha]
    refine hv.rowid ?_
    rwa [hc]

theorem Inv.abort (h : s.Inv typeOf) (hp : s.commit = .prepared dcc) :
    Inv typeOf { s with commit := .idle } := by
  obtain ⟨k, ho, hc⟩ := h.memory
  rw [hp] at hc
  exact ⟨⟨k, ho, hc.1⟩, h.db, h.typed, h.cache, h.pending, h.calls⟩

theorem Inv.commitRound (h : s.Inv typeOf) (hp : s.commit = .prepared dcc)
    (hk : commitRound s.db dcc = .ok (db, dcc')) :
    Inv typeOf { s with db, commit := .committed dcc' } := by
  obtain ⟨k, ho, h1⟩ := h.memory
  rw [hp] at h1
  obtain ⟨h2, hw, h4⟩ := h1
  have h6 := ho.base
  have hn := hw.newBase
  have hl := hw.le
  have hh := h.db.holds
  rw [h2, ho.stateAt_base] at hh
  have hm := commitRound_ok hh
    (show dcc.Of s.db ((s.chain.blocks.drop k).take dcc.offset) from
      ⟨hw.accounts, hw.creatables, h4⟩)
    (fun blk hb => h.typed blk (mem_of_mem_drop (mem_of_mem_take hb))) hk
  have h3 : ∀ ad, s.chain.Unchanged ad s.au.cachedDBRound dcc.newBase ↔
      lastOf (((s.chain.blocks.drop k).take dcc.offset).map accts) ad = none := by
    intro ad
    rw [hn, ho.unchanged_iff, ho.deltas, map_take]
  have ht : db.At typeOf s.chain := by
    refine ⟨?_, ?_, ?_⟩
    · rw [hm.round]
      omega
    · have := ho.le
      rw [hm.round, DeltaChain.last]
      rw [length_drop] at hl
      omega
    · rw [hm.round, hn, ho.stateAt, DeltaChain.state_add]
      exact hm.holds
  have hv : ∀ e : PersistedAccountData, e.Valid s.chain s.db → e.Valid s.chain db := by
    intro e he
    refine he.commit (by rw [hm.round]; omega) fun ad ha => ?_
    rw [h2, hm.round] at ha
    exact hm.other ad ((h3 ad).mp ha)
  have hs := hm.same
  refine ⟨⟨k, ho, ?_, ?_, ?_, ?_⟩, ht, h.typed, fun e he => ?_, fun e he => ?_,
    fun c hc => (h.calls c hc).mono hv (le_rfl)⟩
  · rw [hs]
    exact hm.round
  · rw [hs]
    exact ⟨hw.pos, hw.le, hw.newBase, hw.accounts, hw.creatables⟩
  · intro ac h5
    obtain ⟨hr, hd, hi, -⟩ := hm.updated ac h5
    have hr' : ac.round = db.round := hr.trans hm.round.symm
    refine ⟨by rw [hs]; exact hr, ?_⟩
    refine ⟨by rw [hr']; exact ht.first, hr'.le, ?_, fun _ => hi⟩
    rw [hd, hr', ht.holds.account]
  · intro ad ha
    rw [hs] at ha
    exact hm.written ad (mt (h3 ad).mpr ha)
  · obtain ⟨he', hle, hu⟩ := h.cache e he
    exact ⟨hv e he', hle, hu⟩
  · obtain ⟨he', hle⟩ := h.pending e he
    exact ⟨hv e he', hle⟩

theorem Inv.postCommit_ok (h : s.Inv typeOf) (ho : s.commit = .committed dcc) :
    ∃ au, s.au.postCommit dcc = .ok au ∧ Inv typeOf { s with au, commit := .idle } := by
  obtain ⟨k, h2, hm⟩ := h.memory
  rw [ho] at hm
  obtain ⟨h3, hw, hu, h4⟩ := hm
  have hp := hw.pos
  have hn := hw.newBase
  obtain ⟨au, hk, ho', h1, h5, hb⟩ := h2.postCommit hw
  have hl : s.au.cachedDBRound ≤ au.cachedDBRound := by omega
  refine ⟨au, hk, ⟨k + dcc.offset, ho', h3.trans h1.symm⟩, h.db, h.typed, ?_, ?_,
    fun c hc => (h.calls c hc).mono (fun _ he => he) hl⟩
  · intro e he
    rw [hb] at he
    rcases Lru.mem_flush he with ⟨he, ht⟩ | ⟨he, -⟩
    · obtain ⟨hv, hr', h6⟩ := h.cache e he
      refine ⟨hv, hr'.trans hl, h6.trans ?_⟩
      rw [h1]
      -- a changed account would have been written with the later round
      refine not_not.mp fun hh => ?_
      obtain ⟨ac, ha, hd⟩ := h4 e.addr hh
      have := ht ac ha hd
      rw [(hu ac ha).1] at this
      omega
    · obtain ⟨hr, hv⟩ := hu e he
      rw [h1, hr]
      exact ⟨hv, le_rfl, s.chain.unchanged_refl _ _⟩
  · intro e he
    rw [h5] at he
    obtain ⟨hv, hr'⟩ := h.pending e he
    exact ⟨hv, hr'.trans hl⟩

end System

/-! ### The steps of a call -/

/-- What a call has after its next step. -/
def Call.ProgressOk (consensus : ConsensusVersion → ConsensusParams) (c : Call) (chain : DeltaChain)
    (db : AccountsDb) (cachedDBRound : ℕ) : Progress → Prop
  | .running phase => Ok { c with phase } chain db cachedDBRound
  | .returned a => Right consensus chain c.query c.rnd a
  | .failed _ => True

/-- The tracker with more entries in the channel, all valid. -/
def AccountUpdates.Pended (au au' : AccountUpdates) (chain : DeltaChain) (db : AccountsDb) : Prop :=
  ∃ extra, au' = { au with pendingAccounts := au.pendingAccounts ++ extra } ∧
    ∀ e ∈ extra, e.Valid chain db ∧ e.round ≤ au.cachedDBRound

theorem AccountUpdates.pended_refl (au : AccountUpdates) (chain : DeltaChain) (db : AccountsDb) :
    au.Pended au chain db := by
  refine ⟨[], ?_, nofun⟩
  rw [append_nil]

theorem AccountUpdates.pended_writePending (hv : acct.Valid chain db)
    (hl : acct.round ≤ au.cachedDBRound) : au.Pended (au.writePending acct) chain db := by
  rw [writePending]
  split
  · exact ⟨[acct], rfl, forall_mem_singleton.mpr ⟨hv, hl⟩⟩
  · exact au.pended_refl chain db

namespace System

variable {s : System} {c : Call}

theorem Inv.iterate (consensus : ConsensusVersion → ConsensusParams) (h : s.Inv typeOf)
    (hf : Follows s.chain c.query c.rnd rnd) :
    s.au.Pended (Call.iterate consensus s.au rnd c.query).1 s.chain s.db ∧
      c.ProgressOk consensus s.chain s.db s.au.cachedDBRound
        (Call.iterate consensus s.au rnd c.query).2 := by
  obtain ⟨k, ho, -⟩ := h.memory
  rw [Call.iterate]
  cases ht : s.au.turn consensus rnd c.query with
  | error e => exact ⟨s.au.pended_refl _ _, trivial⟩
  | ok t =>
    have hk := turn_ok ho h.cacheRight ht
    cases t with
    | answer a pr =>
      obtain ⟨hr, hp⟩ := hk
      cases pr with
      | none => exact ⟨s.au.pended_refl _ _, hf.right hr⟩
      | some e =>
        obtain ⟨hv, hl, -⟩ := h.cache e (hp e rfl)
        exact ⟨pended_writePending hv hl, hf.right hr⟩
    | database _ =>
      obtain ⟨hf', hs⟩ := hk
      exact ⟨s.au.pended_refl _ _, hf.trans hf', hs⟩

end System

/-- A read that failed is not taken for one of the round that was seen. -/
theorem PersistedAccountData.ReadOk.of_round {r : ℕ} (h : data.ReadOk failed a chain db r)
    (hr : data.round = r) : failed = false ∧ data.addr = a ∧ data.Valid chain db := by
  cases failed with
  | true =>
    obtain ⟨rfl, hn⟩ := h
    exact absurd hr.symm hn
  | false => exact ⟨rfl, h⟩

theorem Call.conclude_ok {a : Answer} (hs : seen.Ok query chain cached)
    (hd : fetched.Ok query chain db seen.currentDbRound) (hr : fetched.round = seen.currentDbRound)
    (ho : conclude consensus seen query fetched = .ok a) :
    Right consensus chain query seen.rnd a := by
  have hf := hs.first.trans hs.le
  have ha := hs.answers
  cases query <;> cases fetched
  case withRewards.account addr data failed =>
    obtain ⟨-, h1, hv⟩ := ReadOk.of_round hd hr
    obtain ⟨hu, hp, hl⟩ := ha
    simp only [conclude, addRewards, bind_ok, orThrow_ok, pure_ok] at ho
    obtain ⟨-, -, dt', hw, rfl⟩ := ho
    refine ⟨hf, hs.last, ?_⟩
    show AccountData.withUpdatedRewards _ _ _ = some dt'
    replace hr : data.round = seen.currentDbRound := hr
    rw [hu.account hs.first hs.le, ← hr, ← h1, ← hv.data, ← hp, ← hl]
    exact hw
  case withoutRewards.account addr synchronized data failed =>
    obtain ⟨-, h1, hv⟩ := ReadOk.of_round hd hr
    simp only [conclude, bind_ok, pure_ok] at ho
    obtain ⟨-, -, rfl⟩ := ho
    refine ⟨hf, hs.last, ?_, le_rfl, hs.last, chain.unchanged_refl _ _⟩
    replace hr : data.round = seen.currentDbRound := hr
    rw [ha.account hs.first hs.le, ← hr, ← h1, ← hv.data]
  case creator.creator cidx ctype synchronized found rnd failed =>
    simp only [conclude, bind_ok, failIf_ok, pure_ok, Bool.not_eq_true] at ho
    obtain ⟨-, h2, rfl⟩ := ho
    refine ⟨hf, hs.last, ?_⟩
    replace hr : rnd = seen.currentDbRound := hr
    rw [(hd h2).2, hr]
    exact ha.symm
  all_goals exact hd.elim

namespace System

variable {s : System} {c : Call}

theorem judge_ok (consensus : ConsensusVersion → ConsensusParams)
    (hf : Follows s.chain c.query c.rnd seen.rnd) (hs : seen.Ok c.query s.chain s.au.cachedDBRound)
    (hd : fetched.Ok c.query s.chain s.db seen.currentDbRound) :
    s.au.Pended (Call.judge consensus s.au c.query seen fetched).1 s.chain s.db ∧
      c.ProgressOk consensus s.chain s.db s.au.cachedDBRound
        (Call.judge consensus s.au c.query seen fetched).2 := by
  unfold Call.judge
  split
  · rename_i hr
    have hp : s.au.Pended (s.au.writeFetched fetched) s.chain s.db := by
      cases fetched with
      | account dt fl =>
        have h1 : dt.Valid s.chain s.db := by
          cases hq : c.query <;> rw [hq] at hd
          case withRewards | withoutRewards => exact (ReadOk.of_round hd hr).2.2
          case creator => exact hd.elim
        exact pended_writePending h1 (hr.le.trans hs.cached)
      | creator _ rnd fl => exact s.au.pended_refl _ _
    cases hc : Call.conclude consensus seen c.query fetched with
    | ok a =>
      exact ⟨hp, hf.right (Call.conclude_ok hs hd hr hc)⟩
    | error e => exact ⟨hp, trivial⟩
  · split
    · exact ⟨s.au.pended_refl _ _, trivial⟩
    · split
      · exact ⟨s.au.pended_refl _ _, trivial⟩
      · exact ⟨s.au.pended_refl _ _, hf⟩

/-- The next step of a call in memory. -/
theorem Inv.advance (h : s.Inv typeOf) {p : Progress} (ho : c.Ok s.chain s.db s.au.cachedDBRound)
    (ha : c.advance consensus s.au = some (au, p)) :
    s.au.Pended au s.chain s.db ∧ c.ProgressOk consensus s.chain s.db s.au.cachedDBRound p := by
  obtain ⟨_, _, ph⟩ := c
  cases ph with
  | enter =>
    have hs := iterate consensus h ho
    rwa [Option.some.inj ha] at hs
  | reading => cases ha
  | fetched =>
    have hs := judge_ok consensus ho.1 ho.2.1 ho.2.2
    rwa [Option.some.inj ha] at hs
  | waiting =>
    simp only [Call.advance] at ha
    split at ha
    · cases ha
    · have hs := iterate consensus h ho
      rwa [Option.some.inj ha] at hs

/-- A step of a call changes the calls and the channel only. -/
theorem Inv.pended (h : s.Inv typeOf) {calls : List Call} (hp : s.au.Pended au s.chain s.db)
    (hc : ∀ c ∈ calls, c.Ok s.chain s.db s.au.cachedDBRound) : Inv typeOf { s with au, calls } := by
  obtain ⟨_, rfl, he⟩ := hp
  obtain ⟨k, ho, hm⟩ := h.memory
  exact ⟨⟨k, ⟨ho.base, ho.le, ho.deltas, ho.creatableDeltas, ho.versions,
    ho.roundTotals, ho.accounts, ho.creatables⟩, hm⟩, h.db, h.typed, h.cache,
    forall_mem_append.mpr ⟨h.pending, he⟩, hc⟩

theorem Inv.fetch (h : s.Inv typeOf) {currentDbRound : ℕ}
    (hf : fails = true → query.readsAccount = true → currentDbRound ≠ 0) :
    (query.fetch s.db fails).Ok query s.chain s.db currentDbRound := by
  have hv : ∀ addr, (s.db.lookup addr).addr = addr ∧ (s.db.lookup addr).Valid s.chain s.db := by
    intro addr
    rw [s.db.lookup_eq]
    exact ⟨rfl, h.db.first, le_rfl, h.db.holds.account addr, fun _ => rfl⟩
  cases fails with
  | true =>
    cases query with
    | withRewards | withoutRewards => exact ⟨rfl, hf rfl rfl⟩
    | creator cd ct sy => exact nofun
  | false =>
    cases query with
    | withRewards addr | withoutRewards addr => exact hv addr
    | creator cd ct sy =>
      exact fun _ => ⟨h.db.last, h.db.holds.creator cd ct⟩

theorem Initial.inv (h : s.Initial typeOf) : s.Inv typeOf := by
  have hs : s.chain.state 0 = s.chain.origin := rfl
  have hl : s.chain.last = s.chain.first := by rw [DeltaChain.last, h.blocks]; rfl
  refine ⟨⟨0, ?_, ?_⟩, ⟨h.round.ge, by rw [h.round, hl], ?_⟩, ?_, ?_, ?_, ?_⟩
  · rw [h.au]
    constructor <;> simp only [h.blocks, drop_nil, map_nil, length_nil, hs] <;>
      first | rfl | exact tracks_empty
  · rw [h.commit, h.au]
    exact h.round
  · rw [h.round, DeltaChain.stateAt, Nat.sub_self]
    exact h.holds
  · rw [h.blocks]
    exact forall_mem_nil _
  · rw [h.au]
    exact forall_mem_nil _
  · rw [h.au]
    exact forall_mem_nil _
  · rw [h.calls]
    exact forall_mem_nil _

end System

/-! ### Runs -/

/-- Every answer among the events is right, and there is no panic. -/
def EventsOk (consensus : ConsensusVersion → ConsensusParams) (chain : DeltaChain)
    (events : List Event) : Prop :=
  ∀ ev ∈ events, match ev with
    | .returned query r a => Right consensus chain query r a
    | .panicked _ => False
    | _ => True

theorem EventsOk.push (h : EventsOk consensus chain events) (blk : TrackedBlock) :
    EventsOk consensus (chain.push blk) events := by
  intro ev he
  have ho := h ev he
  cases ev with
  | returned _ r a => exact Right.push ho blk
  | panicked e => exact ho
  | block | readFailed => trivial

variable {s s' : System}

theorem Step.chain_cases (h : Step consensus typeOf s events s') :
    s'.chain = s.chain ∨ ∃ blk, s'.chain = s.chain.push blk := by
  cases h with
  | @newBlock rnd blk au _ _ =>
    split
    · exact .inl rfl
    · exact .inr ⟨blk, rfl⟩
  | prepareCommit | abort | commitRound | postCommit | panic | call | read | running | returned
  | failed => exact .inl rfl

theorem CarefulStep.ok (h : s.Inv typeOf) (h1 : CarefulStep consensus typeOf s events s') :
    s'.Inv typeOf ∧ EventsOk consensus s'.chain events := by
  obtain ⟨h1, hf, hd⟩ := h1
  have hn : ∀ chain : DeltaChain, EventsOk consensus chain [] := nofun
  -- the call that takes the step, and the calls when it is replaced or over
  have hs : ∀ {l l' : List Call} {c : Call}, s.calls = l ++ c :: l' →
      c.Ok s.chain s.db s.au.cachedDBRound ∧
      (∀ c' : Call, c'.Ok s.chain s.db s.au.cachedDBRound →
        ∀ d ∈ l ++ c' :: l', d.Ok s.chain s.db s.au.cachedDBRound) ∧
      ∀ d ∈ l ++ l', d.Ok s.chain s.db s.au.cachedDBRound := by
    intro l l' c hl
    have ho := h.calls
    simp only [hl, forall_mem_append, forall_mem_cons] at ho ⊢
    exact ⟨ho.2.1, fun c' hc' => ⟨ho.1, hc', ho.2.2⟩, ho.1, ho.2.2⟩
  cases h1 with
  | @newBlock rnd _ au ht hk =>
    by_cases hr : rnd ≤ s.au.latest
    · rw [newBlockImpl, if_pos hr] at hk
      obtain rfl := Except.ok.inj hk
      simp only [if_pos hr]
      exact ⟨h, hn _⟩
    · simp only [if_neg hr] at hf ⊢
      exact ⟨h.newBlock ht hk hr (hf mem_cons_self), forall_mem_singleton.mpr trivial⟩
  | prepareCommit h5 hk => exact ⟨h.prepareCommit h5 hk, hn _⟩
  | abort hp => exact ⟨h.abort hp, hn _⟩
  | commitRound hp hk => exact ⟨h.commitRound hp hk, hn _⟩
  | postCommit hm hk =>
    obtain ⟨au', hk', hi⟩ := h.postCommit_ok hm
    obtain rfl := Except.ok.inj (hk.symm.trans hk')
    exact ⟨hi, hn _⟩
  | panic hm he =>
    obtain ⟨au', hk', -⟩ := h.postCommit_ok hm
    exact nomatch he.symm.trans hk'
  | call _ rnd =>
    refine ⟨⟨h.memory, h.db, h.typed, h.cache, h.pending, ?_⟩, hn _⟩
    exact forall_mem_cons.mpr ⟨.inl rfl, h.calls⟩
  | @read l c l' sn hl hh fl =>
    obtain ⟨hk, h2, -⟩ := hs hl
    unfold Call.Ok at hk
    rw [hh] at hk
    have h6 : fl = true → c.query.readsAccount = true → sn.currentDbRound ≠ 0 := by
      rintro rfl
      exact hd c.query sn.currentDbRound mem_cons_self
    refine ⟨⟨h.memory, h.db, h.typed, h.cache, h.pending, ?_⟩, fun ev hv => ?_⟩
    · exact h2 _ ⟨hk.1, hk.2, h.fetch h6⟩
    · split at hv
      · rw [mem_singleton.mp hv]
        trivial
      · cases hv
  | running hl ha =>
    obtain ⟨hc, h2, -⟩ := hs hl
    obtain ⟨h3, hk⟩ := h.advance hc ha
    exact ⟨h.pended h3 (h2 _ hk), hn _⟩
  | returned hl ha =>
    obtain ⟨hc, -, h4⟩ := hs hl
    obtain ⟨h3, hk⟩ := h.advance hc ha
    exact ⟨h.pended h3 h4, forall_mem_singleton.mpr hk⟩
  | failed hl ha =>
    obtain ⟨hc, -, h4⟩ := hs hl
    exact ⟨h.pended (h.advance hc ha).1 h4, hn _⟩

theorem careful_run (h : s.Inv typeOf) (hr : Steps (CarefulStep consensus typeOf) s events s') :
    s'.Inv typeOf ∧ EventsOk consensus s'.chain events := by
  have h1 : s.Inv typeOf ∧ EventsOk consensus s.chain [] := ⟨h, nofun⟩
  refine hr.history (P := fun events s => s.Inv typeOf ∧ EventsOk consensus s.chain events)
    (fun events s ev' t hs ht => ?_) h1
  obtain ⟨hi, ho⟩ := CarefulStep.ok hs.1 ht
  refine ⟨hi, forall_mem_append.mpr ⟨?_, ho⟩⟩
  rcases ht.1.chain_cases with hc | ⟨blk, hc⟩
  · rw [hc]
    exact hs.2
  · rw [hc]
    exact hs.2.push blk

end Novarand.Ledger
