import Novarand.Ledger.LookupRuns

/-!
# The answers of lookups

Along a run whose flushes are fresh, all answers are those of the chain and `postCommit` does not
panic. `lookupWithoutRewards` takes an entry of the cache without looking at its round, and the
cache may be pruned while an older entry for the same account is on its way: `stale_lookup` is a run
with a wrong answer.
-/

namespace Novarand.Ledger

open Deltas List AccountUpdates Nat

variable {consensus : ConsensusVersion → ConsensusParams} {typeOf : CreatableIndex → CreatableType}
  {s s' : System}

/-- After any one step the memory is over the blocks of the chain, whatever the cache has. -/
theorem Step.memory {events : List Event} (h : s.Inv typeOf)
    (hs : Step consensus typeOf s events s') : ∃ k, s'.au.Over s'.chain k := by
  have hc : (.block ∉ events) → (∀ query r, .readFailed query r ∉ events) →
      ∃ k, s'.au.Over s'.chain k := by
    intro hb hd
    obtain ⟨k, ho, -⟩ := (CarefulStep.ok h ⟨hs, fun hm => absurd hm hb,
      fun query r hm => absurd hm (hd query r)⟩).1.memory
    exact ⟨k, ho⟩
  obtain ⟨k, ho, -⟩ := h.memory
  cases hs with
  | @newBlock rnd blk au _ hk =>
    by_cases hr : rnd ≤ s.au.latest
    · rw [newBlockImpl, if_pos hr] at hk
      obtain rfl := Except.ok.inj hk
      simp only [if_pos hr]
      exact ⟨k, ho⟩
    · simp only [if_neg hr]
      exact ⟨k, ho.newBlock blk hk hr⟩
  | read => exact ⟨k, ho⟩
  | panic => exact ⟨k, ho⟩
  | returned => exact hc (by simp) (by simp)
  | prepareCommit | abort | commitRound | postCommit | call | running | failed =>
    exact hc not_mem_nil fun _ _ => not_mem_nil

/-- Along a run that flushes fresh entries only, every answer is the one of the chain and no
consistency check of `postCommit` fails. After any further step, the answers from memory are right
exactly if what the cache gives is. -/
theorem lookups_right (s s' : System) (events : List Event) (h : s.Initial typeOf)
    (hrun : Steps (CarefulStep consensus typeOf) s events s') :
    EventsOk consensus s'.chain events ∧
      ∀ events' s'', Step consensus typeOf s' events' s'' →
        ((∀ query r a promote, s''.au.turn consensus r query = .ok (.answer a promote) →
          Right consensus s''.chain query r a) ↔ s''.au.CacheRight s''.chain) := by
  obtain ⟨hi, he⟩ := careful_run h.inv hrun
  refine ⟨he, fun events' s'' hs => ?_⟩
  obtain ⟨k, ho⟩ := hs.memory hi
  exact ho.cacheRight_iff

namespace StaleLookup

/-- The ledger at the first round: no accounts. -/
def origin : RoundState where
  account _ := {}
  creator _ _ := none
  version := 0
  totals := {}

def emptyDb : AccountsDb where
  round := 0
  accountbase := ∅
  assetcreators := ∅

def start : System where
  au := { cachedDBRound := 0, versions := [0], roundTotals := [{}] }
  db := emptyDb
  chain := { first := 0, origin }

theorem start_initial (typeOf : CreatableIndex → CreatableType) : start.Initial typeOf where
  blocks := rfl
  au := rfl
  round := rfl
  holds := {
    rows := ⟨nofun, nofun⟩
    typed := nofun
    account := fun _ => rfl
    creator := fun _ _ => rfl }
  commit := rfl
  calls := rfl

/-- A block with one account. -/
def single : TrackedBlock where
  currentProtocol := 0
  accts := Dict.upsert ∅ 7 { microNovas := 1 }
  creatables := ∅
  totals := {}

def quiet : TrackedBlock where
  currentProtocol := 0
  accts := ∅
  creatables := ∅
  totals := {}

theorem typed (typeOf : CreatableIndex → CreatableType) (blk : TrackedBlock)
    (h : blk.creatables = ∅) : blk.Typed typeOf := by
  intro _ _ hl
  rw [h] at hl
  cases hl

theorem start_fresh : start.FlushesFresh := nofun

/-- An entry of the round of the database is fresh. -/
theorem flushesFresh_of_round (h : ∀ e ∈ s.au.pendingAccounts, s.au.cachedDBRound ≤ e.round) :
    s.FlushesFresh := by
  intro e he _ i blk _ hi hi'
  have := h e he
  omega

theorem step_newBlock {rnd : ℕ} {blk : TrackedBlock} {au : AccountUpdates} (ht : blk.Typed typeOf)
    (ho : s.au.newBlockImpl rnd blk = .ok au) (hr : ¬rnd ≤ s.au.latest) :
    Step consensus typeOf s [.block] { s with au, chain := s.chain.push blk } := by
  have hs : Step consensus typeOf s _ _ := .newBlock ht ho
  rwa [if_neg hr, if_neg hr] at hs

/-- A lookup of the account, at some point. -/
def lookup (addr : Address) (rnd : ℕ) (phase : Phase) : Call where
  query := .withoutRewards addr true
  rnd := rnd
  phase := phase

end StaleLookup

open StaleLookup

/-- The first block is committed, then an account is read from the database and its entry flushed. -/
theorem lookups_right_flushed : start.Initial (fun _ => .asset) ∧
    EventsOk (fun _ => {}) ((start.chain.push single).push quiet)
      [.block, .returned (.withoutRewards 8 true) 1 (.account {} 1), .block,
        .returned (.withoutRewards 8 true) 2 (.account {} 2),
        .returned (.withoutRewards 7 true) 2 (.account { microNovas := 1 } 2)] := by
  have hb : CarefulStep (fun _ => {}) (fun _ => .asset) start [.block] _ :=
    ⟨step_newBlock (typed _ single rfl) (show start.au.newBlockImpl 1 single = .ok _ from rfl)
      (not_succ_le_self _), fun _ => start_fresh, by simp⟩
  have hr := (Steps.single hb).tail
    ⟨.prepareCommit rfl (show prepareCommit _ 1 = .ok _ from rfl), by simp, by simp⟩
  have hr := hr.tail ⟨.commitRound rfl rfl, by simp, by simp⟩
  have hr := hr.tail ⟨.postCommit rfl rfl, by simp, by simp⟩
  have hr := hr.tail ⟨.call (.withoutRewards 8 true) 1, by simp, by simp⟩
  have hr := hr.tail ⟨@Step.running _ _ _ [] (lookup 8 1 (.enter 1)) [] _ _ rfl rfl, by simp, by simp⟩
  have hr := hr.tail
    ⟨@Step.read _ _ _ [] (lookup 8 1 (.reading ⟨1, 0, 1, 0, 0⟩)) [] _ rfl rfl false, by simp, by simp⟩
  have hr := hr.tail ⟨@Step.returned _ _ _ [] (lookup 8 1 (.fetched ⟨1, 0, 1, 0, 0⟩
    (.account { addr := 8, round := 1 } false))) [] _ _ rfl rfl, by simp, by simp⟩
  -- the second block flushes the entry of 8, from which the next lookup answers
  have hr := hr.tail ⟨step_newBlock (typed _ quiet rfl)
    (show newBlockImpl _ 2 quiet = .ok _ from rfl) (by decide),
    fun _ => flushesFresh_of_round (by decide +kernel), by simp⟩
  have hr := hr.tail ⟨.call (.withoutRewards 8 true) 2, by simp, by simp⟩
  have hr := hr.tail
    ⟨@Step.returned _ _ _ [] (lookup 8 2 (.enter 2)) [] _ _ rfl rfl, by simp, by simp⟩
  have hr := hr.tail ⟨.call (.withoutRewards 7 true) 2, by simp, by simp⟩
  have hr := hr.tail
    ⟨@Step.returned _ _ _ [] (lookup 7 2 (.enter 2)) [] _ _ rfl rfl, by simp, by simp⟩
  exact ⟨start_initial _, (lookups_right _ _ _ (start_initial _) hr).1⟩

/-! ### A stale answer -/

variable {dcc dcc' : DeferredCommit}

namespace StaleLookup

/-- One account more than the cache may keep. -/
def addrs : List Address := List.range (baseAccountsPendingAccountsBufferSize + 2)

def rich : AccountData := { microNovas := 1 }

/-- All of the accounts with the same data. -/
def everyone (accts : List Address) (h : accts.Nodup) : Dict Address AccountData where
  entries := accts.map fun addr => ⟨addr, rich⟩
  nodupKeys := by
    rw [List.NodupKeys, List.keys, map_map]
    exact (map_id accts).symm ▸ h

variable {addr : Address} {au au₁ au₂ au₃ : AccountUpdates} {db db' : AccountsDb}

theorem everyone_lookup {accts : List Address} (hn : accts.Nodup) (h : addr ∈ accts) :
    (everyone accts hn).lookup addr = some rich := by
  refine AList.mem_lookup_iff.mpr ?_
  exact mem_map_of_mem h

/-- A block that changes all of them. -/
def crowd : TrackedBlock where
  currentProtocol := 0
  accts := everyone addrs nodup_range
  creatables := ∅
  totals := {}

/-- The next block is taken. -/
theorem newBlock_exists (au : AccountUpdates) (blk : TrackedBlock) :
    ∃ au', au.newBlockImpl (au.latest + 1) blk = .ok au' := by
  rw [newBlockImpl, if_neg (by omega)]
  simp only [bind_ok, failIf_ok, pure_ok]
  exact ⟨_, (), fun h => h rfl, rfl⟩

/-- A cache that is too small has no entry for some account. -/
theorem exists_unread {cache : List PersistedAccountData} (h : cache.length < addrs.length) :
    ∃ addr ∈ addrs, Lru.read PersistedAccountData.addr cache addr = none := by
  by_contra ha
  push Not at ha
  have hs : addrs ⊆ cache.map PersistedAccountData.addr := by
    intro addr hd
    obtain ⟨e, he⟩ := Option.ne_none_iff_exists'.mp (ha addr hd)
    obtain ⟨hm, rfl⟩ := Lru.mem_of_read he
    exact mem_map_of_mem hm
  have hl := (nodup_range.subperm hs).length_le
  rw [length_map] at hl
  exact absurd h (Nat.not_lt_of_le hl)

/-- The chain of the first two blocks. -/
def chain : DeltaChain := { first := 0, origin, blocks := [crowd, quiet] }

/-- Commit of the first block, and the prune at the second. -/
structure Pruned (typeOf : CreatableIndex → CreatableType) (au₁ : AccountUpdates)
    (dcc : DeferredCommit) (db : AccountsDb) (dcc' : DeferredCommit) (au₂ au₃ : AccountUpdates) :
    Prop where
  first : start.au.newBlockImpl 1 crowd = .ok au₁
  prepare : au₁.prepareCommit 1 = .ok dcc
  commit : commitRound emptyDb dcc = .ok (db, dcc')
  post : au₁.postCommit dcc' = .ok au₂
  latest : au₂.latest = 1
  second : au₂.newBlockImpl 2 quiet = .ok au₃
  pending : au₃.pendingAccounts = []
  pruned : au₃.baseAccounts.length < addrs.length
  memory : au₃.Over chain 1

theorem prepareCommit_exists (h : 0 < au.deltas.length) :
    ∃ dcc, au.prepareCommit 1 = .ok dcc ∧ dcc.newBase = au.cachedDBRound + 1 ∧
      dcc.compactCreatableDeltas = compact (au.creatableDeltas.take 1) := by
  simp only [prepareCommit, bind_ok, failIf_ok, pure_ok]
  refine ⟨_, ⟨(), ?_, (), fun hn => hn rfl, rfl⟩, rfl, rfl⟩
  omega

theorem commitRound_round (h : commitRound db dcc = .ok (db', dcc')) : db'.round = dcc.newBase := by
  simp only [commitRound, bind_ok, failIf_ok, pure_ok] at h
  obtain ⟨_, -, _, -, -, -, he⟩ := h
  rw [← (Prod.mk.inj he).1]

/-- Deltas that change nothing leave nothing to track. -/
theorem keys_eq_nil {m : Dict Address (Tracked AccountData)} {log : List (Dict Address AccountData)}
    (h : Tracks m log) (hl : ∀ d ∈ log, d = ∅) : m.keys = [] := by
  refine eq_nil_iff_forall_not_mem.mpr fun ad hm => ?_
  have hs := AList.lookup_isSome.mpr (AList.mem_keys.mpr hm)
  have hn : summary log ad = none :=
    summary_eq_none.mpr (lastOf_eq_none.mpr fun d hd => by rw [hl d hd]; rfl)
  rw [h ad, hn] at hs
  cases hs

theorem pruned_exists (typeOf : CreatableIndex → CreatableType) :
    ∃ au₁ dcc db dcc' au₂ au₃, Pruned typeOf au₁ dcc db dcc' au₂ au₃ := by
  have hi0 := (start_initial typeOf).inv
  obtain ⟨au₁, h1⟩ := newBlock_exists start.au crowd
  have hi1 := hi0.newBlock (typed typeOf crowd rfl) h1 (not_succ_le_self _) start_fresh
  have he1 := newBlockImpl_ok crowd h1 (not_succ_le_self _)
  have hd1 : 0 < au₁.deltas.length := by
    rw [he1]
    exact one_pos
  have hc1 : au₁.creatableDeltas = [∅] := by rw [he1]; rfl
  obtain ⟨dcc, h2, hb, hc⟩ := prepareCommit_exists hd1
  have hi2 := hi1.prepareCommit rfl h2
  obtain ⟨_, _, -, hw, h6⟩ := hi2.memory
  obtain ⟨⟨db, dcc'⟩, h3⟩ := commitRound_exists (start_initial typeOf).holds.rows
    (show dcc.Of emptyDb _ from ⟨hw.accounts, hw.creatables, h6⟩)
    (by rw [hc, hc1]; rfl) (zero_le _)
  have hi3 := hi2.commitRound rfl h3
  obtain ⟨au₂, h4, hi4⟩ := hi3.postCommit_ok rfl
  obtain ⟨k4, ho4, hi⟩ := hi4.memory
  have hc2 : au₂.cachedDBRound = 1 := by
    have hn : db.round = au₂.cachedDBRound := hi
    rw [← hn, commitRound_round h3, hb, he1]
    rfl
  have hk4 : k4 = 1 := by
    have hf : au₂.cachedDBRound = 0 + k4 := ho4.base
    omega
  subst hk4
  have hl2 : au₂.latest = 1 := ho4.latest
  obtain ⟨au₃, h5⟩ := newBlock_exists au₂ quiet
  rw [hl2] at h5
  have hr : ¬1 + 1 ≤ au₂.latest := by omega
  have he3 := newBlockImpl_ok quiet h5 hr
  refine ⟨au₁, dcc, db, dcc', au₂, au₃, h1, h2, h3, h4, hl2, h5,
    by rw [he3], ?_, ?_⟩
  · have hd2 : au₂.deltas = [] := ho4.deltas
    have ht := ho4.accounts.track quiet.accts
    have hk : (track au₂.accounts quiet.accts).keys = [] := keys_eq_nil ht (by
      rw [hd2]
      exact fun d hd => mem_singleton.mp hd)
    rw [he3, addrs, length_range]
    refine lt_of_le_of_lt (length_take_le _ _) ?_
    rw [hk, length_nil]
    omega
  · exact ho4.newBlock quiet h5 hr

/-- What the first call reads before the block that changes its account. -/
def before (addr : Address) : PersistedAccountData := { addr }

def seen : Seen := ⟨0, 0, 0, 0, 0⟩

/-- The first call, which has read. -/
def delayed (addr : Address) : Call := lookup addr 0 (.fetched seen (.account (before addr) false))

/-- The first call has read, the block is committed, and the cache is pruned. -/
theorem run_to_prune (h : Pruned typeOf au₁ dcc db dcc' au₂ au₃) (addr : Address) :
    ∃ events, Steps (Step consensus typeOf) start events
      { au := au₃, db, chain, calls := [delayed addr] } := by
  have hc : Step consensus typeOf start []
      { start with calls := [lookup addr 0 (.enter 0)] } := .call (.withoutRewards addr true) 0
  have ht : Step consensus typeOf { start with calls := [lookup addr 0 (.enter 0)] } []
      { start with calls := [lookup addr 0 (.reading seen)] } :=
    @Step.running _ _ _ [] (lookup addr 0 (.enter 0)) [] _ _ rfl rfl
  have hr : Step consensus typeOf { start with calls := [lookup addr 0 (.reading seen)] } _
      { start with calls := [delayed addr] } :=
    @Step.read _ _ _ [] (lookup addr 0 (.reading seen)) [] seen rfl rfl false
  have h1 : Step consensus typeOf { start with calls := [delayed addr] } _ _ :=
    step_newBlock (typed typeOf crowd rfl) h.first (not_succ_le_self _)
  have hr' := ((((Steps.refl start).tail hc).tail ht).tail hr).tail h1
  have hm := ((hr'.tail (.prepareCommit rfl h.prepare)).tail
    (.commitRound rfl h.commit)).tail (.postCommit rfl h.post)
  exact ⟨_, hm.tail (step_newBlock (typed typeOf quiet rfl) h.second
    (by rw [h.latest]; exact not_succ_le_self 1))⟩

theorem iterate_answer {rnd : ℕ} {q : Query} {a : Answer} {acct : PersistedAccountData}
    (h : au.turn consensus rnd q = .ok (.answer a (some acct))) :
    Call.iterate consensus au rnd q = (au.writePending acct, .returned a) := by rw [Call.iterate, h]

/-- The first call leaves the old entry, the third block flushes it, and the second call takes it. -/
theorem run_to_stale (hv : au.Over chain 1) (hp : au.pendingAccounts = [])
    (h1 : Lru.read PersistedAccountData.addr au.baseAccounts addr = none) :
    ∃ events s' through, Steps (Step consensus typeOf)
      { au, db, chain, calls := [delayed addr] } events s' ∧
      .returned (.withoutRewards addr true) 3 (.account {} through) ∈ events ∧
      s'.chain = chain.push quiet := by
  let au' : AccountUpdates := { au with pendingAccounts := [before addr] }
  have hw : au.writePending (before addr) = au' := by
    rw [writePending, hp]
    rfl
  have hf : Step consensus typeOf { au, db, chain, calls := [delayed addr] }
      [.returned (.withoutRewards addr true) 0 (.account {} 0)] { au := au', db, chain } := by
    rw [← hw]
    exact @Step.returned _ _ _ [] (delayed addr) [] _ _ rfl rfl
  have hv' : au'.Over chain 1 :=
    ⟨hv.base, hv.le, hv.deltas, hv.creatableDeltas, hv.versions, hv.roundTotals,
      hv.accounts, hv.creatables⟩
  have hlt : au'.latest = 2 := hv'.latest
  obtain ⟨au₁, hb⟩ := newBlock_exists au' quiet
  rw [hlt] at hb
  have hr : ¬2 + 1 ≤ au'.latest := by omega
  have hq := newBlockImpl_ok quiet hb hr
  have hv1 := hv'.newBlock quiet hb hr
  -- nothing in the cache is newer, so the old entry is in front
  have hc : Lru.read PersistedAccountData.addr au₁.baseAccounts addr = some (before addr) := by
    have hn : Lru.newer PersistedAccountData.addr PersistedAccountData.round au.baseAccounts
        (before addr) = before addr := by
      rcases Lru.newer_cases PersistedAccountData.addr PersistedAccountData.round au.baseAccounts
        (before addr) with ⟨h, -⟩ | ⟨old, ho, -⟩
      · exact h
      · cases h1.symm.trans ho
    rw [hq]
    show Lru.read _ (List.take _ (Lru.write _ _ au.baseAccounts (before addr))) addr = _
    rw [Lru.write, hn, add_assoc, add_comm 1, ← add_assoc, take_succ_cons,
      Lru.read, find?_cons_of_pos]
    exact decide_eq_true rfl
  have hl : au₁.deltas = [∅, ∅] := hv1.deltas
  have h2 : au₁.roundOffset 3 = .ok 2 := by
    have h3 : au₁.cachedDBRound = 1 := hv1.base
    refine roundOffset_ok_iff.mpr ⟨by rw [h3], ?_⟩
    rw [hl]
    exact le_refl 2
  have he : au₁.inDeltas addr 2 = none := by
    rw [hv1.inDeltas addr, hl]
    exact lastOf_eq_none.mpr fun d hd => by
      rcases mem_cons.mp (mem_of_mem_take hd) with rfl | hd
      · rfl
      · rw [mem_singleton.mp hd]
        rfl
  have ht := lookupWithoutRewards_cached h2 he hc
  generalize (if (au₁.accounts.lookup addr).isSome then 3
    else au₁.cachedDBRound + au₁.deltas.length) = through at ht
  have hs : (lookup addr 3 (.enter 3)).advance consensus au₁ =
      some (au₁.writePending (before addr), .returned (.account {} through)) := by
    show some (Call.iterate consensus au₁ 3 (.withoutRewards addr true)) = _
    rw [iterate_answer (show au₁.turn consensus 3 (.withoutRewards addr true) = _ from ht)]
    rfl
  have hu := ((Steps.single hf).tail (step_newBlock (typed typeOf quiet rfl) hb
    hr)).tail (.call (.withoutRewards addr true) 3)
  refine ⟨_, _, through, hu.tail (@Step.returned _ _ _ [] (lookup addr 3 (.enter 3)) [] _ _ rfl
    hs), ?_, rfl⟩
  exact mem_append_right _ mem_cons_self

theorem account_after (h : addr ∈ addrs) : ((chain.push quiet).stateAt 3).account addr = rich := by
  have hs : (chain.push quiet).stateAt 3 = ((origin.apply crowd).apply quiet).apply quiet := rfl
  have hq : ∀ st : RoundState, (st.apply quiet).account addr = st.account addr := fun _ => rfl
  have hc : crowd.accts.lookup addr = some rich := everyone_lookup nodup_range h
  rw [hs, hq, hq, RoundState.apply_account, hc]
  rfl

end StaleLookup

/-- A call that has read an account before it changes leaves its entry after the commit, when the
cache has been pruned of the new one; the next lookup gets the old data. -/
theorem stale_lookup : ∃ (s : System) (events : List Event) (s' : System) (addr : Address)
    (through : ℕ), s.Initial (fun _ => .asset) ∧
      Steps (Step (fun _ => {}) fun _ => .asset) s events s' ∧
      .returned (.withoutRewards addr true) 3 (.account {} through) ∈ events ∧
      (s'.chain.stateAt 3).account addr = { microNovas := 1 } ∧
      ¬EventsOk (fun _ => {}) s'.chain events := by
  obtain ⟨_, _, _, _, _, _, h⟩ := pruned_exists fun _ => .asset
  obtain ⟨addr, h1, hr⟩ := exists_unread h.pruned
  obtain ⟨_, hr1⟩ := run_to_prune h addr
  obtain ⟨_, s', through, hr2, hm, hc⟩ := run_to_stale h.memory h.pending hr
  have ha := account_after h1
  rw [← hc] at ha
  refine ⟨start, _, s', addr, through, start_initial _, hr1.trans hr2,
    mem_append_right _ hm, ha, fun ho => ?_⟩
  have hg := ho _ (mem_append_right _ hm)
  have hd : ({} : AccountData) = (s'.chain.stateAt 3).account addr := hg.2.2.1
  rw [ha] at hd
  exact absurd (congrArg AccountData.microNovas hd) zero_ne_one

end Novarand.Ledger
