import Novarand.Ledger.Commits
import Novarand.Lib.Trace

/-!
# Lookups while the tracker moves on

The tracker with its database, a commit on its way and any number of calls, each of which can be at
any point between taking the lock, reading the database and leaving an entry for the cache. `Inv`
says what holds between them; a step keeps it unless it flushes an entry into the cache that is older
than a committed change of its account (`FlushesFresh`).
-/

namespace Novarand.Ledger

open Deltas List RoundState Nat TrackedBlock

/-! ### Chains -/

/-- The state at the round `first` and the blocks after it. -/
structure DeltaChain where
  first : ℕ
  origin : RoundState
  blocks : List TrackedBlock := []

variable {a a' b b' c i k n r rnd : ℕ}

namespace DeltaChain

variable (chain : DeltaChain)

def last : ℕ := chain.first + chain.blocks.length

/-- The state after `k` blocks. -/
def state (k : ℕ) : RoundState := (chain.blocks.take k).foldl apply chain.origin

/-- The state that the deltas up to round `r` make. -/
def stateAt (r : ℕ) : RoundState := chain.state (r - chain.first)

def push (blk : TrackedBlock) : DeltaChain := { chain with blocks := chain.blocks ++ [blk] }

/-- No block after round `a` and up to round `b` changes the account. -/
def Unchanged (addr : Address) (a b : ℕ) : Prop :=
  ∀ i blk, chain.blocks[i]? = some blk → a ≤ chain.first + i → chain.first + i < b →
    blk.accts.lookup addr = none

variable {chain}

theorem stateAt_first_add (k : ℕ) : chain.stateAt (chain.first + k) = chain.state k := by
  rw [stateAt, Nat.add_sub_cancel_left]

theorem state_add (k n : ℕ) :
    chain.state (k + n) = ((chain.blocks.drop k).take n).foldl apply (chain.state k) := by
  rw [state, state, take_add, foldl_append]

theorem account_add (k n : ℕ) (addr : Address) :
    (chain.state (k + n)).account addr =
      (lastOf (((chain.blocks.drop k).map accts).take n) addr).getD
        ((chain.state k).account addr) := by rw [state_add, account_foldl, map_take]

theorem creator_add (k n : ℕ) (cidx : CreatableIndex) (ctype : CreatableType) :
    (chain.state (k + n)).creator cidx ctype =
      match lastOf (((chain.blocks.drop k).map creatables).take n) cidx with
      | none => (chain.state k).creator cidx ctype
      | some cdelta => AccountUpdates.creatorOf cdelta ctype := by
  rw [state_add, ← map_take]
  exact creator_foldl _ _ _ _

theorem state_succ {blk : TrackedBlock} (h : chain.blocks[i]? = some blk) :
    chain.state (i + 1) = (chain.state i).apply blk := by
  rw [state, take_add_one, h, foldl_append]
  rfl

section History

variable {α : Type} {proj : RoundState → α} {field : TrackedBlock → α}

/-- What every block sets, kept for the rounds from `k` on. -/
theorem eq_of_history (hs : ∀ st blk, proj (apply st blk) = field blk) {x : α}
    (hg : (proj (chain.state k) :: (chain.blocks.drop k).map field)[i]? = some x) :
    x = proj (chain.state (k + i)) := by
  cases i with
  | zero => exact (Option.some.inj hg).symm
  | succ i =>
    rw [getElem?_cons_succ, getElem?_map, getElem?_drop] at hg
    obtain ⟨blk, hb, rfl⟩ := Option.map_eq_some_iff.mp hg
    rw [← add_assoc, state_succ hb, hs]

theorem drop_history (hs : ∀ st blk, proj (apply st blk) = field blk)
    (hn : n ≤ (chain.blocks.drop k).length) :
    (proj (chain.state k) :: (chain.blocks.drop k).map field).drop n =
      proj (chain.state (k + n)) :: (chain.blocks.drop (k + n)).map field := by
  cases n with
  | zero => rfl
  | succ n =>
    rw [length_drop] at hn
    have hl : k + n < chain.blocks.length := by omega
    rw [drop_succ_cons, ← map_drop, drop_drop, drop_eq_getElem_cons hl,
      map_cons, ← add_assoc, state_succ (getElem?_eq_getElem hl), hs]

end History

/-! #### Unchanged accounts -/

variable {addr : Address}

theorem Unchanged.mono (h : chain.Unchanged addr a b) (ha : a ≤ a') (hb : b' ≤ b) :
    chain.Unchanged addr a' b' :=
  fun i blk hl hi hi' => h i blk hl (ha.trans hi) (hi'.trans_le hb)

theorem Unchanged.trans (h : chain.Unchanged addr a b) (h' : chain.Unchanged addr b c) :
    chain.Unchanged addr a c := by
  intro i blk hl hi hi'
  by_cases hb : chain.first + i < b
  · exact h i blk hl hi hb
  · exact h' i blk hl (Nat.le_of_not_lt hb) hi'

theorem unchanged_refl (addr : Address) (a : ℕ) : chain.Unchanged addr a a :=
  fun _ _ _ hi hi' => absurd hi' (Nat.not_lt_of_le hi)

theorem unchanged_iff :
    chain.Unchanged addr (chain.first + k) (chain.first + k + n) ↔
      lastOf (((chain.blocks.drop k).map accts).take n) addr = none := by
  rw [lastOf_eq_none]
  constructor
  · intro h d hd
    rw [← map_take] at hd
    obtain ⟨blk, hb, rfl⟩ := mem_map.mp hd
    obtain ⟨j, _, hg⟩ := mem_take_iff_getElem.mp hb
    rw [getElem_drop] at hg
    refine h (k + j) blk ?_ (by omega) (by omega)
    rw [← hg]
    exact getElem?_eq_getElem _
  · intro h i blk hb _ _
    refine h _ ?_
    rw [← map_take]
    refine mem_map_of_mem (mem_take_iff_getElem.mpr ⟨i - k, ?_, ?_⟩)
    · have := (List.getElem?_eq_some_iff.mp hb).1
      rw [length_drop]
      omega
    · rw [getElem_drop]
      obtain ⟨_, hg⟩ := List.getElem?_eq_some_iff.mp hb
      simp only [show k + (i - k) = i by omega]
      exact hg

/-- An account that no block changes is the same after all of them. -/
theorem Unchanged.account (h : chain.Unchanged addr a b) (ha : chain.first ≤ a) (hb : a ≤ b) :
    (chain.stateAt b).account addr = (chain.stateAt a).account addr := by
  obtain ⟨k, rfl⟩ := Nat.exists_eq_add_of_le ha
  obtain ⟨n, rfl⟩ := Nat.exists_eq_add_of_le hb
  have hn := unchanged_iff.mp h
  rw [add_assoc, stateAt_first_add, stateAt_first_add, account_add, hn]
  rfl

/-! #### Another block -/

section

variable (blk : TrackedBlock)

theorem push_last : (chain.push blk).last = chain.last + 1 := by
  simp [last, push, add_assoc]

theorem push_state (hk : k ≤ chain.blocks.length) : (chain.push blk).state k = chain.state k := by
  show ((chain.blocks ++ [blk]).take k).foldl _ _ = _
  rw [take_append_of_le_length hk]
  rfl

theorem push_stateAt (hr : r ≤ chain.last) : (chain.push blk).stateAt r = chain.stateAt r := by
  refine push_state blk ?_
  rw [last] at hr
  show r - chain.first ≤ _
  omega

theorem push_unchanged (hb : b ≤ chain.last) :
    (chain.push blk).Unchanged addr a b ↔ chain.Unchanged addr a b := by
  have hg : ∀ i, chain.first + i < b →
      (chain.push blk).blocks[i]? = chain.blocks[i]? := fun i hi => by
    rw [last] at hb
    exact getElem?_append_left (by omega)
  constructor
  · intro h i blk' hl hi hi'
    exact h i blk' ((hg i hi').trans hl) hi hi'
  · intro h i blk' hl hi hi'
    exact h i blk' ((hg i hi').symm.trans hl) hi hi'

end

end DeltaChain

open DeltaChain

/-! ### The system -/

inductive CommitPhase
  | idle
  | prepared (dcc : DeferredCommit)
  | committed (dcc : DeferredCommit)

structure System where
  au : AccountUpdates
  db : AccountsDb
  commit : CommitPhase := .idle
  calls : List Call := []
  /-- All blocks so far; only for the specification. -/
  chain : DeltaChain

inductive Event
  | block
  | readFailed (query : Query) (currentDbRound : ℕ)
  | returned (query : Query) (rnd : ℕ) (a : Answer)
  | panicked (e : Inconsistency)

/-- The steps of the tracker, of the committing routine and of the calls. -/
inductive Step (consensus : ConsensusVersion → ConsensusParams)
    (typeOf : CreatableIndex → CreatableType) : System → List Event → System → Prop
  | newBlock {s rnd blk au} (htyped : blk.Typed typeOf)
      (h : s.au.newBlockImpl rnd blk = .ok au) :
    Step consensus typeOf s (if rnd ≤ s.au.latest then [] else [.block])
      { s with au, chain := if rnd ≤ s.au.latest then s.chain else s.chain.push blk }
  | prepareCommit {s offset dcc} (hidle : s.commit = .idle)
      (h : s.au.prepareCommit offset = .ok dcc) :
    Step consensus typeOf s [] { s with commit := .prepared dcc }
  | abort {s dcc} (h : s.commit = .prepared dcc) :
    Step consensus typeOf s [] { s with commit := .idle }
  | commitRound {s dcc db dcc'} (h : s.commit = .prepared dcc)
      (hok : AccountUpdates.commitRound s.db dcc = .ok (db, dcc')) :
    Step consensus typeOf s [] { s with db, commit := .committed dcc' }
  | postCommit {s dcc au} (h : s.commit = .committed dcc) (hok : s.au.postCommit dcc = .ok au) :
    Step consensus typeOf s [] { s with au, commit := .idle }
  | panic {s dcc e} (h : s.commit = .committed dcc) (herr : s.au.postCommit dcc = .error e) :
    Step consensus typeOf s [.panicked e] s
  | call {s} (query : Query) (rnd : ℕ) :
    Step consensus typeOf s [] { s with calls := { query, rnd, phase := .enter rnd } :: s.calls }
  | read {s l c l' seen} (hcalls : s.calls = l ++ c :: l') (hphase : c.phase = .reading seen)
      (fails : Bool) :
    Step consensus typeOf s (if fails then [.readFailed c.query seen.currentDbRound] else [])
      { s with calls := l ++ { c with phase := .fetched seen (c.query.fetch s.db fails) } :: l' }
  | running {s l c l' au phase} (hcalls : s.calls = l ++ c :: l')
      (h : c.advance consensus s.au = some (au, .running phase)) :
    Step consensus typeOf s [] { s with au, calls := l ++ { c with phase } :: l' }
  | returned {s l c l' au a} (hcalls : s.calls = l ++ c :: l')
      (h : c.advance consensus s.au = some (au, .returned a)) :
    Step consensus typeOf s [.returned c.query c.rnd a] { s with au, calls := l ++ l' }
  | failed {s l c l' au e} (hcalls : s.calls = l ++ c :: l')
      (h : c.advance consensus s.au = some (au, .failed e)) :
    Step consensus typeOf s [] { s with au, calls := l ++ l' }

/-- The tracker as it is loaded from a database at the first round of a chain. -/
structure System.Initial (typeOf : CreatableIndex → CreatableType) (s : System) : Prop where
  blocks : s.chain.blocks = []
  au : s.au = { cachedDBRound := s.chain.first
                versions := [s.chain.origin.version]
                roundTotals := [s.chain.origin.totals] }
  round : s.db.round = s.chain.first
  holds : s.db.Holds typeOf s.chain.origin
  commit : s.commit = .idle
  calls : s.calls = []

/-- What is to be flushed into the cache is not older than the last committed change of its
account. -/
def System.FlushesFresh (s : System) : Prop :=
  ∀ e ∈ s.au.pendingAccounts, Lru.read PersistedAccountData.addr s.au.baseAccounts e.addr = none →
    s.chain.Unchanged e.addr e.round s.au.cachedDBRound

/-- A step that flushes fresh entries only, and no failed read of an account at round 0. -/
def CarefulStep (consensus : ConsensusVersion → ConsensusParams)
    (typeOf : CreatableIndex → CreatableType) (s : System) (events : List Event) (s' : System) :
    Prop :=
  Step consensus typeOf s events s' ∧ (.block ∈ events → s.FlushesFresh) ∧
    ∀ query r, .readFailed query r ∈ events → query.readsAccount = true → r ≠ 0

/-! ### The answers -/

/-- The answer is what the chain says for round `r`; an account is valid up to the round given. -/
def Right (consensus : ConsensusVersion → ConsensusParams) (chain : DeltaChain) (query : Query) (r : ℕ)
    (a : Answer) : Prop :=
  chain.first ≤ r ∧ r ≤ chain.last ∧
    match query, a with
    | .withRewards addr, .account data _ =>
      ((chain.stateAt r).account addr).withUpdatedRewards (consensus (chain.stateAt r).version)
        (chain.stateAt r).totals.rewardsLevel = some data
    | .withoutRewards addr _, .account data validThrough =>
      data = (chain.stateAt r).account addr ∧ r ≤ validThrough ∧ validThrough ≤ chain.last ∧
        chain.Unchanged addr r validThrough
    | .creator cidx ctype _, .creator creator => creator = (chain.stateAt r).creator cidx ctype
    | _, _ => False

variable {query : Query}

theorem Right.push {consensus : ConsensusVersion → ConsensusParams} {chain : DeltaChain}
    {a : Answer} (h : Right consensus chain query r a) (blk : TrackedBlock) :
    Right consensus (chain.push blk) query r a := by
  obtain ⟨hf, hl, h⟩ := h
  have hs := chain.push_stateAt blk hl
  have hl' := chain.push_last blk
  refine ⟨hf, by omega, ?_⟩
  cases query <;> cases a
  case withRewards.account => rwa [hs]
  case withoutRewards.account =>
    obtain ⟨_, he, hv, hu⟩ := h
    exact ⟨by rwa [hs], he, by omega, (chain.push_unchanged blk hv).mpr hu⟩
  case creator.creator => rwa [hs]
  all_goals exact h

/-! ### The invariant -/

/-- The memory of the tracker over the first `k` blocks of the chain. -/
structure AccountUpdates.Over (au : AccountUpdates) (chain : DeltaChain) (k : ℕ) : Prop where
  base : au.cachedDBRound = chain.first + k
  le : k ≤ chain.blocks.length
  deltas : au.deltas = (chain.blocks.drop k).map accts
  creatableDeltas : au.creatableDeltas = (chain.blocks.drop k).map TrackedBlock.creatables
  versions : au.versions = (chain.state k).version :: (chain.blocks.drop k).map currentProtocol
  roundTotals : au.roundTotals =
    (chain.state k).totals :: (chain.blocks.drop k).map TrackedBlock.totals
  accounts : Tracks au.accounts au.deltas
  creatables : Tracks au.creatables au.creatableDeltas

/-- The database holds the state of its round. -/
structure AccountsDb.At (typeOf : CreatableIndex → CreatableType) (db : AccountsDb) (chain : DeltaChain) :
    Prop where
  first : chain.first ≤ db.round
  last : db.round ≤ chain.last
  holds : db.Holds typeOf (chain.stateAt db.round)

/-- An entry is what the database had for its account at its round; its row id still is the one of the
database unless the account has changed since. -/
structure PersistedAccountData.Valid (e : PersistedAccountData) (chain : DeltaChain) (db : AccountsDb) :
    Prop where
  first : chain.first ≤ e.round
  le : e.round ≤ db.round
  data : e.accountData = (chain.stateAt e.round).account e.addr
  rowid : chain.Unchanged e.addr e.round db.round → e.rowid = db.rowidOf e.addr

/-- The commit is one of the oldest blocks in memory. -/
structure DeferredCommit.Within (dcc : DeferredCommit) (base : ℕ) (blocks : List TrackedBlock) :
    Prop where
  pos : 0 < dcc.offset
  le : dcc.offset ≤ blocks.length
  newBase : dcc.newBase = base + dcc.offset
  accounts : ∃ cache, dcc.compactAccountDeltas =
    makeCompactAccountDeltas ((blocks.take dcc.offset).map accts) cache
  creatables : dcc.compactCreatableDeltas = compact ((blocks.take dcc.offset).map creatables)

/-- The commit on its way: the database is ahead of the memory after its transaction only. -/
def CommitPhase.Ok (phase : CommitPhase) (base k : ℕ) (chain : DeltaChain) (db : AccountsDb) : Prop :=
  match phase with
  | .idle => db.round = base
  | .prepared dcc => db.round = base ∧ dcc.Within base (chain.blocks.drop k) ∧
    ∀ u ∈ dcc.compactAccountDeltas, ∀ old, u.2.old = some old → old.rowid = db.rowidOf u.1
  | .committed dcc => db.round = dcc.newBase ∧ dcc.Within base (chain.blocks.drop k) ∧
    (∀ acct ∈ dcc.updatedPersistedAccounts, acct.round = dcc.newBase ∧ acct.Valid chain db) ∧
      ∀ addr, ¬chain.Unchanged addr base dcc.newBase →
        ∃ acct ∈ dcc.updatedPersistedAccounts, acct.addr = addr

/-- Round `rnd` is as good for the query as round `r`. -/
def Follows (chain : DeltaChain) (query : Query) (r rnd : ℕ) : Prop :=
  rnd = r ∨ ∃ addr synchronized, query = .withoutRewards addr synchronized ∧
    chain.first ≤ r ∧ r ≤ rnd ∧ rnd ≤ chain.last ∧ chain.Unchanged addr r rnd

/-- What a call has seen answers its query from the database of that round. -/
structure Seen.Ok (seen : Seen) (query : Query) (chain : DeltaChain) (cachedDBRound : ℕ) : Prop where
  first : chain.first ≤ seen.currentDbRound
  cached : seen.currentDbRound ≤ cachedDBRound
  le : seen.currentDbRound ≤ seen.rnd
  last : seen.rnd ≤ chain.last
  answers :
    match query with
    | .withRewards addr => chain.Unchanged addr seen.currentDbRound seen.rnd ∧
      seen.rewardsProto = (chain.stateAt seen.rnd).version ∧
        seen.rewardsLevel = (chain.stateAt seen.rnd).totals.rewardsLevel
    | .withoutRewards addr _ => chain.Unchanged addr seen.currentDbRound seen.rnd
    | .creator cidx ctype _ => (chain.stateAt seen.rnd).creator cidx ctype =
        (chain.stateAt seen.currentDbRound).creator cidx ctype

/-- What was read of an account: a failed read is not taken for one of the round that was seen. -/
def PersistedAccountData.ReadOk (data : PersistedAccountData) (failed : Bool) (a : Address)
    (chain : DeltaChain) (db : AccountsDb) (currentDbRound : ℕ) : Prop :=
  if failed then data = {} ∧ currentDbRound ≠ 0 else data.addr = a ∧ data.Valid chain db

/-- What was read is what the database had at its round. -/
def Fetched.Ok (fetched : Fetched) (query : Query) (chain : DeltaChain) (db : AccountsDb)
    (currentDbRound : ℕ) : Prop :=
  match query, fetched with
  | .withRewards addr, .account data failed => data.ReadOk failed addr chain db currentDbRound
  | .withoutRewards addr _, .account data failed => data.ReadOk failed addr chain db currentDbRound
  | .creator cidx ctype _, .creator found rnd failed =>
    failed = false → rnd ≤ chain.last ∧ found = (chain.stateAt rnd).creator cidx ctype
  | _, _ => False

def Call.Ok (c : Call) (chain : DeltaChain) (db : AccountsDb) (cachedDBRound : ℕ) : Prop :=
  match c.phase with
  | .enter rnd => Follows chain c.query c.rnd rnd
  | .reading seen => Follows chain c.query c.rnd seen.rnd ∧ seen.Ok c.query chain cachedDBRound
  | .fetched seen data => Follows chain c.query c.rnd seen.rnd ∧
    seen.Ok c.query chain cachedDBRound ∧ data.Ok c.query chain db seen.currentDbRound
  | .waiting seen => Follows chain c.query c.rnd seen.rnd

structure System.Inv (typeOf : CreatableIndex → CreatableType) (s : System) : Prop where
  memory : ∃ k, s.au.Over s.chain k ∧ s.commit.Ok s.au.cachedDBRound k s.chain s.db
  db : s.db.At typeOf s.chain
  typed : ∀ blk ∈ s.chain.blocks, blk.Typed typeOf
  cache : ∀ e ∈ s.au.baseAccounts, e.Valid s.chain s.db ∧ e.round ≤ s.au.cachedDBRound ∧
    s.chain.Unchanged e.addr e.round s.au.cachedDBRound
  pending : ∀ e ∈ s.au.pendingAccounts, e.Valid s.chain s.db ∧ e.round ≤ s.au.cachedDBRound
  calls : ∀ c ∈ s.calls, c.Ok s.chain s.db s.au.cachedDBRound

/-! ### A turn of a lookup -/

variable (cidx : CreatableIndex)

namespace AccountUpdates

variable {au : AccountUpdates} {chain : DeltaChain} {k : ℕ}
  {consensus : ConsensusVersion → ConsensusParams}

theorem Over.length_deltas (h : au.Over chain k) : k + au.deltas.length = chain.blocks.length := by
  have := h.le
  rw [h.deltas, length_map, length_drop]
  omega

theorem Over.latest (h : au.Over chain k) : au.latest = chain.last := by
  have hl := h.length_deltas
  rw [AccountUpdates.latest, last, h.base]
  omega

variable {offset : ℕ}

theorem roundOffset_ok_iff : au.roundOffset rnd = .ok offset ↔
    rnd = au.cachedDBRound + offset ∧ offset ≤ au.deltas.length := by
  simp only [roundOffset, bind_ok, failIf_ok, pure_ok]
  constructor
  · omega
  · rintro ⟨rfl, hl⟩
    exact ⟨(), by omega, (), by omega, by omega⟩

section

variable (h : au.Over chain k)
include h

variable (addr : Address)

/-- The tracked accounts and the search through the deltas agree. -/
theorem Over.inDeltas :
    au.inDeltas addr offset = lastOf (au.deltas.take offset) addr := by
  rw [AccountUpdates.inDeltas, h.accounts addr, summary]
  cases hs : lastOf au.deltas addr with
  | none =>
    have ha := lastOf_eq_none.mp hs
    exact (lastOf_eq_none.mpr fun d hd => ha d (mem_of_mem_take hd)).symm
  | some dt =>
    show (if offset = au.deltas.length then some dt else _) = _
    split_ifs with hl
    · rw [hl, take_length, hs]
    · rfl

theorem Over.isSome_accounts :
    (au.accounts.lookup addr).isSome = false ↔ lastOf au.deltas addr = none := by
  rw [h.accounts addr, Option.isSome_eq_false_iff, Option.isNone_iff_eq_none, summary_eq_none]

/-- The creatables and the search through their deltas agree. -/
theorem Over.creatableDelta (offset : ℕ) :
    (if offset = au.deltas.length then (au.creatables.lookup cidx).map Tracked.value
      else scan au.creatableDeltas offset cidx) = lastOf (au.creatableDeltas.take offset) cidx := by
  split_ifs with hl
  · have hn : au.creatableDeltas.length = au.deltas.length := by
      rw [h.deltas, h.creatableDeltas, length_map, length_map]
    rw [h.creatables cidx, summary, hl, ← hn, take_length]
    cases lastOf au.creatableDeltas cidx <;> rfl
  · rfl

theorem Over.version {version : ConsensusVersion} (hg : au.versions[offset]? = some version) :
    version = (chain.state (k + offset)).version := by
  rw [h.versions] at hg
  exact eq_of_history (fun _ _ => rfl) hg

theorem Over.totals {totals : AccountTotals} (hg : au.roundTotals[offset]? = some totals) :
    totals = (chain.state (k + offset)).totals := by
  rw [h.roundTotals] at hg
  exact eq_of_history (fun _ _ => rfl) hg

theorem Over.stateAt (offset : ℕ) :
    chain.stateAt (au.cachedDBRound + offset) = chain.state (k + offset) := by
  rw [h.base, add_assoc, stateAt_first_add]

theorem Over.stateAt_base : chain.stateAt au.cachedDBRound = chain.state k := h.stateAt 0

theorem Over.unchanged_iff (offset : ℕ) :
    chain.Unchanged addr au.cachedDBRound (au.cachedDBRound + offset) ↔
      lastOf (au.deltas.take offset) addr = none := by
  rw [h.base, DeltaChain.unchanged_iff, h.deltas]

theorem Over.account (offset : ℕ) :
    (chain.stateAt (au.cachedDBRound + offset)).account addr =
      (lastOf (au.deltas.take offset) addr).getD
        ((chain.stateAt au.cachedDBRound).account addr) := by
  rw [h.stateAt, account_add, h.stateAt_base, h.deltas]

theorem Over.creator (ctype : CreatableType) (offset : ℕ) :
    (chain.stateAt (au.cachedDBRound + offset)).creator cidx ctype =
      match lastOf (au.creatableDeltas.take offset) cidx with
      | none => (chain.stateAt au.cachedDBRound).creator cidx ctype
      | some cdelta => creatorOf cdelta ctype := by
  rw [h.stateAt, creator_add, h.stateAt_base, h.creatableDeltas]

end

/-- A turn ends with a right answer, or with what a read of the database will answer. -/
def TurnOk (consensus : ConsensusVersion → ConsensusParams) (au : AccountUpdates) (chain : DeltaChain)
    (query : Query) (rnd : ℕ) : Turn → Prop
  | .answer a promote =>
    Right consensus chain query rnd a ∧ ∀ e, promote = some e → e ∈ au.baseAccounts
  | .database seen =>
    Follows chain query rnd seen.rnd ∧ seen.Ok query chain au.cachedDBRound

/-- What the cache gives for an account is its data at the round of the memory. -/
def CacheRight (au : AccountUpdates) (chain : DeltaChain) : Prop :=
  ∀ addr e, Lru.read PersistedAccountData.addr au.baseAccounts addr = some e →
    e.accountData = (chain.stateAt au.cachedDBRound).account addr

section Turns

variable {rnd offset : ℕ} {t : Turn}

theorem Over.bounds (h : au.Over chain k) (hr : au.roundOffset rnd = .ok offset) :
    rnd = au.cachedDBRound + offset ∧ offset ≤ au.deltas.length ∧
      chain.first ≤ au.cachedDBRound ∧ chain.first ≤ rnd ∧ rnd ≤ chain.last := by
  obtain ⟨rfl, hl⟩ := roundOffset_ok_iff.mp hr
  have hb := h.base
  have ht := h.latest
  rw [AccountUpdates.latest] at ht
  exact ⟨rfl, hl, by omega, by omega, by omega⟩

variable {addr : Address} {synchronized : Bool}

section

variable (h : au.Over chain k)
include h

theorem lookupWithRewards_ok (hc : au.CacheRight chain)
    (hk : au.lookupWithRewards consensus rnd addr = .ok t) :
    TurnOk consensus au chain (.withRewards addr) rnd t := by
  simp only [lookupWithRewards, bind_ok, orThrow_ok] at hk
  obtain ⟨os, ho, pr, hp, totals, ht, hk⟩ := hk
  obtain ⟨hr, _, hb, hf, hl⟩ := h.bounds ho
  have hs := h.stateAt os
  rw [← hr] at hs
  have hp' := h.version hp
  have ht' := h.totals ht
  rw [← hs] at hp' ht'
  have ha := h.account addr os
  rw [← hr] at ha
  -- all answers add the rewards of the round to its account
  have h2 : ∀ dt dt', dt = (chain.stateAt rnd).account addr →
      addRewards consensus dt pr totals.rewardsLevel = .ok dt' →
      Right consensus chain (.withRewards addr) rnd (.account dt' rnd) := by
    intro dt dt' h4 hw
    rw [addRewards, orThrow_ok, hp', ht', h4] at hw
    exact ⟨hf, hl, hw⟩
  rw [h.inDeltas addr] at hk
  have h3 : lastOf (au.deltas.take os) addr = none →
      TurnOk consensus au chain (.withRewards addr) rnd
        (.database ⟨au.cachedDBRound, au.deltas.length, rnd, pr, totals.rewardsLevel⟩) := by
    intro hn
    have hu := (h.unchanged_iff addr os).mpr hn
    rw [← hr] at hu
    exact ⟨.inl rfl, hb, le_rfl, by show au.cachedDBRound ≤ rnd; omega, hl, hu, hp',
      congrArg AccountTotals.rewardsLevel ht'⟩
  cases hd : lastOf (au.deltas.take os) addr with
  | some dt =>
    simp only [hd, bind_ok, pure_ok] at hk
    obtain ⟨dt', hw, rfl⟩ := hk
    rw [hd] at ha
    exact ⟨h2 dt dt' ha.symm hw, by rintro _ ⟨⟩⟩
  | none =>
    rw [hd] at ha hk
    cases h1 : Lru.read PersistedAccountData.addr au.baseAccounts addr with
    | none =>
      simp only [h1, pure_ok] at hk
      rw [← hk]
      exact h3 hd
    | some mc =>
      obtain ⟨hm, -⟩ := Lru.mem_of_read h1
      simp only [h1] at hk
      split at hk
      · simp only [bind_ok, pure_ok] at hk
        obtain ⟨dt', hw, rfl⟩ := hk
        refine ⟨h2 mc.accountData dt' ?_ hw, ?_⟩
        · rw [hc addr mc h1]
          exact ha.symm
        · rintro e ⟨⟩
          exact hm
      · rw [← pure_ok.mp hk]
        exact h3 hd

theorem lookupWithoutRewards_ok (hc : au.CacheRight chain)
    (hk : au.lookupWithoutRewards rnd addr = .ok t) :
    TurnOk consensus au chain (.withoutRewards addr synchronized) rnd t := by
  simp only [lookupWithoutRewards, bind_ok] at hk
  obtain ⟨os, ho, hk⟩ := hk
  obtain ⟨hr, _, hb, hf, hl⟩ := h.bounds ho
  have ha := h.account addr os
  rw [← hr] at ha
  rw [h.inDeltas addr] at hk
  cases hd : lastOf (au.deltas.take os) addr with
  | some _ =>
    rw [hd] at hk ha
    rw [← pure_ok.mp hk]
    exact ⟨⟨hf, hl, ha.symm, le_rfl, hl, chain.unchanged_refl _ _⟩, by rintro _ ⟨⟩⟩
  | none =>
    rw [hd] at hk ha
    -- the account is as it is in the database up to the round that is given
    obtain ⟨through, h2, hge, ht, hu⟩ : ∃ through,
        through = (if (au.accounts.lookup addr).isSome then rnd
          else au.cachedDBRound + au.deltas.length) ∧ rnd ≤ through ∧ through ≤ chain.last ∧
        chain.Unchanged addr au.cachedDBRound through := by
      refine ⟨_, rfl, ?_⟩
      split_ifs with hn
      · refine ⟨le_rfl, hl, ?_⟩
        rw [hr]
        exact (h.unchanged_iff addr os).mpr hd
      · have hlt := h.latest
        rw [latest] at hlt
        refine ⟨by omega, by omega, (h.unchanged_iff addr _).mpr ?_⟩
        rw [take_length]
        exact (h.isSome_accounts addr).mp (Bool.eq_false_iff.mpr hn)
    have hh : chain.Unchanged addr rnd through := hu.mono (by omega) (le_rfl)
    simp only [← h2] at hk
    cases h1 : Lru.read PersistedAccountData.addr au.baseAccounts addr with
    | none =>
      rw [h1] at hk
      rw [← pure_ok.mp hk]
      refine ⟨?_, hb, le_rfl, ?_, ht, hu⟩
      · exact .inr ⟨addr, synchronized, rfl, hf, hge, ht, hh⟩
      · show au.cachedDBRound ≤ through
        omega
    | some mc =>
      obtain ⟨hm, -⟩ := Lru.mem_of_read h1
      rw [h1] at hk
      rw [← pure_ok.mp hk]
      refine ⟨⟨hf, hl, ?_, hge, ht, hh⟩, ?_⟩
      · rw [hc addr mc h1]
        exact ha.symm
      · rintro e ⟨⟩
        exact hm

theorem getCreatorForRound_ok {cidx : CreatableIndex} {ctype : CreatableType}
    (hk : au.getCreatorForRound rnd cidx ctype = .ok t) :
    TurnOk consensus au chain (.creator cidx ctype synchronized) rnd t := by
  simp only [getCreatorForRound, bind_ok, h.creatableDelta] at hk
  obtain ⟨os, ho, hk⟩ := hk
  obtain ⟨hr, _, hb, hf, hl⟩ := h.bounds ho
  have hc := h.creator cidx ctype os
  rw [← hr] at hc
  cases hd : lastOf (au.creatableDeltas.take os) cidx with
  | some _ =>
    rw [hd] at hk hc
    rw [← pure_ok.mp hk]
    exact ⟨⟨hf, hl, hc.symm⟩, by rintro _ ⟨⟩⟩
  | none =>
    rw [hd] at hk hc
    rw [← pure_ok.mp hk]
    refine ⟨.inl rfl, hb, le_rfl, ?_, hl, hc⟩
    show au.cachedDBRound ≤ rnd
    omega

theorem turn_ok (hc : au.CacheRight chain) (ho : au.turn consensus rnd query = .ok t) :
    TurnOk consensus au chain query rnd t := by
  cases query with
  | withRewards ad => exact lookupWithRewards_ok h hc ho
  | withoutRewards ad sy => exact lookupWithoutRewards_ok h hc ho
  | creator _ _ sy => exact getCreatorForRound_ok h ho

end

/-- An account that is not in the deltas is taken from the cache. -/
theorem lookupWithoutRewards_cached {e : PersistedAccountData}
    (ho : au.roundOffset rnd = .ok offset) (hd : au.inDeltas addr offset = none)
    (hr : Lru.read PersistedAccountData.addr au.baseAccounts addr = some e) :
    au.lookupWithoutRewards rnd addr = .ok (.answer (.account e.accountData
      (if (au.accounts.lookup addr).isSome then rnd else au.cachedDBRound + au.deltas.length))
      (some e)) := by
  rw [lookupWithoutRewards, ho, ok_bind, hd]
  rw [hr]
  rfl

/-- The cache decides: a lookup at the round of the memory takes it as it is. -/
theorem Over.cacheRight_iff (h : au.Over chain k) :
    (∀ query r a promote, au.turn consensus r query = .ok (.answer a promote) →
      Right consensus chain query r a) ↔ au.CacheRight chain := by
  constructor
  · intro ha ad e hr
    have ho : au.roundOffset au.cachedDBRound = .ok 0 :=
      roundOffset_ok_iff.mpr ⟨rfl, zero_le _⟩
    have hd : au.inDeltas ad 0 = none := h.inDeltas ad
    have ht := lookupWithoutRewards_cached ho hd hr
    exact (ha (.withoutRewards ad true) _ _ _ ht).2.2.1
  · intro hc query r a promote ht
    exact (turn_ok h hc ht).1

end Turns

end AccountUpdates

end Novarand.Ledger
