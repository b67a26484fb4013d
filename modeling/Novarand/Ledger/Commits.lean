import Novarand.Ledger.AccountUpdates

/-!
# What the transaction of a commit does

`RoundState` is the ledger after a round, as the deltas of the blocks make it. A database holds such
a state; the transaction of a commit takes it to the state after the rounds that are committed, if the
row ids it was prepared with are those of the database.
-/

namespace Novarand.Ledger

open Deltas List Dict AccountUpdates AList AccountData

variable {typeOf : CreatableIndex → CreatableType} {db db' : AccountsDb}

/-! ### The state after a round -/

/-- The ledger after a round, with the version and the totals of its block. -/
structure RoundState where
  account : Address → AccountData
  creator : CreatableIndex → CreatableType → Option Address
  version : ConsensusVersion
  totals : AccountTotals

variable (blocks : List TrackedBlock)

namespace RoundState

variable (st : RoundState)

/-- The state after another block. -/
def apply (blk : TrackedBlock) : RoundState where
  account addr := (blk.accts.lookup addr).getD (st.account addr)
  creator cidx ctype :=
    match blk.creatables.lookup cidx with
    | none => st.creator cidx ctype
    | some cdelta => creatorOf cdelta ctype
  version := blk.currentProtocol
  totals := blk.totals

theorem apply_account (blk : TrackedBlock) (addr : Address) :
    (st.apply blk).account addr = (blk.accts.lookup addr).getD (st.account addr) := rfl

theorem account_foldl (addr : Address) :
    (blocks.foldl apply st).account addr =
      (lastOf (blocks.map TrackedBlock.accts) addr).getD (st.account addr) := by
  induction blocks using List.reverseRecOn with
  | nil => rfl
  | append_singleton blocks blk ih =>
    rw [foldl_append, map_append, lastOf_append]
    show (apply _ blk).account addr = ((lastOf [blk.accts] addr).or _).getD _
    rw [apply_account, lastOf_singleton, ih]
    cases blk.accts.lookup addr <;> rfl

theorem creator_foldl (cidx : CreatableIndex) (ctype : CreatableType) :
    (blocks.foldl apply st).creator cidx ctype =
      match lastOf (blocks.map TrackedBlock.creatables) cidx with
      | none => st.creator cidx ctype
      | some cdelta => creatorOf cdelta ctype := by
  induction blocks using List.reverseRecOn with
  | nil => rfl
  | append_singleton blocks blk ih =>
    rw [foldl_append, map_append, lastOf_append]
    show (match blk.creatables.lookup cidx with
      | none => (blocks.foldl apply st).creator cidx ctype
      | some cdelta => creatorOf cdelta ctype) =
      match (lastOf [blk.creatables] cidx).or _ with
      | none => st.creator cidx ctype
      | some cdelta => creatorOf cdelta ctype
    rw [lastOf_singleton, ih]
    cases blk.creatables.lookup cidx <;> rfl

end RoundState

/-! ### Rows of the database -/

variable {data : AccountData}

namespace AccountsDb

/-- Every account has at most one row, and row ids are not zero. -/
structure Rows (db : AccountsDb) : Prop where
  unique : ∀ i j addr d d', db.accountbase.lookup i = some (addr, d) →
    db.accountbase.lookup j = some (addr, d') → i = j
  pos : ∀ i row, db.accountbase.lookup i = some row → i ≠ 0

/-- The row id of an account, 0 if it has no row. -/
def rowidOf (db : AccountsDb) (addr : Address) : ℕ := ((db.select addr).map Prod.fst).getD 0

def accountOf (db : AccountsDb) (addr : Address) : AccountData :=
  ((db.select addr).map Prod.snd).getD {}

theorem lookup_eq (db : AccountsDb) (addr : Address) :
    db.lookup addr =
      { addr, accountData := db.accountOf addr, rowid := db.rowidOf addr, round := db.round } := by
  rw [lookup, accountOf, rowidOf]
  cases db.select addr <;> rfl

variable {addr : Address} {i : ℕ}

theorem select_eq_some (h : db.Rows) :
    db.select addr = some (i, data) ↔ db.accountbase.lookup i = some (addr, data) := by
  rw [select, Option.map_eq_some_iff]
  constructor
  · rintro ⟨⟨j, a, d⟩, hf, he⟩
    obtain ⟨rfl, rfl⟩ := Prod.mk.inj he
    have ha : a = addr := by simpa using find?_some hf
    subst ha
    exact mem_lookup_iff.mpr (mem_of_find?_eq_some hf)
  · intro hl
    have hm : (⟨i, addr, data⟩ : Σ _ : ℕ, Address × AccountData) ∈ db.accountbase.entries :=
      mem_lookup_iff.mp hl
    cases hf : db.accountbase.entries.find? (fun e => e.2.1 = addr) with
    | none =>
      have := find?_eq_none.mp hf _ hm
      simp at this
    | some e =>
      obtain ⟨j, a, d⟩ := e
      have ha : a = addr := by simpa using find?_some hf
      subst ha
      have hj : db.accountbase.lookup j = some (a, d) :=
        mem_lookup_iff.mpr (mem_of_find?_eq_some hf)
      obtain rfl := h.unique i j a data d hl hj
      obtain ⟨-, rfl⟩ := Prod.mk.inj (Option.some.inj (hj.symm.trans hl))
      exact ⟨_, rfl, rfl⟩

theorem select_eq_none (h : db.Rows) :
    db.select addr = none ↔ ∀ i data, db.accountbase.lookup i ≠ some (addr, data) := by
  constructor
  · intro hn i data hl
    rw [(select_eq_some h).mpr hl] at hn
    cases hn
  · intro ha
    cases hs : db.select addr with
    | none => rfl
    | some _ => exact absurd ((select_eq_some h).mp hs) (ha _ _)

theorem rowidOf_eq_zero (h : db.Rows) : db.rowidOf addr = 0 ↔ db.select addr = none := by
  rw [rowidOf]
  cases hs : db.select addr with
  | none => simp
  | some _ =>
    have := h.pos _ _ ((select_eq_some h).mp hs)
    simpa using this

theorem lookup_newRowid (db : AccountsDb) : db.accountbase.lookup db.newRowid = none := by
  have hl : ∀ (l : List ℕ), ∀ i ∈ l, i ≤ l.foldr max 0 := by
    intro l
    induction l with
    | nil => simp
    | cons j l ih =>
      intro i hi
      rcases mem_cons.mp hi with rfl | hi
      · exact le_max_left _ _
      · exact (ih i hi).trans (le_max_right _ _)
  refine lookup_eq_none.mpr fun hm => ?_
  have := hl _ _ (mem_keys.mp hm)
  rw [newRowid] at this
  omega

/-- The database with other rows for one account. -/
structure Changed (db db' : AccountsDb) (addr : Address) (row : Option (ℕ × AccountData)) : Prop where
  rows : db'.Rows
  select : ∀ a, db'.select a = if a = addr then row else db.select a
  assetcreators : db'.assetcreators = db.assetcreators
  round : db'.round = db.round

/-- Row `i` gets the data `new` of `addr`, where `addr` has no other row. -/
theorem changed_at (h : db.Rows) (new : Option AccountData) (hp : i ≠ 0)
    (ht : ∀ row, db.accountbase.lookup i = some row → row.1 = addr)
    (h1 : ∀ j data, db.accountbase.lookup j = some (addr, data) → j = i)
    (hl : ∀ j, db'.accountbase.lookup j =
      if j = i then new.map (Prod.mk addr) else db.accountbase.lookup j)
    (hc : db'.assetcreators = db.assetcreators) (hn : db'.round = db.round) :
    Changed db db' addr (new.map (Prod.mk i)) := by
  have hm : ∀ j data, db'.accountbase.lookup j = some (addr, data) ↔ j = i ∧ new = some data := by
    intro j data
    rw [hl]
    split_ifs with hj
    · simp [hj]
    · simp [hj, mt (h1 j data) hj]
  have ho : ∀ j a data, a ≠ addr →
      (db'.accountbase.lookup j = some (a, data) ↔ db.accountbase.lookup j = some (a, data)) := by
    intro j a data ha
    rw [hl]
    split_ifs with hj
    · subst hj
      simp [Ne.symm ha, mt (ht (a, data)) ha]
    · rfl
  have hr : db'.Rows := by
    constructor
    · intro j k a d d' hj hk
      by_cases ha : a = addr
      · subst ha
        exact ((hm j d).mp hj).1.trans ((hm k d').mp hk).1.symm
      · exact h.unique j k a d d' ((ho j a d ha).mp hj) ((ho k a d' ha).mp hk)
    · rintro j ⟨a, data⟩ hj
      by_cases ha : a = addr
      · subst ha
        exact ((hm j data).mp hj).1 ▸ hp
      · exact h.pos j _ ((ho j a data ha).mp hj)
  refine ⟨hr, fun a => ?_, hc, hn⟩
  ext ⟨j, data⟩
  rw [select_eq_some hr]
  split_ifs with ha
  · simp [ha, hm, eq_comm, and_comm]
  · rw [ho j a data ha, select_eq_some h]

theorem insert_spec (h : db.Rows) (hn : db.select addr = none) (data : AccountData) :
    ∃ db', db.insert addr data = .ok db' ∧ Changed db db' addr (some (db.newRowid, data)) := by
  refine ⟨{ db with accountbase := db.accountbase.upsert db.newRowid (addr, data) }, ?_,
    changed_at h (some data) (Nat.succ_ne_zero _) ?_ ?_ (fun j => lookup_upsert _ _ _ _) rfl rfl⟩
  · rw [insert, hn]
    rfl
  · intro _ hro
    rw [db.lookup_newRowid] at hro
    cases hro
  · exact fun j d hro => absurd hro ((select_eq_none h).mp hn j d)

section

variable (h : db.Rows) {addr : Address} {i : ℕ} {old : AccountData}
  (hro : db.accountbase.lookup i = some (addr, old))
include h hro

/-- The row of an account gets other data, or none. -/
theorem changed_row (new : Option AccountData)
    (hl : ∀ j, db'.accountbase.lookup j =
      if j = i then new.map (Prod.mk addr) else db.accountbase.lookup j)
    (hc : db'.assetcreators = db.assetcreators) (hr : db'.round = db.round) :
    Changed db db' addr (new.map (Prod.mk i)) :=
  changed_at h new (h.pos _ _ hro) (fun _ hr' => Option.some.inj (hro.symm.trans hr') ▸ rfl)
    (fun _ _ hr' => h.unique _ _ _ _ _ hr' hro) hl hc hr

theorem update_spec (data : AccountData) :
    ∃ db', db.update i data = .ok db' ∧ Changed db db' addr (some (i, data)) := by
  refine ⟨{ db with accountbase := db.accountbase.upsert i (addr, data) }, ?_,
    changed_row h hro (some data) (fun j => lookup_upsert _ _ _ _) rfl rfl⟩
  rw [update, hro]
  rfl

theorem delete_spec : ∃ db', db.delete i = .ok db' ∧ Changed db db' addr none := by
  refine ⟨{ db with accountbase := db.accountbase.erase i }, ?_,
    changed_row h hro none (fun j => lookup_erase' _ _ _) rfl rfl⟩
  rw [delete, hro]
  rfl

end

end AccountsDb

open AccountsDb

/-! ### The accounts of a commit -/

variable {addr : Address} {new : AccountData}

section Accounts

/-- The row that an account has after a commit to `new`. -/
structure Written (db : AccountsDb) (acct : PersistedAccountData) (a : Address)
    (new : AccountData) (rnd : ℕ) : Prop where
  addr : acct.addr = a
  accountData : acct.accountData = new
  rowid : acct.rowid = db.rowidOf a
  account : db.accountOf a = new
  round : acct.round = rnd

theorem AccountData.isZero_iff : data.isZero = true ↔ data = {} := by
  simp [isZero]

variable {round : ℕ} {acct : PersistedAccountData}

/-- An account has the row that a commit gives it. -/
theorem AccountsDb.Changed.written {row : Option (ℕ × AccountData)} (h : db.Changed db' addr row)
    (ha : acct.addr = addr) (hd : acct.accountData = new)
    (hr : acct.rowid = (row.map Prod.fst).getD 0) (hn : (row.map Prod.snd).getD {} = new)
    (h1 : acct.round = round) : Written db' acct addr new round := by
  have hs := h.select addr
  rw [if_pos rfl] at hs
  refine ⟨ha, hd, ?_, ?_, h1⟩
  · rw [rowidOf, hs, hr]
  · rw [accountOf, hs, hn]

/-- One account of `accountsNewRound`, if the old row id is the one of the database. -/
theorem newRoundAccount_spec (h : db.Rows) (addr : Address) (new : AccountData) (round : ℕ) :
    ∃ db' acct, newRoundAccount db addr (db.rowidOf addr) new round = .ok (db', acct) ∧
      (∃ row, db.Changed db' addr row) ∧ Written db' acct addr new round := by
  rw [newRoundAccount]
  split
  · rename_i hz
    have h1 := (rowidOf_eq_zero h).mp hz
    split_ifs with hn
    · have hm : db.Changed db addr none := by
        refine ⟨h, fun a => ?_, rfl, rfl⟩
        split_ifs with ha
        · rw [ha, h1]
        · rfl
      have hn := (isZero_iff.mp hn).symm
      exact ⟨_, _, rfl, ⟨_, hm⟩, hm.written rfl hn rfl hn rfl⟩
    · obtain ⟨db', h2, hc⟩ := insert_spec h h1 new
      rw [h2]
      exact ⟨_, _, rfl, ⟨_, hc⟩, hc.written rfl rfl rfl rfl rfl⟩
  · rename_i hr
    obtain ⟨⟨i, _⟩, hs⟩ := Option.ne_none_iff_exists'.mp (mt (rowidOf_eq_zero h).mpr hr)
    have hi : db.rowidOf addr = i := by
      rw [rowidOf, hs]
      rfl
    have hro := (select_eq_some h).mp hs
    rw [hi]
    split_ifs with hn
    · have hn := (isZero_iff.mp hn).symm
      obtain ⟨db', hd, hc⟩ := delete_spec h hro
      rw [hd]
      exact ⟨_, _, rfl, ⟨_, hc⟩, hc.written rfl hn rfl hn rfl⟩
    · obtain ⟨db', hu, hc⟩ := update_spec h hro new
      rw [hu]
      exact ⟨_, _, rfl, ⟨_, hc⟩, hc.written rfl rfl rfl rfl rfl⟩

/-- What the loop leaves: the accounts of the updates are written, the others are as before. -/
structure AllWritten (db db' : AccountsDb) (updates : List (Address × ℕ × AccountData)) (rnd : ℕ)
    (accts : List PersistedAccountData) : Prop where
  rows : db'.Rows
  assetcreators : db'.assetcreators = db.assetcreators
  round : db'.round = db.round
  other : ∀ a, a ∉ updates.map Prod.fst → db'.select a = db.select a
  written : ∀ u ∈ updates, ∃ acct ∈ accts, Written db' acct u.1 u.2.2 rnd
  only : ∀ acct ∈ accts, ∃ u ∈ updates, Written db' acct u.1 u.2.2 rnd

theorem Written.of_select (h : Written db acct addr new round)
    (hs : db'.select addr = db.select addr) : Written db' acct addr new round := by
  refine ⟨h.addr, h.accountData, ?_, ?_, h.round⟩
  · rw [h.rowid, rowidOf, rowidOf, hs]
  · rw [← h.account, accountOf, accountOf, hs]

theorem newRoundAccounts_spec {updates : List (Address × ℕ × AccountData)}
    {acc : List PersistedAccountData} (h : db.Rows) (hd : (updates.map Prod.fst).Nodup)
    (ho : ∀ u ∈ updates, u.2.1 = db.rowidOf u.1) :
    ∃ db' written, newRoundAccounts db updates round acc = .ok (db', acc ++ written) ∧
      AllWritten db db' updates round written := by
  induction updates generalizing db acc with
  | nil =>
    refine ⟨db, [], ?_, h, rfl, rfl, fun _ _ => rfl, by simp, by simp⟩
    rw [append_nil]
    rfl
  | cons u updates ih =>
    obtain ⟨hn, hd⟩ := nodup_cons.mp hd
    obtain ⟨hr, ho⟩ := forall_mem_cons.mp ho
    obtain ⟨db1, ac, h1, ⟨_, hc⟩, h2⟩ := newRoundAccount_spec h u.1 u.2.2 round
    have ht : ∀ v ∈ updates, v.1 ≠ u.1 := fun v hv he => hn (he ▸ mem_map_of_mem hv)
    obtain ⟨db', written, hs, hl⟩ := @ih db1 (acc ++ [ac]) hc.rows hd fun v hv => by
      rw [ho v hv, rowidOf, rowidOf, hc.select, if_neg (ht v hv)]
    have hk : Written db' ac u.1 u.2.2 round := h2.of_select (hl.other u.1 hn)
    refine ⟨db', ac :: written, ?_, hl.rows, ?_, ?_, ?_, ?_, ?_⟩
    · rw [newRoundAccounts, foldlM_cons, hr, h1, ← singleton_append,
        ← append_assoc]
      exact hs
    · rw [hl.assetcreators, hc.assetcreators]
    · rw [hl.round, hc.round]
    · intro a ha
      rw [map_cons, mem_cons, not_or] at ha
      rw [hl.other a ha.2, hc.select, if_neg ha.1]
    · intro v hv
      rcases mem_cons.mp hv with rfl | hv
      · exact ⟨ac, mem_cons_self, hk⟩
      · obtain ⟨ac', ha', hw⟩ := hl.written v hv
        exact ⟨ac', mem_cons_of_mem _ ha', hw⟩
    · intro ac' ha'
      rcases mem_cons.mp ha' with rfl | ha'
      · exact ⟨u, mem_cons_self, hk⟩
      · obtain ⟨v, hv, hw⟩ := hl.only ac' ha'
        exact ⟨v, mem_cons_of_mem _ hv, hw⟩

end Accounts

/-! ### The creatables of a commit -/

/-- Every creatable has the type of its index. -/
def AccountsDb.Typed (typeOf : CreatableIndex → CreatableType) (db : AccountsDb) : Prop :=
  ∀ cidx creator ctype, db.assetcreators.lookup cidx = some (creator, ctype) → ctype = typeOf cidx

section

variable {cidx : CreatableIndex} {cdelta : ModifiedCreatable} (hy : db.Typed typeOf)
  (hct : cdelta.ctype = typeOf cidx) (hok : newRoundCreatable db cidx cdelta = .ok db')
include hy hct hok

/-- The row of a creatable after its delta. -/
theorem newRoundCreatable_lookup :
    db'.accountbase = db.accountbase ∧ db'.round = db.round ∧ ∀ c, db'.assetcreators.lookup c =
      if c = cidx then (if cdelta.created then some (cdelta.creator, cdelta.ctype) else none)
      else db.assetcreators.lookup c := by
  rw [newRoundCreatable] at hok
  split_ifs at hok with hr
  · simp only [bind_ok, failIf_ok, pure_ok] at hok
    obtain ⟨-, -, rfl⟩ := hok
    rw [if_pos hr]
    exact ⟨rfl, rfl, fun c => lookup_upsert _ _ _ _⟩
  · rw [if_neg hr]
    split at hok
    · rename_i hn
      obtain rfl := Except.ok.inj hok
      refine ⟨rfl, rfl, fun c => ?_⟩
      split_ifs with hc
      · rw [hc, hn]
      · rfl
    · rename_i creator ctype hs
      rw [if_pos ((hy _ _ _ hs).trans hct.symm)] at hok
      obtain rfl := Except.ok.inj hok
      exact ⟨rfl, rfl, fun c => lookup_erase' _ _ _⟩

theorem newRoundCreatable_ok :
    db'.Typed typeOf ∧ db'.accountbase = db.accountbase ∧ db'.round = db.round ∧
      ∀ c t, db'.lookupCreator c t =
        if c = cidx then creatorOf cdelta t else db.lookupCreator c t := by
  obtain ⟨hb, hr, hl⟩ := newRoundCreatable_lookup hy hct hok
  refine ⟨fun c cr ct hc => ?_, hb, hr, fun c t => ?_⟩
  · rw [hl] at hc
    split_ifs at hc with he
    · rw [he, ← (Prod.mk.inj (Option.some.inj hc)).2, hct]
    · exact hy c cr ct hc
  · rw [lookupCreator, hl]
    by_cases hc : c = cidx
    · rw [if_pos hc, if_pos hc, creatorOf]
      cases cdelta.created <;> simp
    · rw [if_neg hc, if_neg hc]
      rfl

end

theorem newRoundCreatables_ok {l : List (Σ _ : CreatableIndex, Tracked ModifiedCreatable)}
    (hd : l.NodupKeys) (hy : db.Typed typeOf) (hct : ∀ e ∈ l, e.2.value.ctype = typeOf e.1)
    (hok : l.foldlM (fun db e => newRoundCreatable db e.1 e.2.value) db = .ok db') :
    db'.Typed typeOf ∧ db'.accountbase = db.accountbase ∧ db'.round = db.round ∧
      ∀ c t, db'.lookupCreator c t =
        match l.dlookup c with
        | none => db.lookupCreator c t
        | some tr => creatorOf tr.value t := by
  induction l generalizing db with
  | nil =>
    obtain rfl := Except.ok.inj hok
    exact ⟨hy, rfl, rfl, fun _ _ => rfl⟩
  | cons e l ih =>
    obtain ⟨cd, tr⟩ := e
    obtain ⟨hn, hd⟩ := nodupKeys_cons.mp hd
    obtain ⟨ht, hct⟩ := forall_mem_cons.mp hct
    obtain ⟨_, ho, hr⟩ := bind_ok.mp hok
    obtain ⟨ht1, hb1, hr1, hc1⟩ := newRoundCreatable_ok hy ht ho
    obtain ⟨ht2, hb2, hr2, hc2⟩ := ih hd ht1 hct hr
    refine ⟨ht2, hb2.trans hb1, hr2.trans hr1, fun c t => ?_⟩
    rw [hc2 c t]
    by_cases hc : c = cd
    · subst hc
      rw [dlookup_eq_none.mpr hn, dlookup_cons_eq]
      rw [hc1, if_pos rfl]
    · rw [dlookup_cons_ne _ _ hc]
      cases l.dlookup c with
      | none =>
        rw [hc1, if_neg hc]
      | some tr => rfl

/-! ### The transaction -/

/-- The database holds a state. -/
structure AccountsDb.Holds (typeOf : CreatableIndex → CreatableType) (db : AccountsDb)
    (st : RoundState) : Prop where
  rows : db.Rows
  typed : db.Typed typeOf
  account : ∀ addr, db.accountOf addr = st.account addr
  creator : ∀ cidx ctype, db.lookupCreator cidx ctype = st.creator cidx ctype

/-- A commit of the blocks, with old row ids that are those of the database. -/
structure DeferredCommit.Of (dcc : DeferredCommit) (db : AccountsDb) (blocks : List TrackedBlock) :
    Prop where
  accounts : ∃ cache, dcc.compactAccountDeltas =
    makeCompactAccountDeltas (blocks.map TrackedBlock.accts) cache
  creatables : dcc.compactCreatableDeltas = compact (blocks.map TrackedBlock.creatables)
  rowid : ∀ u ∈ dcc.compactAccountDeltas, ∀ old, u.2.old = some old → old.rowid = db.rowidOf u.1

/-- The creatables of a block have the types of their indices. -/
def TrackedBlock.Typed (typeOf : CreatableIndex → CreatableType) (blk : TrackedBlock) : Prop :=
  ∀ cidx cdelta, blk.creatables.lookup cidx = some cdelta → cdelta.ctype = typeOf cidx

theorem lastOf_mem {K V : Type*} [DecidableEq K] {log : List (Dict K V)} {k : K} {v : V}
    (h : lastOf log k = some v) : ∃ d ∈ log, d.lookup k = some v := by
  obtain ⟨d, hd, hv⟩ := exists_of_findSome?_eq_some h
  exact ⟨d, mem_reverse.mp hd, hv⟩

variable {cache : List PersistedAccountData} {deltas : List (Dict Address AccountData)}

theorem mem_makeCompactAccountDeltas {u : Address × AccountDelta} :
    u ∈ makeCompactAccountDeltas deltas cache →
      lastOf deltas u.1 = some u.2.new ∧ u.2.ndeltas = count deltas u.1 ∧
        u.2.old = Lru.read PersistedAccountData.addr cache u.1 := by
  intro hu
  obtain ⟨⟨addr, _⟩, he, rfl⟩ := mem_map.mp hu
  obtain ⟨hv, hc⟩ := of_mem_compact he
  exact ⟨hv, hc, rfl⟩

theorem mem_keys_makeCompactAccountDeltas :
    addr ∈ (makeCompactAccountDeltas deltas cache).map Prod.fst ↔ lastOf deltas addr ≠ none := by
  rw [← mem_compact, makeCompactAccountDeltas, map_map]
  exact Iff.rfl

theorem nodup_makeCompactAccountDeltas (deltas : List (Dict Address AccountData))
    (cache : List PersistedAccountData) :
    ((makeCompactAccountDeltas deltas cache).map Prod.fst).Nodup := by
  rw [makeCompactAccountDeltas, map_map]
  exact keys_nodup (compact deltas)

variable {st : RoundState} {dcc dcc' : DeferredCommit} {blocks : List TrackedBlock}

/-- The updates of a commit, with the old row ids. -/
def DeferredCommit.updates (dcc : DeferredCommit) (db : AccountsDb) :
    List (Address × ℕ × AccountData) :=
  dcc.compactAccountDeltas.map fun u => (u.1, loadOld db u.1 u.2.old, u.2.new)

theorem DeferredCommit.updates_fst (dcc : DeferredCommit) (db : AccountsDb) :
    (dcc.updates db).map Prod.fst = dcc.compactAccountDeltas.map Prod.fst := by
  rw [updates, map_map]
  rfl

theorem DeferredCommit.Of.nodup_updates (h : dcc.Of db blocks) :
    ((dcc.updates db).map Prod.fst).Nodup := by
  obtain ⟨_, ha⟩ := h.accounts
  rw [dcc.updates_fst, ha]
  exact nodup_makeCompactAccountDeltas _ _

theorem DeferredCommit.Of.rowid_updates (h : dcc.Of db blocks) :
    ∀ u ∈ dcc.updates db, u.2.1 = db.rowidOf u.1 := by
  intro u hu
  obtain ⟨v, hv, rfl⟩ := mem_map.mp hu
  cases hl : v.2.old with
  | none => rfl
  | some old => exact h.rowid v hv old hl

/-- A commit without creatables goes through. -/
theorem commitRound_exists (h : db.Rows) (hd : dcc.Of db blocks)
    (hn : dcc.compactCreatableDeltas.entries = []) (hr : db.round ≤ dcc.newBase) :
    ∃ res, commitRound db dcc = .ok res := by
  obtain ⟨db1, wr, hl, ha⟩ :=
    newRoundAccounts_spec h hd.nodup_updates hd.rowid_updates
  refine ⟨({ db1 with round := dcc.newBase },
    { dcc with updatedPersistedAccounts := [] ++ wr }), ?_⟩
  simp only [commitRound, bind_ok, failIf_ok, pure_ok]
  refine ⟨(db1, [] ++ wr), hl, db1, ?_, (), ?_, rfl⟩
  · rw [hn]
    rfl
  · rw [ha.round]
    omega

/-- What a committed transaction leaves. -/
structure Committed (typeOf : CreatableIndex → CreatableType) (db db' : AccountsDb) (st : RoundState)
    (dcc dcc' : DeferredCommit) (blocks : List TrackedBlock) : Prop where
  holds : db'.Holds typeOf (blocks.foldl RoundState.apply st)
  round : db'.round = dcc.newBase
  same : dcc' = { dcc with updatedPersistedAccounts := dcc'.updatedPersistedAccounts }
  other : ∀ addr, lastOf (blocks.map TrackedBlock.accts) addr = none →
    db'.rowidOf addr = db.rowidOf addr
  written : ∀ addr, lastOf (blocks.map TrackedBlock.accts) addr ≠ none →
    ∃ acct ∈ dcc'.updatedPersistedAccounts, acct.addr = addr
  updated : ∀ acct ∈ dcc'.updatedPersistedAccounts, acct.round = dcc.newBase ∧
    acct.accountData = db'.accountOf acct.addr ∧ acct.rowid = db'.rowidOf acct.addr ∧
      lastOf (blocks.map TrackedBlock.accts) acct.addr ≠ none

theorem commitRound_ok (h : db.Holds typeOf st) (h1 : dcc.Of db blocks)
    (hy : ∀ blk ∈ blocks, blk.Typed typeOf) (hok : commitRound db dcc = .ok (db', dcc')) :
    Committed typeOf db db' st dcc dcc' blocks := by
  obtain ⟨_, h5⟩ := h1.accounts
  simp only [commitRound, bind_ok, failIf_ok, pure_ok] at hok
  obtain ⟨⟨_, _⟩, hp, db2, hc, -, -, hq⟩ := hok
  obtain ⟨rfl, rfl⟩ := Prod.mk.inj hq
  have hk : ∀ addr, addr ∈ (dcc.updates db).map Prod.fst ↔
      lastOf (blocks.map TrackedBlock.accts) addr ≠ none := by
    intro addr
    rw [dcc.updates_fst, h5]
    exact mem_keys_makeCompactAccountDeltas
  have hn : ∀ u ∈ dcc.updates db, lastOf (blocks.map TrackedBlock.accts) u.1 = some u.2.2 := by
    intro u hu
    obtain ⟨v, hv, rfl⟩ := mem_map.mp hu
    rw [h5] at hv
    exact (mem_makeCompactAccountDeltas hv).1
  obtain ⟨db1, written, hl', ha⟩ := newRoundAccounts_spec h.rows h1.nodup_updates h1.rowid_updates
  obtain ⟨rfl, rfl⟩ := Prod.mk.inj (Except.ok.inj (hl'.symm.trans hp))
  have ht1 : db1.Typed typeOf := by
    intro cd creator ct
    rw [ha.assetcreators]
    exact h.typed cd creator ct
  obtain ⟨ht2, h3, _, ht⟩ := newRoundCreatables_ok
    dcc.compactCreatableDeltas.nodupKeys ht1 (fun e he => by
      rw [h1.creatables] at he
      obtain ⟨d, hd, hv⟩ := lastOf_mem (of_mem_compact he).1
      obtain ⟨blk, hb, rfl⟩ := mem_map.mp hd
      exact hy blk hb e.1 _ hv) hc
  have hs : ∀ addr, ({ db2 with round := dcc.newBase } : AccountsDb).select addr =
      db1.select addr := fun addr => by rw [select, select, ← h3]
  have hacc : ∀ addr, ({ db2 with round := dcc.newBase } : AccountsDb).accountOf addr =
      db1.accountOf addr := fun addr => by rw [accountOf, accountOf, hs]
  have hr : ∀ addr, ({ db2 with round := dcc.newBase } : AccountsDb).rowidOf addr =
      db1.rowidOf addr := fun addr => by rw [rowidOf, rowidOf, hs]
  refine ⟨⟨?_, ht2, ?_, ?_⟩, rfl, rfl, ?_, ?_, ?_⟩
  · exact ⟨h3 ▸ ha.rows.unique, h3 ▸ ha.rows.pos⟩
  · intro addr
    rw [hacc, RoundState.account_foldl]
    by_cases h2 : addr ∈ (dcc.updates db).map Prod.fst
    · obtain ⟨u, hu, rfl⟩ := mem_map.mp h2
      obtain ⟨ac, -, hw⟩ := ha.written u hu
      rw [hw.account, hn u hu]
      rfl
    · rw [not_not.mp ((hk addr).not.mp h2), accountOf, ha.other addr h2]
      exact h.account addr
  · intro cd ct
    rw [RoundState.creator_foldl]
    refine (ht cd ct).trans ?_
    have hl := tracks_compact (blocks.map TrackedBlock.creatables) cd
    rw [← h1.creatables, summary] at hl
    change dcc.compactCreatableDeltas.entries.dlookup cd = _ at hl
    rw [hl]
    cases lastOf (blocks.map TrackedBlock.creatables) cd with
    | none =>
      refine Eq.trans ?_ (h.creator cd ct)
      show db1.lookupCreator cd ct = _
      rw [lookupCreator, lookupCreator, ha.assetcreators]
    | some _ => rfl
  · intro addr h6
    rw [hr, rowidOf, rowidOf, ha.other addr]
    exact fun h2 => (hk addr).mp h2 h6
  · intro addr hm
    obtain ⟨u, hu, rfl⟩ := mem_map.mp ((hk addr).mpr hm)
    obtain ⟨ac, h4, hw⟩ := ha.written u hu
    exact ⟨ac, h4, hw.addr⟩
  · intro ac h4
    obtain ⟨u, hu, hw⟩ := ha.only ac h4
    rw [hacc, hr, hw.addr]
    exact ⟨hw.round, hw.accountData.trans hw.account.symm, hw.rowid,
      (hk u.1).mp (mem_map_of_mem hu)⟩

end Novarand.Ledger
