import Novarand.Lib.Total
import Novarand.Ledger.Calls
import Novarand.Ledger.CowRefine

/-!
# Application storage

The values of an application are kept apart from the records of its accounts until the end of the block.
Three things hold all the time: the counts of a storage are the numbers of its values, its record in
the account has the values the changes are laid over, and a storage within its schema stays within
it. So at the end of the block the storage deltas can be applied to the accounts in any order, and give
them the values that the lookups report.
-/

namespace Novarand.Ledger

open List Function Dict StorageDelta Option TealValue Except

variable {x : BlockContext} {busy : List AppIndex} {w w' : World} {s s0 : StoragePtr}

/-! ## Counts -/

variable (isType : TealValue → Bool)

/-- One for a value of the type, zero for another or none. -/
def valueCount (o : Option TealValue) : ℕ := if o.any isType then 1 else 0

/-- The number of values of the type. -/
noncomputable def numOf (kv : Bytes → Option TealValue) : ℕ :=
  sumOf (valueCount isType) kv

def TealValue.isBytes (v : TealValue) : Bool := !v.isUint

theorem numOf_lookup (kv : TealKeyValue) :
    numOf isType (fun key => kv.lookup key) = (values kv).countP isType := by
  refine (sumOf_lookup kv rfl).trans ?_
  induction values kv with
  | nil => rfl
  | cons v _ ih =>
    rw [map_cons, sum_cons, countP_cons, ih, Nat.add_comm]
    rfl

theorem numOf_update {kv : Bytes → Option TealValue} (h : AlmostAll none kv)
    (isType : TealValue → Bool) (key : Bytes) (value : Option TealValue) :
    numOf isType (update kv key value) + valueCount isType (kv key) =
      numOf isType kv + valueCount isType value :=
  sumOf_update h rfl key value

theorem decrement_add_one {n : ℕ} (h : 1 ≤ n) : decrement n + 1 = n := by
  unfold decrement
  rw [if_neg (by omega)]
  omega

theorem StateSchema.count_eq (counts : StateSchema) (o : Option TealValue) :
    (counts.count o).numUint = counts.numUint + valueCount isUint o ∧
      (counts.count o).numByteSlice = counts.numByteSlice + valueCount isBytes o := by
  rcases o with _ | ⟨_⟩ | ⟨_⟩ <;> exact ⟨rfl, rfl⟩

variable {st : Store} {counts limits space : StateSchema}

namespace Store

/-- The counts are the numbers of values. -/
structure Tallied (st : Store) : Prop where
  finite : AlmostAll none st.kv
  numUint : st.counts.numUint = numOf isUint st.kv
  numByteSlice : st.counts.numByteSlice = numOf isBytes st.kv

theorem Tallied.new (space : StateSchema) : (new space).Tallied := by
  have hz : ∀ it, 0 = numOf it fun _ => none := fun it =>
    ((numOf_lookup it ∅).trans rfl).symm
  exact ⟨almostAll_lookup ∅, hz _, hz _⟩

/-- The value of a key is one of those counted, and no longer is. -/
theorem Tallied.uncount (h : st.Tallied) (key : Bytes) :
    (st.counts.uncount (st.kv key)).numUint + valueCount isUint (st.kv key) =
        st.counts.numUint ∧
      (st.counts.uncount (st.kv key)).numByteSlice + valueCount isBytes (st.kv key) =
        st.counts.numByteSlice := by
  have hu : valueCount isUint (st.kv key) ≤ st.counts.numUint :=
    h.numUint ▸ le_sumOf h.finite rfl key
  have hb : valueCount isBytes (st.kv key) ≤ st.counts.numByteSlice :=
    h.numByteSlice ▸ le_sumOf h.finite rfl key
  match st.kv key, hu, hb with
  | none, _, _ => exact ⟨rfl, rfl⟩
  | some (.uint _), hu, _ => exact ⟨decrement_add_one hu, rfl⟩
  | some (.bytes _), _, hb => exact ⟨rfl, decrement_add_one hb⟩

theorem Tallied.write (h : st.Tallied) (limits : StateSchema) (key : Bytes)
    (value : Option TealValue) : (st.write limits key value).Tallied := by
  have hu := numOf_update h.finite isUint key value
  have hb := numOf_update h.finite isBytes key value
  obtain ⟨_, _⟩ := h.uncount key
  obtain ⟨_, _⟩ := (st.counts.uncount (st.kv key)).count_eq value
  have hn := h.numUint
  have hn' := h.numByteSlice
  refine ⟨h.finite.update key value, ?_, ?_⟩
  · show ((st.counts.uncount (st.kv key)).count value).numUint =
      numOf isUint (update st.kv key value)
    omega
  · show ((st.counts.uncount (st.kv key)).count value).numByteSlice =
      numOf isBytes (update st.kv key value)
    omega

/-- The counts do not exceed the schema. -/
def Within (st : Store) : Prop :=
  ∃ limits, st.limits = .ok limits ∧ st.counts.numUint ≤ limits.numUint ∧
    st.counts.numByteSlice ≤ limits.numByteSlice

theorem checkCounts_ok (h : counts.checkCounts limits = .ok ()) :
    counts.numUint ≤ limits.numUint ∧ counts.numByteSlice ≤ limits.numByteSlice := by
  unfold StateSchema.checkCounts at h
  by_cases hu : counts.numUint > limits.numUint
  · rw [if_pos hu] at h
    cases h
  · by_cases hb : counts.numByteSlice > limits.numByteSlice
    · rw [if_neg hu, if_pos hb] at h
      cases h
    · exact ⟨not_lt.mp hu, not_lt.mp hb⟩

/-- A write that passes the check is within the schema, and deleting a key counts less. -/
theorem Within.write (ht : st.Tallied) (key : Bytes) (value : Option TealValue)
    (hl : st.limits = .ok limits)
    (hc : value.isSome → (st.write limits key value).counts.checkCounts limits = .ok ())
    (h : value.isSome ∨ st.Within) : (st.write limits key value).Within := by
  cases value with
  | some v =>
    obtain ⟨hu, hb⟩ := checkCounts_ok (hc rfl)
    exact ⟨limits, rfl, hu, hb⟩
  | none =>
    obtain ⟨lm', hl', hu, hb⟩ := h.resolve_left (fun hs => by cases hs)
    obtain rfl := ok.inj (hl'.symm.trans hl)
    obtain ⟨_, _⟩ := ht.uncount key
    refine ⟨lm', rfl, ?_, ?_⟩
    · show (st.counts.uncount (st.kv key)).numUint ≤ _
      omega
    · show (st.counts.uncount (st.kv key)).numByteSlice ≤ _
      omega

end Store

variable {o parent : Option Store}

namespace World

variable {num : Prop}

/-- The counts of every storage are the numbers of its values. -/
def Tallied (w : World) : Prop := ∀ s st, w.store s = some st → st.Tallied

section Stores

variable {P : StoragePtr → Store → Prop}

section

variable (h : ∀ s st, w.store s = some st → P s st)
include h

theorem stores_update (hr : w'.store = update w.store s o) (ho : ∀ st, o = some st → P s st) :
    ∀ s st, w'.store s = some st → P s st := by
  intro s' st ht
  rw [hr, update_apply] at ht
  by_cases hs : s' = s
  · subst hs
    rw [if_pos rfl] at ht
    exact ho st ht
  · rw [if_neg hs] at ht
    exact h s' st ht

theorem stores_alloc (hn : ∀ s space, P s (.new space))
    (hs : w'.store = update w.store s (some (.new space))) :
    ∀ s st, w'.store s = some st → P s st := by
  refine stores_update h hs fun st ht => ?_
  obtain rfl := Option.some.inj ht
  exact hn s space

theorem stores_dealloc (hs : w'.store = update w.store s none) :
    ∀ s st, w'.store s = some st → P s st :=
  stores_update h hs fun st ht => by cases ht

/-- What holds of new storage, and is kept when storage is written, holds of all storage. -/
theorem Step.stores (hn : ∀ s space, P s (.new space))
    (hw : ∀ {s st limits} key (value : Option TealValue), P s st → st.limits = .ok limits →
      (value.isSome → (st.write limits key value).counts.checkCounts limits = .ok ()) →
      P s (st.write limits key value)) (hp : Step x num busy w w') :
    ∀ s st, w'.store s = some st → P s st := by
  cases hp with
  | createApp | optInApp => exact stores_alloc h hn rfl
  | deleteApp | closeOutApp => exact stores_dealloc h rfl
  | write ht hl hc =>
    refine stores_update h rfl fun st' hs' => ?_
    obtain rfl := Option.some.inj hs'
    exact hw _ _ (h _ _ ht) hl hc
  | transferAsset _ _ hw₁ _ =>
    subst hw₁
    exact h
  | _ => exact h

end

end Stores

theorem Tallied.step (h : w.Tallied) (hs : Step x num busy w w') : w'.Tallied :=
  hs.stores h (fun _ => .new) fun key value ht _ _ => ht.write _ key value

theorem Tallied.steps (h : w.Tallied) (hs : Steps x num busy w w') : w'.Tallied :=
  hs.invariant (fun _ _ hp h => h.step hp) h

/-- The storage, if it is allocated, does not exceed its schema. -/
def Within (s : StoragePtr) (w : World) : Prop := ∀ st, w.store s = some st → st.Within

/-- A storage within its schema stays within it. -/
theorem Within.step (h : w.Within s) (ht : w.Tallied) (hp : Step x num busy w w') :
    w'.Within s := by
  -- the counts are right in all storage, and within the schema in this one
  refine fun st h1 => (hp.stores (P := fun s' st => st.Tallied ∧ (s' = s → st.Within)) ?_ ?_ ?_
    s st h1).2 rfl
  · rintro s' st h1
    exact ⟨ht s' st h1, fun hs => h st (hs ▸ h1)⟩
  · exact fun s' sp => ⟨.new sp, fun _ => ⟨sp, rfl, Nat.zero_le _, Nat.zero_le _⟩⟩
  · rintro s' st lm key vl ⟨ht, h⟩ hl hc
    exact ⟨ht.write lm key vl, fun hs => .write ht key vl hl hc (.inr (h hs))⟩

theorem Within.steps (h : w.Within s) (ht : w.Tallied) (hs : Steps x num busy w w') :
    w'.Within s := by
  induction hs with
  | refl => exact h
  | tail hr hp ih => exact ih.step (ht.steps hr) hp

end World

/-! ## The records in the accounts -/

namespace AccountData

variable {u u' : AccountData} {s' : StoragePtr}

theorem storage_congr (hs : u'.appLocalStates = u.appLocalStates)
    (hp : u'.appParams = u.appParams) : u'.storage s = u.storage s := by
  unfold storage
  rw [hs, hp]

theorem storage_global (hs : s.global = true) :
    u.storage s = (u.appParams.lookup s.aidx).map (·.globalState) := if_pos hs

theorem storage_local (hs : s.global = false) :
    u.storage s = (u.appLocalStates.lookup s.aidx).map (·.keyValue) := by
  unfold storage
  rw [hs]
  rfl

/-- A change of the parameters of one application is a change of one storage. -/
theorem storage_of_params {i : AppIndex} {o : Option AppParams}
    (hl : ∀ j, u'.appParams.lookup j = if j = i then o else u.appParams.lookup j)
    (ht : u'.appLocalStates = u.appLocalStates) :
    u'.storage s = if s.aidx = i ∧ s.global then o.map (·.globalState) else u.storage s := by
  cases hs : s.global with
  | true =>
    rw [storage_global hs, storage_global hs, hl]
    by_cases hi : s.aidx = i
    · rw [if_pos hi, if_pos ⟨hi, rfl⟩]
    · rw [if_neg hi, if_neg fun h => hi h.1]
  | false =>
    rw [storage_local hs, storage_local hs, ht, if_neg fun h => Bool.noConfusion h.2]

/-- A change of the local state of one application is a change of one storage. -/
theorem storage_of_states {i : AppIndex} {o : Option AppLocalState}
    (hl : ∀ j, u'.appLocalStates.lookup j = if j = i then o else u.appLocalStates.lookup j)
    (hp : u'.appParams = u.appParams) :
    u'.storage s = if s.aidx = i ∧ s.global = false then o.map (·.keyValue) else u.storage s := by
  cases hs : s.global with
  | true =>
    rw [storage_global hs, storage_global hs, hp, if_neg fun h => Bool.noConfusion h.2]
  | false =>
    rw [storage_local hs, storage_local hs, hl]
    by_cases hi : s.aidx = i
    · rw [if_pos hi, if_pos ⟨hi, rfl⟩]
    · rw [if_neg hi, if_neg fun h => hi h.1]

end AccountData

open AccountData

namespace World

/-- Every allocated storage, and no other, has a record in its account, with the values that the
changes are laid over. -/
def Coherent (w : World) : Prop := ∀ s, (w.account s.addr).storage s = (w.store s).map (·.init)

theorem Coherent.congr (h : w.Coherent) (hs : w'.store = w.store)
    (ht : ∀ a, (w'.account a).appLocalStates = (w.account a).appLocalStates)
    (hp : ∀ a, (w'.account a).appParams = (w.account a).appParams) : w'.Coherent := by
  intro s
  rw [hs, storage_congr (ht s.addr) (hp s.addr)]
  exact h s

theorem SameHoldings.coherent (hs : SameHoldings w w') (h : w.Coherent) : w'.Coherent :=
  h.congr hs.store (fun a => (hs.account a).2.2.1) fun a => (hs.account a).2.2.2

variable {a : Address} {u : AccountData} {i : AppIndex} {o : Option Store}

section

variable (h : w.Coherent)
include h

/-- A change of one account that keeps all its storage. -/
theorem Coherent.put (hu : ∀ s, u.storage s = (w.account a).storage s) : (w.put a u).Coherent := by
  intro s
  rw [put_account]
  by_cases ha : s.addr = a
  · rw [if_pos ha, hu, ← ha]
    exact h s
  · rw [if_neg ha]
    exact h s

theorem Coherent.put_apps (hs : u.appLocalStates = (w.account a).appLocalStates)
    (hp : u.appParams = (w.account a).appParams) : (w.put a u).Coherent :=
  h.put fun _ => storage_congr hs hp

/-- A change of the parameters of an application that keeps its global state. -/
theorem Coherent.put_params {params : Option AppParams} (hl : ∀ j, u.appParams.lookup j =
      if j = i then params else (w.account a).appParams.lookup j)
    (ht : u.appLocalStates = (w.account a).appLocalStates)
    (hm : params.map (·.globalState) =
      ((w.account a).appParams.lookup i).map (·.globalState)) : (w.put a u).Coherent := by
  refine h.put fun s => ?_
  rw [storage_of_params hl ht]
  by_cases hs : s.aidx = i ∧ s.global = true
  · rw [if_pos hs, storage_global hs.2, hs.1]
    exact hm
  · rw [if_neg hs]

/-- A change of one storage and of its record. -/
theorem Coherent.slot (hc : w'.account = update w.account s0.addr u)
    (ht : w'.store = update w.store s0 o)
    (hu : ∀ s, u.storage s = if s.aidx = s0.aidx ∧ s.global = s0.global then o.map (·.init)
      else (w.account s0.addr).storage s) : w'.Coherent := by
  intro s
  rw [hc, ht, update_apply, update_apply]
  by_cases hs : s = s0
  · subst hs
    rw [if_pos rfl, if_pos rfl, hu, if_pos ⟨rfl, rfl⟩]
  · rw [if_neg hs]
    by_cases ha : s.addr = s0.addr
    · rw [if_pos ha, hu, if_neg fun h => hs (StoragePtr.ext ha h.1 h.2), ← ha]
      exact h s
    · rw [if_neg ha]
      exact h s

/-- Steps keep storage and records together. -/
theorem Coherent.step (h1 : Step x True busy w w') : w'.Coherent := by
  cases h1 with
  | move hu ha hv _ => exact (SameHoldings.move hu hv).coherent h
  | edit hu => exact (SameHoldings.edit hu).coherent h
  | @close _ _ _ _ h2 hp =>
    refine h.put fun s => ?_
    cases hs : s.global with
    | true =>
      rw [storage_global hs, storage_global hs, lookup_of_keys_eq_nil hp]
      rfl
    | false =>
      rw [storage_local hs, storage_local hs, lookup_of_keys_eq_nil h2]
      rfl
  | createAsset | configAsset | destroyAsset | optInAsset | dropHolding | freezeAsset =>
    exact h.put_apps rfl rfl
  | transferAsset _ ha hw₁ _ =>
    subst hw₁
    refine put_apps ?_ rfl rfl
    exact h.put_apps rfl rfl
  | createApp _ he hn =>
    refine h.slot rfl rfl fun s => ?_
    rw [storage_of_params (lookup_upsert _ · _ _) (by rfl), map_some, he]
    rfl
  | deleteApp _ _ =>
    exact h.slot rfl rfl fun _ => storage_of_params (o := none) (lookup_erase' _ · _) (by rfl)
  | @updateApp _ i _ _ hx =>
    -- the record is there, and keeps its global state
    obtain ⟨params, hp⟩ := isSome_iff_exists.mp (hx trivial)
    refine h.put_params (i := i) (fun j => lookup_upsert _ j _ _) rfl ?_
    rw [Dict.getD, hp]
    rfl
  | optInApp _ hn =>
    refine h.slot rfl rfl fun s => ?_
    rw [storage_of_states (lookup_upsert _ · _ _) (by rfl)]
    rfl
  | closeOutApp =>
    exact h.slot rfl rfl fun _ => storage_of_states (o := none) (lookup_erase' _ · _) (by rfl)
  | @write s' st lm key vl ht _ _ =>
    intro s
    show _ = (update w.store s' (some (st.write lm key vl)) s).map _
    rw [update_apply]
    by_cases hs : s = s'
    · subst hs
      rw [if_pos rfl]
      exact (h s).trans (by rw [ht]; rfl)
    · rw [if_neg hs]
      exact h s
  | count => exact h

theorem Coherent.steps (hs : Steps x True busy w w') : w'.Coherent :=
  hs.invariant (fun _ _ hp h => h.step hp) h

end

end World

open World

/-! ## The ledger before the block -/

namespace Cow

variable (b : RoundCowBase)

/-- The storage of the ledger is the one recorded in the accounts. -/
theorem store_base (s : StoragePtr) :
    (base b).store s = ((b.accounts.getD s.addr {}).storage s).map fun kv =>
      { kv := fun key => kv.lookup key
        counts := kv.schema
        limits := (base b).getStorageLimits s
        init := kv } := by
  unfold store
  cases hk : (b.accounts.getD s.addr {}).storage s with
  | none =>
    have ha : (base b).allocated s = false := by simp [allocated, hk]
    rw [ha]
    rfl
  | some kv =>
    have ha : (base b).allocated s = true := by simp [allocated, hk]
    rw [ha]
    simp only [getKey, getStorageCounts, origin, hk, map_some, getD_some]
    rfl

theorem tallied_base : (base b).view.Tallied := by
  intro s _ hs
  have hr := (store_base b s).symm.trans hs
  obtain ⟨kv, -, rfl⟩ := map_eq_some_iff.mp hr
  exact ⟨almostAll_lookup kv, (numOf_lookup isUint kv).symm, (numOf_lookup isBytes kv).symm⟩

theorem coherent_base : (base b).view.Coherent := by
  intro s
  show (b.accounts.getD s.addr {}).storage s = ((base b).store s).map _
  rw [store_base, Option.map_map]
  exact map_id'.symm

end Cow

/-! ## Applying storage deltas -/

/-- The value of a key after the loop over the changed keys. -/
theorem lookup_foldl_new {es : List (Σ _ : Bytes, ValueDelta)} (he : es.NodupKeys)
    (kv : TealKeyValue) (key : Bytes) :
    AList.lookup key (es.foldl (fun kv e =>
      match e.2.new with
      | none => kv.erase e.1
      | some v => upsert kv e.1 v) kv) =
      match es.dlookup key with
      | some vdelta => vdelta.new
      | none => kv.lookup key := by
  induction es generalizing kv with
  | nil => rfl
  | cons e es ih =>
    obtain ⟨k, vdelta⟩ := e
    obtain ⟨ho, hd⟩ := nodupKeys_cons.mp he
    rw [foldl_cons, ih hd]
    by_cases hk : key = k
    · subst hk
      rw [dlookup_eq_none.mpr ho]
      cases hn : vdelta.new with
      | none => simp [hn]
      | some v => simp [hn, lookup_upsert]
    · rw [dlookup_cons_ne _ _ hk]
      cases es.dlookup key with
      | some _ => rfl
      | none =>
        cases vdelta.new with
        | none => simp [hk]
        | some v => simp [lookup_upsert, hk]

/-- The value of a key after a delta was applied. -/
theorem StorageDelta.lookup_applyTo (store : StorageDelta) (kv : TealKeyValue) (key : Bytes)
    (hk : store.action = .alloc → kv = ∅) :
    (store.applyTo kv).lookup key =
      match store.kvCow.lookup key with
      | some vdelta => vdelta.new
      | none => kv.lookup key := by
  have hs : (if store.action = .alloc ∧ store.kvCow.keys ≠ [] then ∅ else kv) = kv := by
    by_cases h : store.action = .alloc ∧ store.kvCow.keys ≠ []
    · rw [if_pos h, hk h.1]
    · rw [if_neg h]
  unfold applyTo
  rw [hs]
  exact lookup_foldl_new store.kvCow.nodupKeys kv key

/-- The record of a storage after its delta was applied. -/
def StorageDelta.applied (store : StorageDelta) (kv : Option TealKeyValue) : Option TealKeyValue :=
  if store.action = .dealloc then none else kv.map store.applyTo

variable {store : StorageDelta}

/-- A delta is applied to its own record only; the record of storage that is not freed must be there. -/
theorem applyStorageDelta_ok {data : AccountData}
    (h : store.action ≠ .dealloc → (data.storage s).isSome) :
    ∃ data', applyStorageDelta data s store = .ok data' ∧ ∀ s', data'.storage s' =
      if s'.aidx = s.aidx ∧ s'.global = s.global then store.applied (data.storage s)
      else data.storage s' := by
  unfold applyStorageDelta applied
  by_cases hf : store.action = .dealloc
  · rw [hf]
    cases hg : s.global with
    | true =>
      refine ⟨{ data with appParams := data.appParams.erase s.aidx }, rfl, ?_⟩
      exact fun s => storage_of_params (o := none) (lookup_erase' _ · _) rfl
    | false =>
      refine ⟨{ data with appLocalStates := data.appLocalStates.erase s.aidx }, rfl, ?_⟩
      exact fun s => storage_of_states (o := none) (lookup_erase' _ · _) rfl
  · rw [if_neg hf]
    obtain ⟨_, hk⟩ := isSome_iff_exists.mp (h hf)
    cases hg : s.global with
    | true =>
      rw [storage_global hg] at hk ⊢
      obtain ⟨pr, hp, rfl⟩ := map_eq_some_iff.mp hk
      rw [hp]
      refine ⟨{ data with
        appParams := data.appParams.upsert s.aidx
          { pr with globalState := store.applyTo pr.globalState } }, ?_, ?_⟩
      · cases ha : store.action with
        | dealloc => exact absurd ha hf
        | alloc => rfl
        | remainAlloc => rfl
      · exact fun s => .trans
          (storage_of_params (u := data) (lookup_upsert _ · _ _) rfl) rfl
    | false =>
      rw [storage_local hg] at hk ⊢
      obtain ⟨st, hs, rfl⟩ := map_eq_some_iff.mp hk
      rw [hs]
      refine ⟨{ data with
        appLocalStates := data.appLocalStates.upsert s.aidx
          { st with keyValue := store.applyTo st.keyValue } }, ?_, ?_⟩
      · cases ha : store.action with
        | dealloc => exact absurd ha hf
        | alloc => rfl
        | remainAlloc => rfl
      · exact fun s => .trans
          (storage_of_states (u := data) (lookup_upsert _ · _ _) rfl) rfl

namespace Cow

variable {p c : Cow} {b : RoundCowBase} {order : List (Σ _ : StoragePtr, StorageDelta)}
  {accts accounts : Dict Address AccountData}

/-- The loop of `deltas` over storage deltas whose records are there. -/
theorem storedAccounts_ok (h1 : order.NodupKeys) (h : ∀ e ∈ order, e.2.action ≠ .dealloc →
      ((accts.getD e.1.addr (p.lookup e.1.addr)).storage e.1).isSome) :
    ∃ accts', storedAccounts p order accts = .ok accts' ∧
      ∀ s, (accts'.getD s.addr (p.lookup s.addr)).storage s =
        match order.dlookup s with
        | some store => store.applied ((accts.getD s.addr (p.lookup s.addr)).storage s)
        | none => (accts.getD s.addr (p.lookup s.addr)).storage s := by
  induction order generalizing accts with
  | nil => exact ⟨accts, rfl, fun s => rfl⟩
  | cons e order ih =>
    obtain ⟨s0, store⟩ := e
    obtain ⟨hn, h1⟩ := nodupKeys_cons.mp h1
    obtain ⟨hh, ht⟩ := forall_mem_cons.mp h
    obtain ⟨dt, hp, hd⟩ := applyStorageDelta_ok hh
    -- the other records are as they were
    have ho : ∀ s, s ≠ s0 →
        ((accts.upsert s0.addr dt).getD s.addr (p.lookup s.addr)).storage s =
          (accts.getD s.addr (p.lookup s.addr)).storage s := by
      intro s hs
      rw [Dict.getD, lookup_upsert]
      by_cases ha : s.addr = s0.addr
      · have hl : ¬(s.aidx = s0.aidx ∧ s.global = s0.global) := fun h =>
          hs (StoragePtr.ext ha h.1 h.2)
        rw [if_pos ha, getD_some, hd, if_neg hl, ha]
      · rw [if_neg ha]
        rfl
    have hm : ∀ e ∈ order, e.1 ≠ s0 := fun e he hq =>
      absurd (mem_keys_of_mem he) (hq ▸ hn)
    have h2 : ∀ e ∈ order, e.2.action ≠ .dealloc →
        (((accts.upsert s0.addr dt).getD e.1.addr (p.lookup e.1.addr)).storage e.1).isSome := by
      intro e he hf
      rw [ho e.1 (hm e he)]
      exact ht e he hf
    obtain ⟨accts', hr, ha'⟩ := ih h1 h2
    refine ⟨accts', ?_, fun s => ?_⟩
    · simp only [storedAccounts, hp, ok_bind]
      exact hr
    · rw [ha' s]
      by_cases hs : s = s0
      · subst hs
        rw [dlookup_cons_eq, dlookup_eq_none.mpr hn]
        simp only [Dict.getD, lookup_upsert, if_true, getD_some]
        rw [hd, if_pos ⟨rfl, rfl⟩]
        rfl
      · rw [dlookup_cons_ne _ _ hs, ho s hs]

/-- The accounts hold the storage as the state reports it. -/
def Holds (accounts : Dict Address AccountData) (c : Cow) : Prop :=
  ∀ s, match c.store s with
    | none => (accounts.getD s.addr {}).storage s = none
    | some st => ∃ kv, (accounts.getD s.addr {}).storage s = some kv ∧
        ∀ key, kv.lookup key = st.kv key

theorem lookup_change {st : Store} (hi : ∀ key, st.init.lookup key = st.kv key)
    (hn : store.action = .alloc → st.init = ∅) (key : Bytes) :
    (store.applyTo (store.change st).init).lookup key = (store.change st).kv key := by
  simp only [change]
  rw [lookup_applyTo _ _ _ hn]
  cases store.kvCow.lookup key with
  | some _ => rfl
  | none => exact hi key

/-- A record with the delta applied has the values of the storage. -/
theorem applied_eq {kv : Option TealKeyValue} (hf : store.Fits ((base b).store s))
    (hk : kv = (store.toStore ((base b).store s)).map (·.init)) :
    match store.toStore ((base b).store s) with
    | none => store.applied kv = none
    | some st => ∃ kv', store.applied kv = some kv' ∧ ∀ key, kv'.lookup key = st.kv key := by
  subst hk
  unfold applied
  cases ha : store.action with
  | dealloc => simp [toStore, beneath, ha]
  | alloc =>
    simp only [toStore, beneath, ha, map_some, reduceCtorEq, if_false]
    exact ⟨_, rfl, lookup_change (fun _ => rfl) fun _ => rfl⟩
  | remainAlloc =>
    simp only [Fits, ha] at hf
    obtain ⟨st, hs, -⟩ := hf
    -- below the block the values are those of the record
    have hi : ∀ key, st.init.lookup key = st.kv key := by
      rw [store_base] at hs
      obtain ⟨kv, -, rfl⟩ := map_eq_some_iff.mp hs
      exact fun key => rfl
    simp only [toStore, beneath, ha, hs, map_some, reduceCtorEq, if_false]
    exact ⟨_, rfl, lookup_change hi (by simp [ha])⟩

/-- Storage with a delta that does not free it is allocated. -/
theorem isSome_toStore (hf : store.Fits parent) (hr : store.action ≠ .dealloc) :
    (store.toStore parent).isSome := by
  rw [toStore, isSome_map, beneath]
  cases ha : store.action with
  | dealloc => exact absurd ha hr
  | alloc => rfl
  | remainAlloc =>
    simp only [Fits, ha] at hf
    obtain ⟨_, rfl, -⟩ := hf
    rfl

/-- In whatever order the storage deltas are applied, the accounts get the storage that the state
reports. -/
theorem deltaAccounts_holds (hc : Over (.base b) c) (ho : c.view.Coherent)
    (hp : order.Perm c.top.sdeltas.entries) :
    ∃ accts, c.deltaAccounts order = .ok accts ∧ Holds (b.accounts.merge accts) c := by
  obtain ⟨⟨l, rfl⟩, hwf⟩ := hc
  have hn : order.NodupKeys := (perm_nodupKeys hp).mpr l.sdeltas.nodupKeys
  have hk : ∀ s, order.dlookup s = l.sdeltas.lookup s := fun s =>
    perm_dlookup s hn hp
  have h1 : ∀ s, (l.accts.getD s.addr ((base b).lookup s.addr)).storage s =
      ((layer (.base b) l).store s).map (·.init) := by
    intro s
    rw [← lookup_layer]
    exact ho s
  have ht : ∀ e ∈ order, e.2.action ≠ .dealloc →
      ((l.accts.getD e.1.addr ((base b).lookup e.1.addr)).storage e.1).isSome := by
    intro e he hf
    have hd : l.sdeltas.lookup e.1 = some e.2 :=
      (hk e.1).symm.trans ((mem_dlookup_iff hn).mpr he)
    rw [h1, isSome_map, store_layer, hd]
    exact isSome_toStore (hwf.2 e.1 e.2 hd) hf
  obtain ⟨accts, hr, ha⟩ := storedAccounts_ok hn ht
  refine ⟨accts, hr, fun s => ?_⟩
  have hg : (b.accounts.merge accts).getD s.addr {} =
      accts.getD s.addr ((base b).lookup s.addr) := getD_merge ..
  rw [hg, ha s, hk, h1]
  cases hl : l.sdeltas.lookup s with
  | some store =>
    have hs : (layer (.base b) l).store s = store.toStore ((base b).store s) := by
      rw [store_layer, hl]
    rw [hs]
    exact applied_eq (hwf.2 s store hl) rfl
  | none =>
    have hs : (layer (.base b) l).store s = (base b).store s := by rw [store_layer, hl]
    rw [hs, store_base]
    cases (b.accounts.getD s.addr {}).storage s with
    | none => rfl
    | some kv => exact ⟨kv, rfl, fun key => rfl⟩

/-- The values of a storage, as `getKey` reports them. -/
def values (c : Cow) (s : StoragePtr) (key : Bytes) : Option TealValue := (c.getKey s key).toOption.join

/-- The counts of the storage do not exceed its schema. -/
def InSchema (c : Cow) (s : StoragePtr) : Prop :=
  ∃ limits, c.getStorageLimits s = .ok limits ∧
    (c.getStorageCounts s).numUint ≤ limits.numUint ∧
    (c.getStorageCounts s).numByteSlice ≤ limits.numByteSlice

theorem within_view : c.view.Within s ↔ (c.allocated s = true → c.InSchema s) := by
  have hr : c.view.store s = if c.allocated s then some _ else none := rfl
  constructor
  · intro h ha
    exact h _ (hr.trans (if_pos ha))
  · intro h _ hs
    rw [hr] at hs
    by_cases ha : c.allocated s = true
    · rw [if_pos ha] at hs
      obtain rfl := Option.some.inj hs
      exact h ha
    · rw [if_neg ha] at hs
      cases hs

/-- The cached counts are the numbers of values. -/
theorem counts_of_tallied {l : Layer} (h : (layer p l).view.Tallied) (s : StoragePtr) :
    ((layer p l).getStorageCounts s).numUint =
        numOf isUint ((layer p l).values s) ∧
      ((layer p l).getStorageCounts s).numByteSlice =
        numOf isBytes ((layer p l).values s) := by
  cases ha : (layer p l).allocated s with
  | true =>
    have ht := h s _ (if_pos ha)
    exact ⟨ht.numUint, ht.numByteSlice⟩
  | false =>
    have hv : (layer p l).values s = fun _ => none := by
      funext key
      rw [values, getKey_of_not_allocated ha]
      rfl
    have hn := Store.Tallied.new {}
    rw [hv, getStorageCounts, ha]
    exact ⟨hn.numUint, hn.numByteSlice⟩

/-- Accounts that hold the storage answer as the state does, and have as many values as it counts. -/
theorem Holds.getKey_eq {l : Layer} (h : Holds accounts (.layer p l))
    (ht : (Cow.layer p l).view.Tallied) (s : StoragePtr) :
    (∀ key, (Cow.layer p l).getKey s key =
        (orThrow (.noStorage s) ((accounts.getD s.addr {}).storage s)).map fun kv => kv.lookup key) ∧
      (Cow.layer p l).getStorageCounts s =
        (((accounts.getD s.addr {}).storage s).map TealKeyValue.schema).getD {} := by
  have hs := h s
  cases h1 : (Cow.layer p l).store s with
  | none =>
    rw [h1] at hs
    have ha : (Cow.layer p l).allocated s = false := by rw [← isSome_store, h1]; rfl
    refine ⟨fun key => ?_, ?_⟩
    · rw [hs, getKey_of_not_allocated ha]
      rfl
    · rw [hs, getStorageCounts, ha]
      rfl
  | some st =>
    rw [h1] at hs
    obtain ⟨kv, hv, hl⟩ := hs
    have h2 := ht s st h1
    have hk : (fun key => kv.lookup key) = st.kv := funext hl
    rw [hv]
    refine ⟨fun key => ?_, ?_⟩
    · rw [Cow.getKey_eq, show (Cow.layer p l).view.store s = some st from h1]
      exact congrArg ok (hl key).symm
    · rw [getStorageCounts_of_store h1]
      have hu := h2.numUint
      have hb := h2.numByteSlice
      rw [← hk, numOf_lookup] at hu hb
      exact congrArg₂ StateSchema.mk hu hb

end Cow

open Cow

/-! ## Operations -/

variable {x : BlockContext}

/-- Every operation keeps the counts. -/
theorem CowOp.tallied {o : CowOp} (h : w.Tallied) (hr : o.onWorld x w = .ok w') : w'.Tallied := by
  cases o with
  | put | addTx | incTxnCount =>
    obtain rfl := ok.inj hr
    exact h
  | setKey s key _ =>
    have hs : Step x False [] w w' := setKey_step hr
    exact h.step hs
  | delKey s key =>
    have ht : Steps x False [] w w' := delKey_steps hr
    exact h.steps ht
  | allocateApp s _ =>
    obtain ⟨-, rfl⟩ := allocateApp_ok hr
    cases s.global <;> exact stores_alloc h (fun _ => .new) rfl
  | deallocateApp s =>
    obtain rfl := deallocateApp_ok hr
    cases s.global <;> exact stores_dealloc h rfl
  | allocateAsset _ _ global | deallocateAsset _ _ global =>
    obtain rfl := ok.inj hr
    cases global <;> exact h

variable {c c' : Cow}

theorem Reached.tallied (h : Reached x c) : c.view.Tallied := by
  induction h with
  | start b => exact (view_child (.base b)).symm ▸ tallied_base b
  | child _ ih => exact (view_child _).symm ▸ ih
  | op hc o ho ih =>
    obtain ⟨p, l, rfl, hwf⟩ := hc.layer
    obtain ⟨e, -, hr⟩ | ⟨_, hw, hr, -⟩ := CowOp.outcome (x := x) hwf o
    · rw [hr] at ho
      cases ho
    · rw [hr] at ho
      obtain rfl := ok.inj ho
      exact CowOp.tallied ih hw
  | commit hc hm ih =>
    obtain ⟨p, l, rfl, hwf⟩ := hc.layer
    cases p with
    | base b =>
      obtain rfl := ok.inj hm
      exact ih
    | layer p _ =>
      rw [commitToParent_eq hwf] at hm
      obtain rfl := ok.inj hm
      rw [view_mergedLayer hwf]
      exact ih

/-- A successful write leaves the storage within its schema. -/
theorem Reached.setKey_inSchema (h : Reached x c) {key : Bytes} {value : TealValue}
    (hr : c.setKey x s key value = .ok c') : c'.InSchema s := by
  obtain ⟨p, l, rfl, hwf⟩ := h.layer
  obtain ⟨-, hw⟩ := Over.setKey ⟨⟨l, rfl⟩, hwf⟩ hr
  simp only [World.setKey, bind_ok, orThrow_ok, pure_ok] at hw
  obtain ⟨-, -, st, ht, lm, hl, ⟨⟩, hc, hv⟩ := hw
  have hs : c'.view.store s = some (st.write lm key (some value)) := by
    rw [← hv]
    exact update_self ..
  have ha : c'.allocated s = true := by
    rw [allocated_eq, hs]
    rfl
  refine within_view.mp (fun st' hs' => ?_) ha
  obtain rfl := Option.some.inj (hs.symm.trans hs')
  exact .write (h.tallied s st ht) key (some value) hl (fun _ => hc) (.inl rfl)

/-! ## Blocks -/

namespace BlockEvaluator

variable {P : Type} {env : Environment P} {ev₀ ev : BlockEvaluator} {l : LedgerForEvaluator}

/-- What holds of the storage in the state of a block. -/
theorem Started.storage (h : Started env l ev₀) (hn : (base (l.base ev₀.prevHeader)).view.Numbered)
    (groups : List (List SignedTxnWithAD)) {addrs : List Address}
    (hc : c = resetAccounts addrs (offerGroups env groups ev₀).state) :
    Over (.base (l.base ev₀.prevHeader)) c ∧ c.view.Tallied ∧ c.view.Coherent ∧
      ∀ s, (base (l.base ev₀.prevHeader)).view.Within s → c.view.Within s := by
  obtain ⟨-, hs0⟩ := h.withdrawn
  have he : Evolves ev₀.ctx True [] _ ev₀.state (offerGroups env groups ev₀).state :=
    (h.evolves (fun _ => hn) groups).1
  obtain ⟨ho, hv⟩ := resetAccounts_view he.toOver addrs
  have hm := hv ▸ SameHoldings.offline _ addrs
  subst hc
  have ht0 : ev₀.state.view.Tallied := by
    unfold Tallied
    rw [hs0.store]
    exact tallied_base _
  refine ⟨ho, ?_, ?_, fun s hs => ?_⟩
  · unfold Tallied
    rw [hm.store]
    exact ht0.steps he.steps
  · exact hm.coherent ((hs0.coherent (coherent_base _)).steps he.steps)
  · unfold Within
    rw [hm.store]
    refine Within.steps ?_ ht0 he.steps
    unfold Within
    rw [hs0.store]
    exact hs

/-- Storage at the end of a block, on a ledger whose ids are numbered. In whatever order the storage
deltas are applied, `deltas` does not panic, gives every account the key/value state that `getKey`
reports, and the cached counts are right; storage that was within its schema before the block, or not
allocated, still is. In every state that operations lead to the counts are right, and a successful
write leaves them within the schema. -/
theorem storage_deltas_match {hdr : BlockHeader} {validate generate : Bool} {maxBytes : ℤ}
    (hstart : startEvaluator env l hdr validate generate maxBytes = .ok ev₀)
    (hnum : (base (l.base ev₀.prevHeader)).view.Numbered) (rewardAddresses : List Address)
    (groups : List (List SignedTxnWithAD))
    (hend : (offerGroups env groups { ev₀ with rewardAddresses }).endOfBlock env = .ok ev) :
    (∀ order, order.Perm ev.state.top.sdeltas.entries →
      ∃ accts, ev.state.deltaAccounts order = .ok accts ∧ ∀ s : StoragePtr,
        let record := ((l.accounts.merge accts).getD s.addr {}).storage s
        (∀ key, ev.state.getKey s key =
          (orThrow (.noStorage s) record).map fun kv => kv.lookup key) ∧
        ev.state.getStorageCounts s = (record.map TealKeyValue.schema).getD {}) ∧
    (∀ s, ((base (l.base ev₀.prevHeader)).allocated s = true →
        (base (l.base ev₀.prevHeader)).InSchema s) →
      ev.state.allocated s = true → ev.state.InSchema s) ∧
    ∀ c, Reached ev₀.ctx c →
      (∀ s, (c.getStorageCounts s).numUint = numOf isUint (c.values s) ∧
        (c.getStorageCounts s).numByteSlice = numOf isBytes (c.values s)) ∧
      ∀ s key value c', c.setKey ev₀.ctx s key value = .ok c' → c'.InSchema s := by
  have h1 := (startEvaluator_started hstart).withRewardAddresses rewardAddresses
  obtain ⟨ev₁, _, -, -, -, -, he⟩ := endOfBlock_ok hend
  have hstt : ev.state = resetAccounts ev₁.block.expiredParticipationAccounts
      (offerGroups env groups { ev₀ with rewardAddresses }).state := by rw [he]
  obtain ⟨ho, hl, h2, hw⟩ := h1.storage hnum groups hstt
  refine ⟨fun order hp => ?_, fun s hs => ?_, fun c hc => ⟨fun s => ?_, fun s key value c' => ?_⟩⟩
  · obtain ⟨accts, hr, hh⟩ := deltaAccounts_holds ho h2 hp
    refine ⟨accts, hr, fun s => ?_⟩
    obtain ⟨⟨top, ht⟩, -⟩ := ho
    rw [ht] at hh hl ⊢
    exact hh.getKey_eq hl s
  · exact within_view.mp (hw s (within_view.mpr hs))
  · obtain ⟨p, top, rfl, -⟩ := hc.layer
    exact counts_of_tallied hc.tallied s
  · exact hc.setKey_inSchema

end BlockEvaluator

/-- A block that creates an application, whose program writes a global value. -/
def Sample.writes : List (List SignedTxnWithAD) :=
  [[signed 1 {
    type := .applicationCall
    approvalProgram := [1]
    globalStateSchema := { numUint := 1 } }]]

open Sample

open BlockEvaluator

theorem storage_deltas_match_created :
    let s : StoragePtr := { addr := 1, aidx := 11, global := true }
    ∃ ev₀ ev accts kv, block [] writes = .ok (ev₀, ev) ∧
      ev.state.deltaAccounts ev.state.top.sdeltas.entries = .ok accts ∧
      ((ledger.accounts.merge accts).getD 1 {}).storage s = some kv ∧
      kv.lookup [0] = some (.uint 7) ∧ ev.state.getStorageCounts s = TealKeyValue.schema kv := by
  intro s
  have hr : (block [] writes).toOption.map
      (fun r => (r.2.state.getKey s [0]).toOption) = some (some (some (.uint 7))) := by
    decide +kernel
  obtain ⟨⟨ev₀, ev⟩, hb, hk⟩ := exists_ok_of_toOption hr
  obtain ⟨hs, he⟩ := block_ok hb
  have hn : (base (ledger.base ev₀.prevHeader)).view.Numbered :=
    fun _ _ h => absurd rfl h
  obtain ⟨hd, -⟩ := storage_deltas_match hs hn [] writes he
  obtain ⟨accts, ha, ht⟩ := hd _ (List.Perm.refl _)
  obtain ⟨hg, hc⟩ := ht s
  have hv := congrArg Except.toOption (hg [0])
  rw [hk] at hv
  cases h1 : ((ledger.accounts.merge accts).getD s.addr {}).storage s with
  | none =>
    rw [h1] at hv
    cases hv
  | some kv =>
    rw [h1] at hv hc
    exact ⟨ev₀, ev, accts, kv, hb, ha, h1, (Option.some.inj hv).symm, hc⟩

end Novarand.Ledger
