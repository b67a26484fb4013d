import Novarand.Ledger.Cow

/-!
# What a copy-on-write state means

A `World` is the ledger state in one piece: accounts, creators, allocated storage and the transaction
counter as functions, with the changes a block makes written as updates of these. `Cow.view` reads
a world off a stack of layers. Every change of the top layer is the change of the same name on the
view; an empty child has the view of its parent, and committing keeps the view (`Cow.WF` says which
storage deltas a layer can hold over its parent).
-/

namespace Novarand.Ledger

open List Function Dict

variable {c p : Cow} {l pl : Layer} {s : StoragePtr} {parent o : Option Store} {st : Store}
  {lsd nsd : StorageDelta}

/-- Allocated storage: its values, the counts and limits kept for them, and the values its record in
the account has, which the block's changes are laid over. -/
structure Store where
  kv : Bytes → Option TealValue
  counts : StateSchema
  limits : Except EvalError StateSchema
  init : TealKeyValue

namespace Store

/-- New storage, with room for `space`. -/
def new (space : StateSchema) : Store where
  kv := fun _ => none
  counts := {}
  limits := pure space
  init := ∅

/-- The storage after `value` is written at `key`. -/
def write (st : Store) (limits : StateSchema) (key : Bytes) (value : Option TealValue) : Store where
  kv := update st.kv key value
  counts := (st.counts.uncount (st.kv key)).count value
  limits := pure limits
  init := st.init

end Store

structure World where
  account : Address → AccountData
  creator : CreatableIndex → CreatableType → Option Address
  store : StoragePtr → Option Store
  counter : ℕ
  assigned : List CreatableIndex

namespace World

@[ext] theorem ext {w w' : World} (ha : ∀ a, w.account a = w'.account a)
    (hc : ∀ i t, w.creator i t = w'.creator i t) (hs : ∀ s, w.store s = w'.store s)
    (hn : w.counter = w'.counter) (hi : w.assigned = w'.assigned) : w = w' := by
  obtain ⟨account, creator, store, counter, assigned⟩ := w
  obtain ⟨account', creator', store', counter', assigned'⟩ := w'
  obtain rfl : account = account' := funext ha
  obtain rfl : creator = creator' := funext fun i => funext (hc i)
  obtain rfl : store = store' := funext hs
  obtain rfl : counter = counter' := hn
  obtain rfl : assigned = assigned' := hi
  rfl

def put (addr : Address) (acct : AccountData) (w : World) : World :=
  { w with account := update w.account addr acct }

def create (cidx : CreatableIndex) (ctype : CreatableType) (creator : Address) (w : World) :
    World :=
  { w with
    creator := update w.creator cidx fun t => if t = ctype then some creator else none
    assigned := w.assigned ++ [cidx] }

def uncreate (cidx : CreatableIndex) (w : World) : World :=
  { w with creator := update w.creator cidx fun _ => none }

def incTxnCount (w : World) : World := { w with counter := w.counter + 1 }

variable (s : StoragePtr)

def setStore (st : Option Store) (w : World) : World :=
  { w with store := update w.store s st }

def setKey (x : BlockContext) (s : StoragePtr) (key : Bytes) (value : TealValue) (w : World) :
    Except EvalError World := do
  checkLengths x.proto key value
  let st ← orThrow (.noStorage s) (w.store s)
  let limits ← st.limits
  let st := st.write limits key (some value)
  st.counts.checkCounts limits
  return w.setStore s (some st)

def delKey (key : Bytes) (w : World) : Except EvalError World := do
  let st ← orThrow (.noStorage s) (w.store s)
  match st.limits with
  | .error _ => return w
  | .ok limits => return w.setStore s (some (st.write limits key none))

def allocateApp (space : StateSchema) (w : World) : Except EvalError World :=
  if (w.store s).isSome then throw (.alreadyStorage s)
  else
    let w := w.setStore s (some (.new space))
    pure (if s.global then w.create s.aidx .app s.addr else w)

def deallocateApp (w : World) : Except EvalError World := do
  let st ← orThrow (.noStorage s) (w.store s)
  let _ ← st.limits
  let w := w.setStore s none
  return if s.global then w.uncreate s.aidx else w

def allocateAsset (addr : Address) (index : AssetIndex) (global : Bool) (w : World) : World :=
  if global then w.create index .asset addr else w

def deallocateAsset (index : AssetIndex) (global : Bool) (w : World) : World :=
  if global then w.uncreate index else w

end World

open World

namespace StorageDelta

/-- The storage that a delta changes. -/
def beneath (parent : Option Store) (lsd : StorageDelta) : Option Store :=
  match lsd.action with
  | .dealloc => none
  | .alloc => some (.new {})
  | .remainAlloc => parent

/-- The storage `st` with the changes of a delta. -/
def change (lsd : StorageDelta) (st : Store) : Store where
  kv := fun key => ((lsd.kvCow.lookup key).map ValueDelta.new).getD (st.kv key)
  counts := lsd.counts
  limits := pure lsd.maxCounts
  init := st.init

/-- The storage a delta means over the storage of the parent. -/
def toStore (parent : Option Store) (lsd : StorageDelta) : Option Store :=
  (lsd.beneath parent).map lsd.change

/-- The deltas a layer can hold over its parent: freed storage has no content, and storage that remains
allocated is allocated below, with the same limits. -/
def Fits (parent : Option Store) (lsd : StorageDelta) : Prop :=
  match lsd.action with
  | .dealloc => lsd = { action := .dealloc }
  | .alloc => True
  | .remainAlloc => ∃ st, parent = some st ∧ st.limits = pure lsd.maxCounts

end StorageDelta

open StorageDelta

namespace Cow

/-! ## The view of a stack of layers -/

/-- The values that the storage's record in the account has. -/
def origin : Cow → StoragePtr → TealKeyValue
  | .base b, s => ((b.accounts.getD s.addr {}).storage s).getD ∅
  | .layer p l, s => if (l.sdeltas.lookup s).any (·.action = .alloc) then ∅ else p.origin s

/-- The allocated storage `s`, as the lookups report it. -/
def store (c : Cow) (s : StoragePtr) : Option Store :=
  if c.allocated s then some {
    kv := fun key => (c.getKey s key).toOption.join
    counts := c.getStorageCounts s
    limits := c.getStorageLimits s
    init := c.origin s }
  else none

def view (c : Cow) : World where
  account := c.lookup
  creator := c.getCreator
  store := c.store
  counter := c.txnCounter
  assigned := c.assigned

theorem isSome_store : (c.store s).isSome = c.allocated s := by
  unfold store
  split <;> simp_all

/-- A layer's storage is what its delta means over the storage of the parent. -/
theorem store_layer : (layer p l).store s =
    match l.sdeltas.lookup s with
    | some lsd => lsd.toStore (p.store s)
    | none => p.store s := by
  unfold store
  cases hl : l.sdeltas.lookup s with
  | none =>
    have ha : (layer p l).allocated s = p.allocated s := by simp [allocated, hl]
    cases hp : p.allocated s with
    | false => simp [ha, hp]
    | true =>
      simp [ha, hp, getKey, getStorageCounts, getStorageLimits, origin, hl]
  | some lsd =>
    obtain ⟨ac, kc, _, _⟩ := lsd
    cases ac with
    | dealloc => simp [allocated, hl, toStore, beneath]
    | alloc =>
      have ha : (layer p l).allocated s = true := by simp [allocated, hl]
      simp only [ha, if_true, getKey, getStorageCounts, getStorageLimits, origin, hl,
        Bool.not_true, Bool.false_eq_true, if_false, toStore, beneath, Option.any_some, decide_true]
      congr
      funext key
      cases hk : kc.lookup key with
      | none => rfl
      | some vd => rfl
    | remainAlloc =>
      have ha : (layer p l).allocated s = p.allocated s := by simp [allocated, hl]
      cases hp : p.allocated s with
      | false => simp [ha, hp, toStore, beneath]
      | true =>
        simp only [ha, hp, if_true, getKey, getStorageCounts, getStorageLimits, origin, hl,
          Bool.not_true, Bool.false_eq_true, if_false, toStore, beneath, Option.any_some,
          reduceCtorEq, decide_false]
        congr
        funext key
        cases hk : kc.lookup key with
        | none => simp
        | some vd => rfl

/-- Every layer's storage deltas fit the storage below it. -/
def WF : Cow → Prop
  | .base _ => True
  | .layer p l => p.WF ∧ ∀ s lsd, l.sdeltas.lookup s = some lsd → lsd.Fits (p.store s)

/-! ## The lookups of a layer, read off its view -/

theorem allocated_eq : c.allocated s = (c.view.store s).isSome := isSome_store.symm

theorem getKey_of_not_allocated (h : c.allocated s = false) (key : Bytes) :
    c.getKey s key = .error (.noStorage s) := by
  cases c with
  | base b =>
    have hn : (b.accounts.getD s.addr {}).storage s = none := by simpa [allocated] using h
    simp only [getKey, hn]
    rfl
  | layer p l =>
    simp only [getKey, h]
    rfl

/-- Keys of allocated storage can be read. -/
theorem getKey_of_allocated (ha : c.allocated s = true) (key : Bytes) :
    ∃ v, c.getKey s key = .ok v := by
  induction c with
  | base b =>
    obtain ⟨kv, hv⟩ := Option.isSome_iff_exists.mp ha
    exact ⟨kv.lookup key, by simp only [getKey, hv]; rfl⟩
  | layer p l ih =>
    simp only [getKey, ha, Bool.not_true, Bool.false_eq_true, if_false]
    cases hl : l.sdeltas.lookup s with
    | none =>
      have hp : p.allocated s = true := by simpa [allocated, hl] using ha
      exact ih hp
    | some lsd =>
      dsimp only
      cases hk : lsd.kvCow.lookup key with
      | some vd => exact ⟨vd.new, rfl⟩
      | none =>
        by_cases hc : lsd.action = .remainAlloc
        · have hp : p.allocated s = true := by simpa [allocated, hl, hc] using ha
          simpa [hc] using ih hp
        · exact ⟨none, if_pos hc⟩

theorem getKey_eq (key : Bytes) :
    c.getKey s key = (orThrow (.noStorage s) (c.view.store s)).map (·.kv key) := by
  cases ha : c.allocated s with
  | false =>
    have hn : c.view.store s = none := by simp [view, store, ha]
    rw [getKey_of_not_allocated ha, hn]
    rfl
  | true =>
    obtain ⟨v, hv⟩ := getKey_of_allocated ha key
    simp [view, store, ha, hv, orThrow, Except.map, Except.toOption]

theorem getStorageCounts_layer :
    (layer p l).getStorageCounts s = (((layer p l).view.store s).map (·.counts)).getD {} := by
  cases ha : (layer p l).allocated s with
  | false => simp [getStorageCounts, view, store, ha]
  | true => simp [view, store, ha]

theorem getStorageLimits_layer :
    (layer p l).getStorageLimits s =
      (((layer p l).view.store s).map (·.limits)).getD (pure {}) := by
  cases ha : (layer p l).allocated s with
  | false => simp [getStorageLimits, view, store, ha]
  | true => simp [view, store, ha]

/-! ## Changes of the top layer -/

@[simp] theorem modify_layer (f : Layer → Layer) : (layer p l).modify f = .layer p (f l) := rfl

theorem view_put (addr : Address) (acct : AccountData) :
    ((layer p l).put addr acct).view = (layer p l).view.put addr acct := by
  refine ext (fun a => ?_) (fun _ _ => rfl) (fun _ => rfl) rfl rfl
  simp only [view, put, modify_layer, lookup, World.put, lookup_upsert, update_apply]
  split_ifs <;> rfl

theorem view_incTxnCount : (layer p l).incTxnCount.view = (layer p l).view.incTxnCount := by
  refine ext (fun _ => rfl) (fun _ _ => rfl) (fun _ => rfl) ?_ rfl
  exact (Nat.add_assoc _ _ _).symm

theorem view_create (cidx : CreatableIndex) (ctype : CreatableType) (creator : Address) :
    ((layer p l).create cidx ctype creator).view =
      (layer p l).view.create cidx ctype creator := by
  refine ext (fun _ => rfl) (fun i t => ?_) (fun _ => rfl) rfl ?_
  · simp only [view, create, modify_layer, getCreator, World.create, lookup_upsert,
      update_apply]
    by_cases h : i = cidx
    · simp [h, eq_comm]
    · simp [h]
  · exact (append_assoc _ _ _).symm

theorem view_uncreate (cidx : CreatableIndex) (ctype : CreatableType) (creator : Address) :
    ((layer p l).uncreate cidx ctype creator).view = (layer p l).view.uncreate cidx := by
  refine ext (fun _ => rfl) (fun i t => ?_) (fun _ => rfl) rfl rfl
  simp only [view, uncreate, modify_layer, getCreator, World.uncreate, lookup_upsert, update_apply]
  split_ifs <;> simp

theorem view_setStorageDelta (lsd : StorageDelta) :
    ((layer p l).setStorageDelta s lsd).view =
      (layer p l).view.setStore s (lsd.toStore (p.store s)) := by
  refine ext (fun _ => rfl) (fun _ _ => rfl) (fun s' => ?_) rfl rfl
  simp only [view, setStorageDelta, modify_layer, store_layer, setStore,
    lookup_upsert, update_apply]
  by_cases h : s' = s
  · subst h
    simp
  · simp [h]

theorem WF.setStorageDelta (h : (layer p l).WF)
    (hf : lsd.Fits (p.store s)) : ((layer p l).setStorageDelta s lsd).WF := by
  refine ⟨h.1, fun s' lsd' hl' => ?_⟩
  rw [lookup_upsert] at hl'
  split_ifs at hl' with hs
  · cases hl'
    exact hs ▸ hf
  · exact h.2 s' lsd' hl'

end Cow

/-! ## Storage deltas and the storage they mean -/

namespace StorageDelta

section

variable (h : lsd.toStore parent = some st)
include h

theorem limits_of_toStore : st.limits = pure lsd.maxCounts := by
  obtain ⟨_, -, rfl⟩ := Option.map_eq_some_iff.mp h
  rfl

theorem counts_of_toStore : st.counts = lsd.counts := by
  obtain ⟨_, -, rfl⟩ := Option.map_eq_some_iff.mp h
  rfl

end

theorem Fits.write (hf : lsd.Fits parent) (key : Bytes) (old new : Option TealValue)
    (hn : lsd.toStore parent = some st) : (lsd.write key old new).Fits parent := by
  obtain ⟨ac, _, _, _⟩ := lsd
  cases ac with
  | dealloc => cases hn
  | alloc => trivial
  | remainAlloc => exact hf

/-- Writing into a delta writes into its storage. -/
theorem toStore_write (h : lsd.toStore parent = some st) (key : Bytes) (new : Option TealValue) :
    (lsd.write key (st.kv key) new).toStore parent = some (st.write lsd.maxCounts key new) := by
  obtain ⟨st0, hs0, rfl⟩ := Option.map_eq_some_iff.mp h
  refine Option.map_eq_some_iff.mpr ⟨st0, hs0, ?_⟩
  simp only [change, write, Store.write, lookup_upsert, Store.mk.injEq, and_true]
  funext k
  simp only [update_apply]
  split_ifs <;> rfl

end StorageDelta

variable {limits : StateSchema}

namespace Cow

/-! ## Storage operations on the view -/

/-- The outcome `r` of an operation on the layer `l` over `p` is the outcome `r'` on the view: the
same error, or a layer over `p` that fits it and has the resulting view. -/
def Realizes (p : Cow) (l : Layer) (r : Except EvalError Cow) (r' : Except EvalError World) : Prop :=
  match r' with
  | .error e => r = .error e
  | .ok w => ∃ l', r = .ok (.layer p l') ∧ (layer p l').WF ∧ (layer p l').view = w ∧
      l'.txids = l.txids ∧ l'.txleases = l.txleases

theorem allocated_of_store (h : (layer p l).store s = some st) :
    (layer p l).allocated s = true := by
  rw [← isSome_store, h]
  rfl

theorem not_allocated_of_store (h : c.store s = none) : c.allocated s = false := by
  rw [← isSome_store, h]
  rfl

section

variable (h : (layer p l).view.store s = some st)
include h

theorem getKey_of_store (key : Bytes) : (layer p l).getKey s key = .ok (st.kv key) := by
  rw [getKey_eq, h]
  rfl

theorem getStorageCounts_of_store : (layer p l).getStorageCounts s = st.counts := by
  rw [getStorageCounts_layer, h]
  rfl

theorem getStorageLimits_of_store : (layer p l).getStorageLimits s = st.limits := by
  rw [getStorageLimits_layer, h]
  rfl

end

/-- The delta a change starts from. -/
theorem ensureStorageDelta_eq (hs : (layer p l).store s = some st) (action : StorageAction) :
    (layer p l).ensureStorageDelta s action =
      match l.sdeltas.lookup s with
      | some lsd => .ok lsd
      | none => st.limits.map fun maxCounts => { action, counts := st.counts, maxCounts } := by
  cases hl : l.sdeltas.lookup s with
  | some lsd =>
    simp only [ensureStorageDelta, storageDelta, hl]
    rfl
  | none =>
    simp only [ensureStorageDelta, storageDelta, hl, getStorageLimits_of_store hs,
      getStorageCounts_of_store hs]
    cases st.limits <;> rfl

/-- The delta a write starts from means the storage as it is. -/
theorem ensureStorageDelta_of_store (h : (layer p l).WF) (hs : (layer p l).store s = some st)
    (hi : st.limits = .ok limits) :
    ∃ lsd, (layer p l).ensureStorageDelta s .remainAlloc = .ok lsd ∧ lsd.Fits (p.store s) ∧
      lsd.toStore (p.store s) = some st ∧ lsd.maxCounts = limits := by
  rw [ensureStorageDelta_eq hs, hi]
  rw [store_layer] at hs
  cases hl : l.sdeltas.lookup s with
  | some lsd =>
    rw [hl] at hs
    have hm := (limits_of_toStore hs).symm.trans hi
    exact ⟨lsd, rfl, h.2 s lsd hl, hs, Except.ok.inj hm⟩
  | none =>
    rw [hl] at hs
    refine ⟨_, rfl, ⟨st, hs, hi⟩, ?_, rfl⟩
    obtain ⟨_, counts, _, _⟩ := st
    obtain rfl := hi
    simp only [toStore, beneath, hs, Option.map_some, change, AList.lookup_empty, Option.map_none,
      Option.getD_none]
    rfl

theorem ensureStorageDelta_ok (hs : (layer p l).store s = some st) (hi : st.limits = .ok limits)
    (action : StorageAction) : ∃ lsd, (layer p l).ensureStorageDelta s action = .ok lsd := by
  rw [ensureStorageDelta_eq hs, hi]
  cases l.sdeltas.lookup s <;> exact ⟨_, rfl⟩

theorem ensureStorageDelta_error (hs : (layer p l).store s = some st) {e : EvalError}
    (hi : st.limits = .error e) (action : StorageAction) :
    (layer p l).ensureStorageDelta s action = .error e := by
  rw [ensureStorageDelta_eq hs, hi]
  rw [store_layer] at hs
  cases hl : l.sdeltas.lookup s with
  | some lsd =>
    rw [hl] at hs
    cases (limits_of_toStore hs).symm.trans hi
  | none => rfl

/-- Replacing the delta of `s` by one that fits is setting its storage on the view. -/
theorem setStorageDelta_realizes (h : (layer p l).WF) (hf : lsd.Fits (p.store s))
    (ho : lsd.toStore (p.store s) = o) :
    Realizes p l (.ok ((layer p l).setStorageDelta s lsd))
      (.ok ((layer p l).view.setStore s o)) :=
  ⟨_, rfl, h.setStorageDelta hf, ho ▸ view_setStorageDelta lsd, rfl, rfl⟩

theorem WF.realizes (h : (layer p l).WF) : Realizes p l (.ok (layer p l)) (.ok (layer p l).view) :=
  ⟨l, rfl, h, rfl, rfl, rfl⟩

section

variable {w : World} (h : Realizes p l (.ok c) (.ok w)) (cidx : CreatableIndex)
  (ctype : CreatableType) (creator : Address)
include h

theorem Realizes.create :
    Realizes p l (.ok (c.create cidx ctype creator)) (.ok (w.create cidx ctype creator)) := by
  obtain ⟨_, hc, hwf, rfl, hi, hl⟩ := h
  obtain rfl := Except.ok.inj hc
  exact ⟨_, rfl, hwf, view_create cidx ctype creator, hi, hl⟩

theorem Realizes.uncreate :
    Realizes p l (.ok (c.uncreate cidx ctype creator)) (.ok (w.uncreate cidx)) := by
  obtain ⟨_, hc, hwf, rfl, hi, hl⟩ := h
  obtain rfl := Except.ok.inj hc
  exact ⟨_, rfl, hwf, view_uncreate cidx ctype creator, hi, hl⟩

end

/-- The marks for changed holdings and local states are not part of the view. -/
theorem Realizes.mark {w : World} (h : Realizes p l (.ok c) (.ok w))
    (ho : Dict (Address × AssetIndex) Bool → Dict (Address × AssetIndex) Bool)
    (states : Dict (Address × AppIndex) Bool → Dict (Address × AppIndex) Bool) :
    Realizes p l (.ok (c.modify fun l => { l with
      modifiedAssetHoldings := ho l.modifiedAssetHoldings
      modifiedAppLocalStates := states l.modifiedAppLocalStates })) (.ok w) := by
  obtain ⟨_, hc, hwf, rfl, hi, hl⟩ := h
  obtain rfl := Except.ok.inj hc
  exact ⟨_, rfl, hwf, rfl, hi, hl⟩

theorem setKey_realizes (x : BlockContext) (h : (layer p l).WF) (key : Bytes) (value : TealValue) :
    Realizes p l ((layer p l).setKey x s key value)
      ((layer p l).view.setKey x s key value) := by
  unfold setKey World.setKey
  cases checkLengths x.proto key value with
  | error e => rfl
  | ok _ =>
    cases hs : (layer p l).view.store s with
    | none =>
      rw [not_allocated_of_store hs]
      rfl
    | some st =>
      simp only [allocated_of_store hs, getKey_of_store hs, ok_bind, orThrow_some, Bool.not_true,
        Bool.false_eq_true, if_false]
      cases hl : st.limits with
      | error e =>
        rw [ensureStorageDelta_error hs hl]
        rfl
      | ok limits =>
        obtain ⟨lsd, h1, hf, ht, rfl⟩ := ensureStorageDelta_of_store h hs hl
        have hc : (lsd.write key (st.kv key) (some value)).counts =
            (st.write lsd.maxCounts key (some value)).counts := by
          simp [write, Store.write, counts_of_toStore ht]
        have hm : (lsd.write key (st.kv key) (some value)).maxCounts = lsd.maxCounts := rfl
        simp only [h1, ok_bind, hc, hm]
        cases (st.write lsd.maxCounts key (some value)).counts.checkCounts lsd.maxCounts with
        | error e => rfl
        | ok _ =>
          exact setStorageDelta_realizes h (hf.write key _ _ ht) (toStore_write ht key _)

section

variable (h : (layer p l).WF)
include h

theorem delKey_realizes (key : Bytes) :
    Realizes p l ((layer p l).delKey s key) ((layer p l).view.delKey s key) := by
  unfold delKey World.delKey
  cases hs : (layer p l).view.store s with
  | none =>
    rw [not_allocated_of_store hs]
    rfl
  | some st =>
    simp only [allocated_of_store hs, getKey_of_store hs, ok_bind, orThrow_some, Bool.not_true,
      Bool.false_eq_true, if_false]
    cases hl : st.limits with
    | error e =>
      rw [ensureStorageDelta_error hs hl]
      exact h.realizes
    | ok limits =>
      obtain ⟨_, h1, hf, ht, rfl⟩ := ensureStorageDelta_of_store h hs hl
      simp only [h1]
      exact setStorageDelta_realizes h (hf.write key _ _ ht) (toStore_write ht key _)

/-- Storage that is not allocated has no delta, or the one its deallocation left. -/
theorem ensureStorageDelta_of_not_allocated (hs : (layer p l).store s = none) :
    ∃ action, (layer p l).ensureStorageDelta s .alloc = .ok { action } := by
  cases hl : l.sdeltas.lookup s with
  | some lsd =>
    have hf := h.2 s lsd hl
    have ht : lsd.toStore (p.store s) = none := by rw [← hs, store_layer, hl]
    obtain ⟨action, kc, cn, mc⟩ := lsd
    simp only [ensureStorageDelta, storageDelta, hl]
    cases action with
    | dealloc =>
      rw [show mk .dealloc kc cn mc = { action := .dealloc } from hf]
      exact ⟨.dealloc, rfl⟩
    | alloc => cases ht
    | remainAlloc =>
      obtain ⟨_, hp, -⟩ := hf
      simp [toStore, beneath, hp] at ht
  | none =>
    have hv : (layer p l).view.store s = none := hs
    refine ⟨.alloc, ?_⟩
    simp only [ensureStorageDelta, storageDelta, hl, getStorageLimits_layer,
      getStorageCounts_layer, hv]
    rfl

theorem allocateApp_realizes (space : StateSchema) :
    Realizes p l ((layer p l).allocateApp s space)
      ((layer p l).view.allocateApp s space) := by
  unfold allocateApp World.allocateApp
  cases ht : (layer p l).view.store s with
  | some _ =>
    rw [allocated_of_store ht]
    rfl
  | none =>
    obtain ⟨action, hl⟩ := ensureStorageDelta_of_not_allocated h ht
    have hf : Fits (p.store s) { action := .alloc, maxCounts := space } := trivial
    have hs := setStorageDelta_realizes h hf rfl
    simp only [not_allocated_of_store ht, hl, ok_bind, Option.isSome_none, Bool.false_eq_true,
      if_false]
    cases hg : s.global with
    | true => exact hs.create s.aidx .app s.addr
    | false => exact hs.mark id fun m => m.upsert (s.addr, s.aidx) true

theorem deallocateApp_realizes :
    Realizes p l ((layer p l).deallocateApp s) ((layer p l).view.deallocateApp s) := by
  unfold deallocateApp World.deallocateApp
  cases ht : (layer p l).view.store s with
  | none =>
    rw [not_allocated_of_store ht]
    rfl
  | some st =>
    simp only [allocated_of_store ht, ok_bind, orThrow_some, Bool.not_true, Bool.false_eq_true,
      if_false]
    cases hl : st.limits with
    | error e =>
      rw [ensureStorageDelta_error ht hl]
      rfl
    | ok limits =>
      obtain ⟨_, h1⟩ := ensureStorageDelta_ok ht hl .dealloc
      have hf : Fits (p.store s) { action := .dealloc } := rfl
      have hs := setStorageDelta_realizes h hf rfl
      simp only [h1, ok_bind]
      cases hg : s.global with
      | true => exact hs.uncreate s.aidx .app s.addr
      | false => exact hs.mark id fun m => m.upsert (s.addr, s.aidx) false

theorem allocateAsset_realizes (addr : Address) (index : AssetIndex) (global : Bool) :
    Realizes p l (.ok ((layer p l).allocateAsset addr index global))
      (.ok ((layer p l).view.allocateAsset addr index global)) := by
  cases global with
  | true => exact h.realizes.create index .asset addr
  | false => exact h.realizes.mark (fun m => m.upsert (addr, index) true) id

theorem deallocateAsset_realizes (addr : Address) (index : AssetIndex) (global : Bool) :
    Realizes p l (.ok ((layer p l).deallocateAsset addr index global))
      (.ok ((layer p l).view.deallocateAsset index global)) := by
  cases global with
  | true => exact h.realizes.uncreate index .asset addr
  | false => exact h.realizes.mark (fun m => m.upsert (addr, index) false) id

end

/-! ## Children -/

theorem view_child (c : Cow) : c.child.view = c.view := by
  refine ext (fun _ => rfl) (fun _ _ => rfl) (fun s => ?_) rfl ?_
  · exact store_layer
  · exact append_nil _

theorem WF.child (h : c.WF) : c.child.WF :=
  ⟨h, fun s lsd hl => by simp at hl⟩

end Cow

namespace StorageDelta

/-- Merging the delta of a child into the parent's keeps its meaning. -/
theorem toStore_applyChild (hf : nsd.Fits (lsd.toStore parent)) :
    (lsd.applyChild nsd).toStore parent = nsd.toStore (lsd.toStore parent) := by
  obtain ⟨ac, kc, _, maxCounts⟩ := nsd
  cases ac with
  | dealloc => rfl
  | alloc => rfl
  | remainAlloc =>
    obtain ⟨_, hs, hl⟩ := hf
    have hm : lsd.maxCounts = maxCounts := by
      have hl' := (limits_of_toStore hs).symm.trans hl
      exact Except.ok.inj hl'
    rw [hs]
    obtain ⟨st0, hs0, rfl⟩ := Option.map_eq_some_iff.mp hs
    refine Option.map_eq_some_iff.mpr ⟨st0, hs0, ?_⟩
    simp only [applyChild, change, ne_eq, not_true_eq_false, if_false, hm, Store.mk.injEq, and_true,
      lookup_mergeWith]
    funext key
    cases kc.lookup key <;> rfl

/-- The merged delta fits and passes the sanity check. -/
theorem Fits.applyChild (hl : lsd.Fits parent) (hf : nsd.Fits (lsd.toStore parent)) :
    (lsd.applyChild nsd).Fits parent ∧ (lsd.applyChild nsd).sane = true := by
  obtain ⟨action, kc, cn, mc⟩ := nsd
  cases action with
  | dealloc =>
    rw [show mk .dealloc kc cn mc = { action := .dealloc } from hf]
    exact ⟨rfl, rfl⟩
  | alloc => exact ⟨trivial, rfl⟩
  | remainAlloc =>
    obtain ⟨_, hs, -⟩ := hf
    obtain ⟨ac', _, _, _⟩ := lsd
    cases ac' with
    | dealloc => cases hs
    | alloc => exact ⟨trivial, rfl⟩
    | remainAlloc => exact ⟨hl, rfl⟩

end StorageDelta

namespace Cow

theorem mergedStorage_fits (h : (layer p pl).WF) (hf : nsd.Fits ((layer p pl).store s)) :
    (mergedStorage pl.sdeltas s nsd).Fits (p.store s) ∧
      (mergedStorage pl.sdeltas s nsd).toStore (p.store s) =
        nsd.toStore ((layer p pl).store s) := by
  rw [store_layer] at hf ⊢
  unfold mergedStorage
  cases hp : pl.sdeltas.lookup s with
  | none =>
    rw [hp] at hf
    exact ⟨hf, rfl⟩
  | some lsd =>
    rw [hp] at hf
    exact ⟨((h.2 s lsd hp).applyChild hf).1, toStore_applyChild hf⟩

section

variable (h : (layer (layer p pl) l).WF)
include h

theorem commitToParent_eq :
    (layer (layer p pl) l).commitToParent = .ok (.layer p (mergedLayer pl l)) := by
  have hs : (l.sdeltas.entries.any fun e =>
      (pl.sdeltas.lookup e.1).isSome && !(mergedStorage pl.sdeltas e.1 e.2).sane) = false := by
    simp only [any_eq_false, Bool.and_eq_true, Bool.not_eq_true', not_and, Bool.not_eq_false]
    intro e he hm
    have hl : l.sdeltas.lookup e.1 = some e.2 := (mem_dlookup_iff l.sdeltas.nodupKeys).mpr he
    obtain ⟨lsd, hp⟩ := Option.isSome_iff_exists.mp hm
    have hf := h.2 e.1 e.2 hl
    rw [store_layer, hp] at hf
    simp only [mergedStorage, hp]
    exact ((h.1.2 e.1 lsd hp).applyChild hf).2
  simp only [commitToParent, hs]
  rfl

theorem wf_mergedLayer : (layer p (mergedLayer pl l)).WF := by
  refine ⟨h.1.1, fun s lsd hs => ?_⟩
  simp only [mergedLayer, lookup_mergeWith] at hs
  cases hl : l.sdeltas.lookup s with
  | none =>
    rw [hl] at hs
    exact h.1.2 s lsd hs
  | some nsd =>
    rw [hl] at hs
    obtain rfl := Option.some.inj hs
    exact (mergedStorage_fits h.1 (h.2 s nsd hl)).1

theorem view_mergedLayer :
    (layer p (mergedLayer pl l)).view = (layer (layer p pl) l).view := by
  refine ext (fun a => ?_) (fun i t => ?_) (fun s => ?_) ?_ ?_
  · simp only [view, lookup, mergedLayer, lookup_merge]
    cases l.accts.lookup a <;> rfl
  · simp only [view, getCreator, mergedLayer, lookup_merge]
    cases l.creatables.lookup i <;> rfl
  · have hu : (layer (layer p pl) l).store s =
        match l.sdeltas.lookup s with
        | some lsd => lsd.toStore ((layer p pl).store s)
        | none => (layer p pl).store s := store_layer
    simp only [view]
    rw [hu, store_layer]
    simp only [mergedLayer, lookup_mergeWith]
    cases hl : l.sdeltas.lookup s with
    | none => exact store_layer.symm
    | some nsd => exact (mergedStorage_fits h.1 (h.2 s nsd hl)).2
  · exact (Nat.add_assoc _ _ _).symm
  · exact (append_assoc _ _ _).symm

end

end Cow

end Novarand.Ledger
