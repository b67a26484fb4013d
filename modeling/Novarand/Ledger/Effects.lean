import Novarand.Ledger.Apply
import Novarand.Ledger.Rewards
import Novarand.Ledger.World

/-!
# What an evaluation can do to the ledger

`World.Step` lists the changes that transactions, programs and inner transactions make to the ledger
state, each with what the evaluator has checked when it makes it. The invariants of a block are
proved about these steps; that every function of the evaluator is a run of them is `Evolves`, in the
next module.

Applications that are being called are `busy`: they are not deleted. New ids are fresh only on a ledger
whose ids do not exceed its counter, so the steps where that matters say what they need under the
proposition `num.ids`, which is to be read as "the ids of the ledger are numbered". What the changes of
keys and authorizers rest on is the transaction that makes them, one of those that `num.applied` allows.
-/

namespace Novarand.Ledger

open Function AccountData

/-- A change of an account that leaves its money, assets and applications alone. A participating
account drops out only with all its rewards in its balance, and no account comes back. -/
structure AccountData.Edited (level : ℕ) (u u' : AccountData) : Prop where
  microNovas : u'.microNovas = u.microNovas
  rewardsBase : u'.rewardsBase = u.rewardsBase
  status : u.status = .notParticipating ∧ u'.status = .notParticipating ∨
    u.status ≠ .notParticipating ∧ (u'.status = .notParticipating → u.rewardsBase = level)
  assets : u'.assets = u.assets
  assetParams : u'.assetParams = u.assetParams
  appLocalStates : u'.appLocalStates = u.appLocalStates
  appParams : u'.appParams = u.appParams

variable {proto : ConsensusParams} {level : ℕ} {u u' v : AccountData}

/-- Claiming rewards changes the balance and the base of the rewards. -/
theorem AccountData.withUpdatedRewards_eq (h : u.withUpdatedRewards proto level = some u') :
    ∃ balance base rewarded, u' = { u with
      microNovas := balance, rewardsBase := base, rewardedMicroNovas := rewarded } := by
  unfold withUpdatedRewards at h
  split at h
  case isTrue =>
    cases h
    exact ⟨_, _, _, rfl⟩
  case isFalse =>
    simp only [Option.bind_eq_bind, Option.bind_eq_some_iff, Option.pure_def] at h
    obtain ⟨-, -, _, -, balance, -, h⟩ := h
    cases h
    exact ⟨_, _, _, rfl⟩

theorem AccountData.withUpdatedRewards_rest (h : u.withUpdatedRewards proto level = some u') :
    u'.assets = u.assets ∧ u'.assetParams = u.assetParams ∧
      u'.appLocalStates = u.appLocalStates ∧ u'.appParams = u.appParams := by
  obtain ⟨_, _, _, rfl⟩ := withUpdatedRewards_eq h
  exact ⟨rfl, rfl, rfl, rfl⟩

namespace AccountData

/-- The status and the keys of an account. -/
def keys (u : AccountData) : Status × Digest × Digest × ℕ × Digest × Round × Round :=
  (u.status, u.voteID, u.selectionID, u.voteKeyDilution, u.stateProofID, u.voteFirstValid,
    u.voteLastValid)

def credentials (u : AccountData) := (u.authAddr, u.keys)

theorem withUpdatedRewards_credentials (h : u.withUpdatedRewards proto level = some u') :
    u'.credentials = u.credentials := by
  obtain ⟨_, _, _, rfl⟩ := withUpdatedRewards_eq h
  rfl

end AccountData

variable {ctype : CreatableType}

/-- What an evaluation rests on: whether the ids of the ledger are numbered, what every transaction that
is applied satisfies, and what is kept on the way. -/
structure Terms where
  ids : Prop
  applied : Transaction → Prop := fun _ => True
  inv : World → Prop := fun _ => True

instance : Coe Prop Terms := ⟨fun ids => { ids }⟩

namespace World

/-- Every id assigned so far is counted. -/
def Settled (w : World) : Prop := ∀ i ∈ w.assigned, i ≤ w.counter

/-- Every id assigned so far is counted, or is the next one. -/
def Ahead (w : World) : Prop := ∀ i ∈ w.assigned, i ≤ w.counter + 1

/-- Everything that exists has an id that was counted or assigned. -/
def Numbered (w : World) : Prop :=
  ∀ i t, w.creator i t ≠ none → i ≤ w.counter ∨ i ∈ w.assigned

/-- The applications have ids that were counted or assigned. -/
def Known (apps : List AppIndex) (w : World) : Prop := ∀ i ∈ apps, i ≤ w.counter ∨ i ∈ w.assigned

/-- The application exists and its creator has its record. -/
structure HasApp (w : World) (i : AppIndex) (creator : Address) : Prop where
  creator_eq : w.creator i .app = some creator
  params : ((w.account creator).appParams.lookup i).isSome

/-- The keys of an account are set: by the rekeying of its transaction, or by a registration. -/
def Sets (x : BlockContext) (tx : Transaction) (u u' : AccountData) : Prop :=
  tx.rekeyTo ≠ 0 ∧ u' = { u with authAddr := if tx.rekeyTo = tx.sender then 0 else tx.rekeyTo } ∨
    tx.type = .keyRegistration ∧ u.status ≠ .notParticipating ∧ Apply.registered x tx u = .ok u'

/-- One change of the ledger. -/
inductive Step (x : BlockContext) (num : Terms) (busy : List AppIndex) : World → World → Prop
  | move {w : World} {src dst : Address} {amt : MicroNovas} {u v : AccountData}
      (hu : (w.account src).withUpdatedRewards x.proto x.rewardsLevel = some u)
      (hamt : amt ≤ u.microNovas)
      (hv : ((w.put src { u with microNovas := u.microNovas - amt }).account dst).withUpdatedRewards
        x.proto x.rewardsLevel = some v)
      (hsum : v.microNovas + amt < 2 ^ 64) :
      Step x num busy w ((w.put src { u with microNovas := u.microNovas - amt }).put dst
        { v with microNovas := v.microNovas + amt })
  | edit {w : World} {tx : Transaction} {u : AccountData}
      (hu : (w.account tx.sender).Edited x.rewardsLevel u) (htx : num.applied tx)
      (hset : Sets x tx (w.account tx.sender) u) : Step x num busy w (w.put tx.sender u)
  | close {w : World} {tx : Transaction} (hmoney : (w.account tx.sender).microNovas = 0)
      (hassets : (w.account tx.sender).assets.keys = [])
      (hassetParams : (w.account tx.sender).assetParams.keys = [])
      (hstates : (w.account tx.sender).appLocalStates.keys = [])
      (hparams : (w.account tx.sender).appParams.keys = []) (htx : num.applied tx)
      (hto : tx.closeRemainderTo ≠ 0) : Step x num busy w (w.put tx.sender {})
  | createAsset {w : World} {addr : Address} {params : AssetParams} (hset : w.Settled)
      (hnew : (w.account addr).assetParams.lookup (w.counter + 1) = none) :
      Step x num busy w ((w.put addr { w.account addr with
        assetParams := (w.account addr).assetParams.upsert (w.counter + 1) params
        assets := (w.account addr).assets.upsert (w.counter + 1) { amount := params.total } }).create
          (w.counter + 1) .asset addr)
  | configAsset {w : World} {creator : Address} {i : AssetIndex} {params params' : AssetParams}
      (hcreator : w.creator i .asset = some creator)
      (hparams : (w.account creator).assetParams.lookup i = some params)
      (htotal : params'.total = params.total) :
      Step x num busy w (w.put creator { w.account creator with
        assetParams := (w.account creator).assetParams.upsert i params' })
  | destroyAsset {w : World} {creator : Address} {i : AssetIndex} {params : AssetParams}
      (hcreator : w.creator i .asset = some creator) (hother : w.creator i .app = none)
      (hparams : (w.account creator).assetParams.lookup i = some params)
      (hholding : Apply.holding (w.account creator) i = params.total) :
      Step x num busy w ((w.uncreate i).put creator { w.account creator with
        assets := (w.account creator).assets.erase i
        assetParams := (w.account creator).assetParams.erase i })
  | optInAsset {w : World} {addr : Address} {i : AssetIndex} {frozen : Bool}
      (hnone : (w.account addr).assets.lookup i = none) :
      Step x num busy w (w.put addr { w.account addr with
        assets := (w.account addr).assets.upsert i { frozen } })
  | transferAsset {w : World} {src dst : Address} {i : AssetIndex} {amt : ℕ} {h k : AssetHolding}
      (hsrc : (w.account src).assets.lookup i = some h) (hamt : amt ≤ h.amount)
      {w₁ : World} (hw₁ : w₁ = w.put src { w.account src with
        assets := (w.account src).assets.upsert i { h with amount := h.amount - amt } })
      (hdst : (w₁.account dst).assets.lookup i = some k) :
      Step x num busy w (w₁.put dst { w₁.account dst with
        assets := (w₁.account dst).assets.upsert i { k with amount := k.amount + amt } })
  | dropHolding {w : World} {addr : Address} {i : AssetIndex}
      (hzero : Apply.holding (w.account addr) i = 0) :
      Step x num busy w (w.put addr { w.account addr with
        assets := (w.account addr).assets.erase i })
  | freezeAsset {w : World} {addr : Address} {i : AssetIndex} {h : AssetHolding} {frozen : Bool}
      (hold : (w.account addr).assets.lookup i = some h) :
      Step x num busy w (w.put addr { w.account addr with
        assets := (w.account addr).assets.upsert i { h with frozen } })
  | createApp {w : World} {addr : Address} {params : AppParams} {schema space : StateSchema}
      {pages : ℕ} (hset : w.Settled) (hempty : params.globalState = ∅)
      (hnew : w.store { addr, aidx := w.counter + 1, global := true } = none) :
      Step x num busy w (((w.put addr { w.account addr with
        appParams := (w.account addr).appParams.upsert (w.counter + 1) params
        totalAppSchema := schema
        totalExtraAppPages := pages }).setStore { addr, aidx := w.counter + 1, global := true }
          (some (.new space))).create (w.counter + 1) .app addr)
  | deleteApp {w : World} {creator : Address} {i : AppIndex} {schema : StateSchema} {pages : ℕ}
      (hbusy : num.ids → i ∉ busy) (hother : num.ids → w.creator i .asset = none) :
      Step x num busy w (((w.put creator { w.account creator with
        totalAppSchema := schema
        totalExtraAppPages := pages
        appParams := (w.account creator).appParams.erase i }).setStore
          { addr := creator, aidx := i, global := true } none).uncreate i)
  | updateApp {w : World} {creator : Address} {i : AppIndex} {approval clear : Bytes}
      (hex : num.ids → ((w.account creator).appParams.lookup i).isSome) :
      Step x num busy w (w.put creator { w.account creator with
        appParams := (w.account creator).appParams.upsert i
          { (w.account creator).appParams.getD i {} with
            approvalProgram := approval
            clearStateProgram := clear } })
  | optInApp {w : World} {addr : Address} {i : AppIndex} {schema space total : StateSchema}
      (hnone : (w.account addr).appLocalStates.lookup i = none)
      (hnew : w.store { addr, aidx := i, global := false } = none) :
      Step x num busy w ((w.put addr { w.account addr with
        appLocalStates := (w.account addr).appLocalStates.upsert i { schema }
        totalAppSchema := total }).setStore { addr, aidx := i, global := false } (some (.new space)))
  | closeOutApp {w : World} {addr : Address} {i : AppIndex} {total : StateSchema} :
      Step x num busy w ((w.put addr { w.account addr with
        totalAppSchema := total
        appLocalStates := (w.account addr).appLocalStates.erase i }).setStore
          { addr, aidx := i, global := false } none)
  | write {w : World} {s : StoragePtr} {st : Store} {limits : StateSchema} {key : Bytes}
      {value : Option TealValue} (hst : w.store s = some st) (hlim : st.limits = .ok limits)
      (hcheck : value.isSome → (st.write limits key value).counts.checkCounts limits = .ok ()) :
      Step x num busy w (w.setStore s (some (st.write limits key value)))
  | count {w : World} : Step x num busy w w.incTxnCount

abbrev Steps (x : BlockContext) (num : Terms) (busy : List AppIndex) : World → World → Prop :=
  Relation.ReflTransGen (Step x num busy)

variable {x : BlockContext} {num : Terms} {busy busy' : List AppIndex} {w w' w'' : World}

/-- What every step keeps, all steps keep. -/
theorem Steps.invariant {P : World → Prop} (h : Steps x num busy w w')
    (hs : ∀ w w', Step x num busy w w' → P w → P w') (hw : P w) : P w' := by
  induction h with
  | refl => exact hw
  | tail _ h ih => exact hs _ _ h ih

theorem put_account (a b : Address) (u : AccountData) :
    (w.put a u).account b = if b = a then u else w.account b := by simp [put, update_apply]

/-! ## Changes that leave assets and applications alone -/

/-- The worlds differ at most in the money, the status and the keys of their accounts. -/
structure SameHoldings (w w' : World) : Prop where
  creator : w'.creator = w.creator
  store : w'.store = w.store
  counter : w'.counter = w.counter
  assigned : w'.assigned = w.assigned
  account : ∀ a, (w'.account a).assets = (w.account a).assets ∧
    (w'.account a).assetParams = (w.account a).assetParams ∧
    (w'.account a).appLocalStates = (w.account a).appLocalStates ∧
    (w'.account a).appParams = (w.account a).appParams

theorem SameHoldings.refl (w : World) : SameHoldings w w :=
  ⟨rfl, rfl, rfl, rfl, fun _ => ⟨rfl, rfl, rfl, rfl⟩⟩

theorem SameHoldings.trans (h : SameHoldings w w') (h' : SameHoldings w' w'') :
    SameHoldings w w'' where
  creator := h'.creator.trans h.creator
  store := h'.store.trans h.store
  counter := h'.counter.trans h.counter
  assigned := h'.assigned.trans h.assigned
  account a :=
    have h1 := h.account a
    have h2 := h'.account a
    ⟨h2.1.trans h1.1, h2.2.1.trans h1.2.1, h2.2.2.1.trans h1.2.2.1, h2.2.2.2.trans h1.2.2.2⟩

variable {a addr creator src dst : Address} {u : AccountData} {apps : List AppIndex} {i : AppIndex}

theorem SameHoldings.put
    (hu : u.assets = (w.account a).assets ∧ u.assetParams = (w.account a).assetParams ∧
      u.appLocalStates = (w.account a).appLocalStates ∧ u.appParams = (w.account a).appParams) :
    SameHoldings w (w.put a u) := by
  refine ⟨rfl, rfl, rfl, rfl, fun b => ?_⟩
  rw [put_account]
  by_cases hb : b = a
  · rw [if_pos hb, hb]
    exact hu
  · rw [if_neg hb]
    exact ⟨rfl, rfl, rfl, rfl⟩

/-- An account that claims its rewards keeps what it holds, whatever its balance becomes. -/
theorem SameHoldings.claim (hu : (w.account a).withUpdatedRewards x.proto x.rewardsLevel = some u)
    (amt : MicroNovas) : SameHoldings w (w.put a { u with microNovas := amt }) := by
  have hr := withUpdatedRewards_rest hu
  exact .put hr

theorem SameHoldings.edit (hu : (w.account a).Edited x.rewardsLevel u) :
    SameHoldings w (w.put a u) :=
  .put ⟨hu.assets, hu.assetParams, hu.appLocalStates, hu.appParams⟩

/-- The accounts of a list go offline. -/
def offline (addrs : List Address) (w : World) : World :=
  { w with account := fun a => if a ∈ addrs then (w.account a).clearOnlineState else w.account a }

theorem SameHoldings.offline (w : World) (addrs : List Address) :
    SameHoldings w (w.offline addrs) := by
  refine ⟨rfl, rfl, rfl, rfl, fun a => ?_⟩
  simp only [World.offline]
  split_ifs <;> exact ⟨rfl, rfl, rfl, rfl⟩

/-- The two accounts of a move keep what they hold. -/
theorem SameHoldings.move {amt : MicroNovas}
    (hu : (w.account src).withUpdatedRewards x.proto x.rewardsLevel = some u)
    (hv : ((w.put src { u with microNovas := u.microNovas - amt }).account dst).withUpdatedRewards
      x.proto x.rewardsLevel = some v) :
    SameHoldings w ((w.put src { u with microNovas := u.microNovas - amt }).put dst
      { v with microNovas := v.microNovas + amt }) := by
  have hs := claim hu (u.microNovas - amt)
  exact hs.trans (.claim hv (v.microNovas + amt))

theorem Step.mono (h3 : busy ⊆ busy') (h : Step x num busy' w w') : Step x num busy w w' := by
  cases h with
  | move hu ha hv h4 => exact .move hu ha hv h4
  | edit hu ht h1 => exact .edit hu ht h1
  | close hm hass h5 hstt hp ht h1 => exact .close hm hass h5 hstt hp ht h1
  | createAsset hs hne => exact .createAsset hs hne
  | configAsset hc hp ht => exact .configAsset hc hp ht
  | destroyAsset hc h1 hp hh => exact .destroyAsset hc h1 hp hh
  | optInAsset h2 => exact .optInAsset h2
  | transferAsset hr ha hw₁ hd => exact .transferAsset hr ha hw₁ hd
  | dropHolding hz => exact .dropHolding hz
  | freezeAsset ho => exact .freezeAsset ho
  | createApp hs he hne => exact .createApp hs he hne
  | deleteApp hb h1 => exact .deleteApp (fun hn hi => hb hn (h3 hi)) h1
  | updateApp hx => exact .updateApp hx
  | optInApp h2 hne => exact .optInApp h2 hne
  | closeOutApp => exact .closeOutApp
  | write h6 hl h7 => exact .write h6 hl h7
  | count => exact .count

theorem Steps.mono (hs : busy ⊆ busy') (h : Steps x num busy' w w') : Steps x num busy w w' :=
  Relation.ReflTransGen.mono (fun _ _ => Step.mono hs) _ _ h

/-! ## Counting and numbering -/

/-- What a step does to the counter, the ids and the creators. -/
inductive Numbers (w w' : World) : Prop
  | same (hcounter : w'.counter = w.counter) (hassigned : w'.assigned = w.assigned)
      (hcreator : ∀ i t, w'.creator i t ≠ none → w.creator i t ≠ none)
  | counted (hcounter : w'.counter = w.counter + 1) (hassigned : w'.assigned = w.assigned)
      (hcreator : w'.creator = w.creator)
  | assigned (hset : w.Settled) (hcounter : w'.counter = w.counter)
      (hassigned : w'.assigned = w.assigned ++ [w.counter + 1])
      (hcreator : ∀ i t, w'.creator i t ≠ none → w.creator i t ≠ none ∨ i = w.counter + 1)

theorem Numbers.uncreate {i : CreatableIndex} (hc : w'.counter = w.counter)
    (ha : w'.assigned = w.assigned)
    (hr : w'.creator = update w.creator i fun _ => none) : Numbers w w' := by
  refine .same hc ha fun j t hj => ?_
  rw [hr, update_apply] at hj
  split_ifs at hj with hi
  · exact absurd rfl hj
  · exact hj

theorem Numbers.create (hs : w.Settled) (hc : w'.counter = w.counter)
    (ha : w'.assigned = w.assigned ++ [w.counter + 1])
    (hr : w'.creator = update w.creator (w.counter + 1)
      fun t => if t = ctype then some addr else none) : Numbers w w' := by
  refine .assigned hs hc ha fun j t hj => ?_
  rw [hr, update_apply] at hj
  split_ifs at hj with hi
  · exact .inr hi
  · exact .inl hj

theorem Step.numbers (h : Step x num busy w w') : Numbers w w' := by
  cases h with
  | createAsset hs | createApp hs => exact .create hs rfl rfl rfl
  | destroyAsset | deleteApp => exact .uncreate rfl rfl rfl
  | count => exact .counted rfl rfl rfl
  | transferAsset _ _ hw₁ _ =>
    subst hw₁
    exact .same rfl rfl fun _ _ => id
  | _ => exact .same rfl rfl fun _ _ => id

theorem Numbers.counter_le (h : Numbers w w') : w.counter ≤ w'.counter := by
  cases h with
  | same hc => exact hc.ge
  | counted hc => exact hc ▸ Nat.le_succ _
  | assigned _ hc => exact hc.ge

theorem Numbers.assigned_subset (h : Numbers w w') : w.assigned ⊆ w'.assigned := by
  intro i hi
  cases h with
  | same _ ha | counted _ ha => exact ha ▸ hi
  | assigned _ _ ha =>
    rw [ha]
    exact List.mem_append_left _ hi

theorem Ahead.step (hw : w.Ahead) (h : Numbers w w') : w'.Ahead := by
  intro i hi
  cases h with
  | same hc ha | counted hc ha =>
    have := hw i (ha ▸ hi)
    lia
  | assigned hs hc ha =>
    rw [ha, List.mem_append, List.mem_singleton] at hi
    rcases hi with hi | hi
    · have := hs i hi
      lia
    · lia

theorem Numbered.step (hw : w.Numbered) (h : Numbers w w') : w'.Numbered := by
  intro i t hi
  have ho : w.creator i t ≠ none → i ≤ w'.counter ∨ i ∈ w'.assigned := fun hi => by
    rcases hw i t hi with hl | hm
    · exact .inl (hl.trans h.counter_le)
    · exact .inr (h.assigned_subset hm)
  cases h with
  | same hn ha hc => exact ho (hc i t hi)
  | counted hn ha hc => exact ho (hc ▸ hi)
  | assigned _ hn ha hc =>
    rcases hc i t hi with hi | rfl
    · exact ho hi
    · exact .inr (by simp [ha])

theorem Known.step (hw : w.Known apps) (h : Numbers w w') : w'.Known apps := by
  intro i hi
  rcases hw i hi with hl | hm
  · exact .inl (hl.trans h.counter_le)
  · exact .inr (h.assigned_subset hm)

theorem Ahead.steps (hw : w.Ahead) (h : Steps x num busy w w') : w'.Ahead :=
  h.invariant (fun _ _ hs hw => hw.step hs.numbers) hw

theorem Numbered.steps (hw : w.Numbered) (h : Steps x num busy w w') : w'.Numbered :=
  h.invariant (fun _ _ hs hw => hw.step hs.numbers) hw

theorem Known.steps (hw : w.Known apps) (h : Steps x num busy w w') : w'.Known apps :=
  h.invariant (fun _ _ hs hw => hw.step hs.numbers) hw

theorem Ahead.settled_incTxnCount (hw : w.Ahead) : w.incTxnCount.Settled := hw

/-- With all ids counted, the next one is not in use. -/
theorem Known.not_next (hw : w.Known apps) (hs : w.Settled) : w.counter + 1 ∉ apps := by
  intro hm
  rcases hw _ hm with _ | hi
  · lia
  · have := hs _ hi
    lia

theorem Numbered.creator_next (hw : w.Numbered) (hs : w.Settled) (t : CreatableType) :
    w.creator (w.counter + 1) t = none := by
  by_contra hm
  rcases hw _ t hm with _ | hi
  · lia
  · have := hs _ hi
    lia

theorem HasApp.known (hw : w.Numbered) (h : w.HasApp i creator) : i ≤ w.counter ∨ i ∈ w.assigned :=
  hw i .app (by simp [h.creator_eq])

/-! ## Busy applications stay -/

theorem HasApp.put (h : w.HasApp i creator)
    (hu : ((w.account addr).appParams.lookup i).isSome → (u.appParams.lookup i).isSome) :
    (w.put addr u).HasApp i creator := by
  refine ⟨h.creator_eq, ?_⟩
  rw [put_account]
  split_ifs with he
  · exact hu (he ▸ h.params)
  · exact h.params

theorem HasApp.create {i j : CreatableIndex} (h : w.HasApp i creator) (hi : i ≠ j) :
    (w.create j ctype addr).HasApp i creator :=
  ⟨by simp only [World.create, update_of_ne hi, h.creator_eq], h.params⟩

theorem HasApp.uncreate {i j : CreatableIndex} (h : w.HasApp i creator) (hi : i ≠ j) :
    (w.uncreate j).HasApp i creator :=
  ⟨by simp only [World.uncreate, update_of_ne hi, h.creator_eq], h.params⟩

theorem HasApp.setStore (h : w.HasApp i creator) (s : StoragePtr) (st : Option Store) :
    (w.setStore s st).HasApp i creator :=
  ⟨h.creator_eq, h.params⟩

theorem HasApp.step (hw : w.Numbered) (hi : w.HasApp i creator) (hb : i ∈ busy) (hn : num.ids)
    (h : Step x num busy w w') : w'.HasApp i creator := by
  -- the id of a new asset or application is not `i`
  have hx : w.Settled → i ≠ w.counter + 1 := by
    rintro hs rfl
    have h1 := hw.creator_next hs .app
    rw [hi.creator_eq] at h1
    cases h1
  cases h with
  | move hu ha hv _ =>
    refine put (hi.put fun hm => ?_) fun hm => ?_
    · exact (withUpdatedRewards_rest hu).2.2.2.symm ▸ hm
    · exact (withUpdatedRewards_rest hv).2.2.2.symm ▸ hm
  | edit hu => exact hi.put fun hm => hu.appParams ▸ hm
  | close _ _ _ _ hp =>
    refine hi.put fun hm => ?_
    rw [Dict.lookup_of_keys_eq_nil hp] at hm
    cases hm
  | createAsset hs h2 => exact create (put hi id) (hx hs)
  | configAsset | optInAsset | dropHolding | freezeAsset => exact put hi id
  | destroyAsset _ ho hp _ =>
    refine put (uncreate hi fun hj => ?_) id
    rw [← hj, hi.creator_eq] at ho
    cases ho
  | transferAsset _ ha hw₁ _ =>
    subst hw₁
    exact put (put hi id) id
  | createApp hs _ h2 =>
    refine create (setStore (put hi fun hm => ?_) _ _) (hx hs)
    rw [Dict.lookup_upsert]
    split_ifs
    · rfl
    · exact hm
  | @deleteApp _ j _ _ hf ho =>
    have he : i ≠ j := fun hj => hf hn (hj ▸ hb)
    refine uncreate (setStore (put hi fun hm => ?_) _ _) he
    rw [Dict.lookup_erase', if_neg he]
    exact hm
  | updateApp _ =>
    refine hi.put fun hm => ?_
    rw [Dict.lookup_upsert]
    split_ifs
    · rfl
    · exact hm
  | optInApp | closeOutApp =>
    refine setStore ?_ _ _
    exact put hi id
  | write _ _ _ => exact hi.setStore _ _
  | count => exact ⟨hi.creator_eq, hi.params⟩

theorem HasApp.steps (hw : w.Numbered) (hi : w.HasApp i creator) (hb : i ∈ busy) (hn : num.ids)
    (h : Steps x num busy w w') : w'.HasApp i creator := by
  induction h with
  | refl => exact hi
  | tail hr hs ih => exact ih.step (hw.steps hr) hb hn hs

/-! ## Keys and authorizers -/

theorem credentials_update {f : Address → AccountData} (h : u.credentials = (f a).credentials)
    (b : Address) : (update f a u b).credentials = (f b).credentials := by
  rw [update_apply]
  split_ifs with hb
  · rw [hb, h]
  · rfl

/-- The authorizer and the keys of an account are changed by its own transactions only: one that sets
them, or one that closes the account. -/
theorem Step.credentials (h : Step x num busy w w') :
    (∃ tx u, num.applied tx ∧ Sets x tx (w.account tx.sender) u ∧ w' = w.put tx.sender u) ∨
      (∃ tx, num.applied tx ∧ tx.closeRemainderTo ≠ 0 ∧ w' = w.put tx.sender {}) ∨
      ∀ a, (w'.account a).credentials = (w.account a).credentials := by
  cases h with
  | edit _ ht hs => exact .inl ⟨_, _, ht, hs, rfl⟩
  | close _ _ _ _ _ ht hc => exact .inr (.inl ⟨_, ht, hc, rfl⟩)
  | move hu _ hv =>
    have h1 := withUpdatedRewards_credentials hu
    have h2 := withUpdatedRewards_credentials hv
    refine .inr (.inr fun b => (credentials_update ?_ b).trans (credentials_update ?_ b))
    · exact h2
    · exact h1
  | transferAsset _ _ hw =>
    subst hw
    refine .inr (.inr fun b => (credentials_update ?_ b).trans (credentials_update ?_ b))
    · rfl
    · rfl
  | write | count => exact .inr (.inr fun _ => rfl)
  | _ => exact .inr (.inr (credentials_update rfl))

end World

/-- Every step keeps the invariant. -/
class Terms.Kept (num : Terms) (x : BlockContext) : Prop where
  step : ∀ {busy w w'}, World.Step x num busy w w' → num.inv w → num.inv w'

instance {ids : Prop} {applied : Transaction → Prop} {x : BlockContext} :
    Terms.Kept { ids, applied } x := ⟨fun _ => id⟩

end Novarand.Ledger
