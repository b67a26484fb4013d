import Novarand.Ledger.History
import Novarand.Ledger.Money

/-!
# The total of an asset

The holdings of an asset that exists add up to its total, and nobody holds anything of an asset that
does not exist. Every step of the ledger keeps this; a destroyed asset stays destroyed, because its id
is counted and new ids are not.
-/

namespace Novarand.Ledger

open Function Dict

namespace Apply

variable {u u' : AccountData} {i j : AssetIndex}

theorem holding_default (i : AssetIndex) : holding {} i = 0 := rfl

theorem holding_of_assets (h : u'.assets = u.assets) : holding u' i = holding u i := by
  unfold holding
  rw [h]

theorem holding_of_lookup {h : AssetHolding} (hu : u.assets.lookup i = some h) :
    holding u i = h.amount := by
  unfold holding
  rw [hu]
  rfl

theorem holding_upsert {h : AssetHolding} (hu : u'.assets = u.assets.upsert j h) :
    holding u' i = if i = j then h.amount else holding u i := by
  unfold holding
  rw [hu, lookup_upsert]
  by_cases hi : i = j
  · rw [if_pos hi, if_pos hi]
    rfl
  · rw [if_neg hi, if_neg hi]

theorem holding_erase (hu : u'.assets = u.assets.erase j) :
    holding u' i = if i = j then 0 else holding u i := by
  unfold holding
  rw [hu, lookup_erase']
  by_cases hi : i = j
  · rw [if_pos hi, if_pos hi]
    rfl
  · rw [if_neg hi, if_neg hi]

end Apply

open Apply

variable {j : AssetIndex} {params : AssetParams}

namespace World

variable {x : BlockContext} {busy : List AppIndex} {i : AssetIndex} {w w' : World}

/-- The sum of all holdings of an asset. -/
noncomputable def held (i : AssetIndex) (w : World) : ℕ := w.sum (holding · i)

/-- The holdings of the asset add up to its total, and to nothing when it does not exist. -/
structure Issued (i : AssetIndex) (w : World) : Prop where
  total : ∀ creator, w.creator i .asset = some creator →
    ∃ params, (w.account creator).assetParams.lookup i = some params ∧ w.held i = params.total
  none : w.creator i .asset = none → w.held i = 0

/-- What keeps the total of an asset: the same creator, the same sum, and the record of the asset with
the same total wherever it is. -/
theorem Issued.of_eq (h : Issued i w) (hr : w'.creator i .asset = w.creator i .asset)
    (hh : w'.held i = w.held i)
    (hp : ∀ a params, (w.account a).assetParams.lookup i = some params →
      ∃ params', (w'.account a).assetParams.lookup i = some params' ∧
        params'.total = params.total) : Issued i w' := by
  refine ⟨fun creator hc => ?_, fun hc => ?_⟩
  · obtain ⟨params, hl, ht⟩ := h.total creator (hr ▸ hc)
    obtain ⟨params', hl', ht'⟩ := hp creator params hl
    exact ⟨params', hl', by rw [hh, ht, ht']⟩
  · rw [hh]
    exact h.none (hr ▸ hc)

theorem held_congr (h : ∀ a, (w'.account a).assets = (w.account a).assets) : w'.held i = w.held i := by
  unfold held sum
  exact sumOf_congr fun a => holding_of_assets (h a)

theorem holding_le_held (hf : w.FewAccounts) (a : Address) : holding (w.account a) i ≤ w.held i :=
  le_sumOf (g := (holding · i)) hf (holding_default i) a

variable {a addr creator src dst : Address} {u v : AccountData}

theorem held_update (hf : w.FewAccounts) (ha : w'.account = update w.account a u) :
    w'.held i + holding (w.account a) i = w.held i + holding u i := by
  have hs := sumOf_update (g := (holding · i)) hf (holding_default i) a u
  rw [← ha] at hs
  exact hs

/-- A change of one account that keeps its holding and its record of the asset. -/
theorem Issued.update (h : Issued i w) (hf : w.FewAccounts)
    (ha : w'.account = update w.account a u)
    (hc : w'.creator i .asset = w.creator i .asset)
    (hh : holding u i = holding (w.account a) i)
    (hp : ∀ params, (w.account a).assetParams.lookup i = some params →
      ∃ params', u.assetParams.lookup i = some params' ∧ params'.total = params.total) :
    Issued i w' := by
  refine h.of_eq hc ?_ fun b params hb => ?_
  · have hs : w'.held i + _ = _ := held_update hf ha
    lia
  · rw [ha, update_apply]
    by_cases h1 : b = a
    · subst h1
      rw [if_pos rfl]
      exact hp params hb
    · rw [if_neg h1]
      exact ⟨params, hb, rfl⟩

theorem SameHoldings.issued (h : SameHoldings w w') (hi : Issued i w) : Issued i w' := by
  refine hi.of_eq (by rw [h.creator]) ?_ fun a pr ha => ⟨pr, ?_, rfl⟩
  · exact held_congr fun a => (h.account a).1
  · rw [(h.account a).2.1]
    exact ha

theorem Carried.issued (h : Carried w w') (hi : Issued i w) : Issued i w' := by
  refine hi.of_eq (by rw [h.creator]) ?_ fun a pr ha => ⟨pr, ?_, rfl⟩
  · exact held_congr fun a => (h.account a).1
  · rw [(h.account a).2]
    exact ha

/-! ## Steps -/

section

variable (h : Issued i w) (hf : w.FewAccounts)
include h hf

/-- A new asset: nobody held anything of it, and its creator holds its total. -/
theorem Issued.create (hn : w.Numbered) (hs : w.Settled)
    (ha : u.assets = (w.account addr).assets.upsert (w.counter + 1) { amount := params.total })
    (hr : u.assetParams = (w.account addr).assetParams.upsert (w.counter + 1) params) :
    Issued i ((w.put addr u).create (w.counter + 1) .asset addr) := by
  have hh := holding_upsert (i := i) ha
  by_cases hi : i = w.counter + 1
  · subst hi
    have hz := h.none (hn.creator_next hs .asset)
    have hu : ((w.put addr u).create (w.counter + 1) .asset addr).held (w.counter + 1) + _ = _ :=
      held_update hf rfl
    have hl : holding (w.account addr) (w.counter + 1) ≤ w.held (w.counter + 1) :=
      holding_le_held hf addr
    refine ⟨fun cr hc => ⟨params, ?_, ?_⟩, fun hc => ?_⟩
    · simp only [World.create, put, update_self, if_true, Option.some.injEq] at hc
      subst hc
      simp only [World.create, put, update_self]
      rw [hr, lookup_upsert, if_pos rfl]
    · lia
    · simp only [World.create, put, update_self, if_true] at hc
      cases hc
  · rw [if_neg hi] at hh
    refine h.update hf rfl ?_ hh fun pr' hp => ⟨pr', ?_, rfl⟩
    · simp [World.create, put, update_of_ne hi]
    · rw [hr, lookup_upsert, if_neg hi]
      exact hp

/-- A destroyed asset: its creator held all of it. -/
theorem Issued.destroy (hr : w.creator j .asset = some creator)
    (hl : (w.account creator).assetParams.lookup j = some params)
    (ho : holding (w.account creator) j = params.total)
    (ha : u.assets = (w.account creator).assets.erase j)
    (h1 : u.assetParams = (w.account creator).assetParams.erase j) :
    Issued i ((w.uncreate j).put creator u) := by
  have hh := holding_erase (i := i) ha
  by_cases hi : i = j
  · subst hi
    have hs : ((w.uncreate i).put creator u).held i + _ = _ := held_update hf rfl
    obtain ⟨pr', _, _⟩ := h.total creator hr
    refine ⟨fun cr' hc => ?_, fun _ => ?_⟩
    · simp only [uncreate, put, update_self] at hc
      cases hc
    · lia
  · rw [if_neg hi] at hh
    refine h.update hf rfl ?_ hh fun pr' hp => ⟨pr', ?_, rfl⟩
    · simp [uncreate, put, update_of_ne hi]
    · rw [h1, lookup_erase', if_neg hi]
      exact hp

/-- A change of the assets of one account that keeps what it holds. -/
theorem Issued.putAssets (hh : holding u i = holding (w.account a) i)
    (hr : u.assetParams = (w.account a).assetParams) : Issued i (w.put a u) := by
  refine h.update hf rfl rfl hh fun pr hp => ⟨pr, ?_, rfl⟩
  rw [hr]
  exact hp

/-- A transfer takes from one holding what it adds to another, which may be the same. -/
theorem Issued.transfer {amt : ℕ} {holding holding' : AssetHolding}
    (hs : (w.account src).assets.lookup j = some holding) (h7 : amt ≤ holding.amount)
    (h3 : u.assets = (w.account src).assets.upsert j
      { holding with amount := holding.amount - amt })
    (h4 : u.assetParams = (w.account src).assetParams)
    (hd : ((w.put src u).account dst).assets.lookup j = some holding')
    (h5 : v.assets = ((w.put src u).account dst).assets.upsert j
      { holding' with amount := holding'.amount + amt })
    (hp : v.assetParams = ((w.put src u).account dst).assetParams) :
    Issued i ((w.put src u).put dst v) := by
  have hu := holding_upsert (i := i) h3
  have hv := holding_upsert (i := i) h5
  have h6 : (w.put src u).held i + _ = _ := held_update hf rfl
  have hs' : ((w.put src u).put dst v).held i + _ = _ := held_update (hf.put src u) rfl
  refine h.of_eq rfl ?_ fun a pr ha => ⟨pr, ?_, rfl⟩
  · by_cases hi : i = j
    · subst hi
      rw [holding_of_lookup hs] at h6
      rw [holding_of_lookup hd] at hs'
      lia
    · lia
  · have hm : ((w.put src u).account a).assetParams = (w.account a).assetParams := by
      rw [put_account]
      by_cases h1 : a = src
      · rw [if_pos h1, h4, h1]
      · rw [if_neg h1]
    rw [put_account]
    by_cases h2 : a = dst
    · rw [if_pos h2, hp, ← h2, hm]
      exact ha
    · rw [if_neg h2, hm]
      exact ha

/-- Every step keeps the total of every asset. -/
theorem Issued.step (hn : w.Numbered) (h2 : Step x True busy w w') : Issued i w' := by
  cases h2 with
  | move hu ha hv _ => exact (SameHoldings.move hu hv).issued h
  | edit hu => exact (SameHoldings.edit hu).issued h
  | @close ad _ hass h3 _ hr =>
    refine h.update hf rfl rfl ?_ fun pr hp => ?_
    · unfold holding
      rw [lookup_of_keys_eq_nil hass]
      rfl
    · rw [lookup_of_keys_eq_nil h3] at hp
      cases hp
  | createAsset hs he => exact h.create hf hn hs rfl rfl
  | @configAsset cr j pr pr' hc hl ht =>
    refine h.update hf rfl rfl rfl fun params'' hp => ?_
    rw [lookup_upsert]
    by_cases hi : i = j
    · subst hi
      rw [if_pos rfl]
      obtain rfl : pr = params'' := Option.some.inj (hl.symm.trans hp)
      exact ⟨pr', rfl, ht⟩
    · rw [if_neg hi]
      exact ⟨params'', hp, rfl⟩
  | destroyAsset hc h1 hr hh =>
    exact h.destroy hf hc hr hh rfl rfl
  | @optInAsset ad j fr h4 =>
    refine h.putAssets hf ?_ rfl
    refine (holding_upsert (u := w.account ad) rfl).trans ?_
    by_cases hi : i = j
    · rw [if_pos hi, hi]
      unfold holding
      rw [h4]
      rfl
    · rw [if_neg hi]
  | transferAsset h5 ha hw₁ hd =>
    subst hw₁
    exact h.transfer hf h5 ha rfl rfl hd rfl rfl
  | @dropHolding ad j hz =>
    refine h.putAssets hf ?_ rfl
    refine (holding_erase (u := w.account ad) rfl).trans ?_
    by_cases hi : i = j
    · rw [if_pos hi, hi, hz]
    · rw [if_neg hi]
  | @freezeAsset ad j holding fr ho =>
    refine h.putAssets hf ?_ rfl
    refine (holding_upsert (u := w.account ad) rfl).trans ?_
    by_cases hi : i = j
    · rw [if_pos hi, hi, holding_of_lookup ho]
    · rw [if_neg hi]
  | @createApp ad pr sc _ pg hs _ he =>
    refine h.update hf rfl ?_ rfl fun pr hp => ⟨pr, hp, rfl⟩
    -- the id of the application is no asset before, and none after
    simp only [World.create, put, setStore, update_apply]
    by_cases hi : i = w.counter + 1
    · rw [if_pos hi, hi, hn.creator_next hs .asset]
      rfl
    · rw [if_neg hi]
  | @deleteApp cr j sc pg _ h1 =>
    refine h.update hf rfl ?_ rfl fun pr hp => ⟨pr, hp, rfl⟩
    simp only [uncreate, put, setStore, update_apply]
    by_cases hi : i = j
    · rw [if_pos hi, hi, h1 trivial]
    · rw [if_neg hi]
  | updateApp _ => exact h.putAssets hf rfl rfl
  | optInApp | closeOutApp =>
    exact h.update hf rfl rfl rfl fun pr hp => ⟨pr, hp, rfl⟩
  | write | count => exact h.of_eq rfl rfl fun a pr hp => ⟨pr, hp, rfl⟩

theorem Issued.steps (hn : w.Numbered) (hs : Steps x True busy w w') : Issued i w' := by
  induction hs with
  | refl => exact h
  | @tail w₁ _ hru hp ih =>
    have hf1 : w₁.FewAccounts := (Steps.sum_worth hf hru).1
    exact ih.step hf1 (hn.steps hru) hp

end

/-! ## Destroyed assets -/

/-- An asset that does not exist, and whose id is used up. -/
structure Gone (i : AssetIndex) (w : World) : Prop where
  creator_none : w.creator i .asset = none
  known : w.Known [i]

theorem Gone.step (h : Gone i w) (ht : Step x True busy w w') : Gone i w' := by
  refine ⟨?_, h.known.step ht.numbers⟩
  by_contra he
  cases ht.numbers with
  | same h1 ha hc => exact hc i .asset he h.creator_none
  | counted h1 ha hc => exact he (hc ▸ h.creator_none)
  | assigned hs h1 ha hc =>
    rcases hc i .asset he with ho | hn
    · exact ho h.creator_none
    · exact h.known.not_next hs (hn ▸ List.mem_singleton_self i)

theorem Gone.steps (h : Gone i w) (hs : Steps x True busy w w') : Gone i w' :=
  hs.invariant (fun _ _ hp h => h.step hp) h

theorem Carried.gone (h : Carried w w') (hs : w.Settled) (hg : Gone i w) : Gone i w' := by
  refine ⟨by rw [h.creator, hg.creator_none], fun j hj => .inl ?_⟩
  rw [h.counter]
  exact (hg.known j hj).elim id (hs j)

end World

/-! ## Histories -/

namespace BlockEvaluator

variable {P : Type} {env : Environment P} {ev ev₁ ev₂ ev₃ : BlockEvaluator} {i : AssetIndex}

theorem Regular.fewAccounts (h : Regular ev) : ev.state.view.FewAccounts := by
  show AlmostAll {} ev.state.lookup
  rw [Cow.lookup_over h.ready.toOver]
  exact almostAll_getD _

section

variable (h : Regular ev) (hru : Reaches env ev ev₁)
include h hru

theorem Regular.issued : Regular ev₁ ∧ (ev.state.view.Issued i → ev₁.state.view.Issued i) :=
  h.reaches
    (fun hr hi hs => hi.steps hr.fewAccounts (hr.ready.numbered trivial) hs)
    (fun _ hc hi => hc.issued hi) hru

theorem Regular.gone : Regular ev₁ ∧ (ev.state.view.Gone i → ev₁.state.view.Gone i) :=
  h.reaches (fun _ hg ht => hg.steps ht) (fun hs hc hg => hc.gone hs hg) hru

/-- An asset that existed and does not exist any more is gone. -/
theorem Regular.gone_of_destroyed (he : ev.state.view.creator i .asset ≠ none)
    (hn : ev₁.state.view.creator i .asset = none) : ev₁.state.view.Gone i := by
  refine ⟨hn, ?_⟩
  -- the id is known from the start, and known ids stay known
  have h1 : ev.state.view.Known [i] := by
    intro j hj
    rw [List.mem_singleton.mp hj]
    exact h.ready.numbered trivial i .asset he
  have hp := h.reaches (I := World.Known [i]) (fun _ hk ht => hk.steps ht)
    (fun hs hc hk j hj => .inl (hc.counter ▸ (hk j hj).elim id (hs j))) hru
  exact hp.2 h1

end

/-- Start a block on a ledger whose ids are numbered, where the holdings of the asset add up to its
total (to nothing if there is no such asset), and let any groups and blocks follow. While the asset
exists its holdings add up to its total, and once it was destroyed nobody holds any of it. -/
theorem asset_total_kept {l : LedgerForEvaluator} {hdr : BlockHeader} {validate generate : Bool}
    {maxBytes : ℤ} (hstart : startEvaluator env l hdr validate generate maxBytes = .ok ev)
    (rewardAddresses : List Address) (hnum : (Cow.base (l.base ev.prevHeader)).view.Numbered)
    (hissued : ev.state.view.Issued i) (hrun₁ : Reaches env { ev with rewardAddresses } ev₁)
    (hrun₂ : Reaches env ev₁ ev₂) (hrun₃ : Reaches env ev₂ ev₃) :
    (∀ creator, ev₁.state.getCreator i .asset = some creator →
      ∃ params, (ev₁.state.lookup creator).assetParams.lookup i = some params ∧
        sumOf (holding · i) ev₁.state.lookup = params.total) ∧
    (ev₁.state.getCreator i .asset ≠ none → ev₂.state.getCreator i .asset = none →
      ∀ a, holding (ev₃.state.lookup a) i = 0) := by
  have hr := ((startEvaluator_started hstart).withRewardAddresses rewardAddresses).regular hnum
  obtain ⟨hr1, hi1⟩ := hr.issued (i := i) hrun₁
  refine ⟨(hi1 hissued).total, fun he hn a => ?_⟩
  obtain ⟨hr2, hi2⟩ := hr1.issued (i := i) hrun₂
  obtain ⟨hr3, hi3⟩ := hr2.issued (i := i) hrun₃
  have hg := hr1.gone_of_destroyed hrun₂ he hn
  have hg3 := (hr2.gone hrun₃).2 hg
  have hz := (hi3 (hi2 (hi1 hissued))).none hg3.creator_none
  have hl := World.holding_le_held (i := i) hr3.fewAccounts a
  exact Nat.eq_zero_of_le_zero (hz ▸ hl)

end BlockEvaluator

namespace Sample

open BlockEvaluator

/-- A transfer of the asset 11. -/
def transfer (note : UInt8) (sender : Address) (tx : Transaction) : List SignedTxnWithAD :=
  [{ signedTxn := { txn := { (signed note tx).signedTxn.txn with
    sender, type := .assetTransfer, xferAsset := 11 } } }]

/-- The asset 11 is created, 4 opts in and gets three units, and one is clawed back. -/
def issuing : List (List SignedTxnWithAD) :=
  [[signed 1 { type := .assetConfig, assetParams := { total := 7, manager := 1, clawback := 1 } }],
    transfer 2 4 { assetReceiver := 4 }, transfer 3 1 { assetReceiver := 4, assetAmount := 3 },
    transfer 4 1 { assetSender := 4, assetReceiver := 1, assetAmount := 1 }]

/-- 4 closes its slot, and the asset is destroyed. -/
def withdrawing : List (List SignedTxnWithAD) :=
  [transfer 5 4 { assetReceiver := 1, assetCloseTo := 1 },
    [signed 6 { type := .assetConfig, configAsset := 11 }]]

/-- A block with these groups: the evaluator before, between and after. -/
def assetRun : Except EvalError (BlockEvaluator × BlockEvaluator × BlockEvaluator) := do
  let ev₀ ← startEvaluator env ledger header true true 0
  let ev₁ ← evalGroups env issuing ev₀
  let ev₂ ← evalGroups env withdrawing ev₁
  return (ev₀, ev₁, ev₂)

theorem ledger_numbered (hdr : BlockHeader) : (Cow.base (ledger.base hdr)).view.Numbered :=
  fun _ _ h => absurd rfl h

theorem ledger_issued (hdr : BlockHeader) : (Cow.base (ledger.base hdr)).view.Issued 11 := by
  refine ⟨fun cr hc => ?_, fun _ => ?_⟩
  · cases hc
  · have hs := sumOf_getD (g := (holding · 11)) ledger.accounts (holding_default 11)
    exact hs.trans (by decide +kernel)

end Sample

open BlockEvaluator

theorem asset_total_kept_destroyed : ∃ ev₀ ev₁ ev₂, Sample.assetRun = .ok (ev₀, ev₁, ev₂) ∧
    holding (ev₁.state.lookup 1) 11 = 5 ∧ holding (ev₁.state.lookup 4) 11 = 2 ∧
    (∃ params, (ev₁.state.lookup 1).assetParams.lookup 11 = some params ∧
      sumOf (holding · 11) ev₁.state.lookup = params.total) ∧
    ∀ a, holding (ev₂.state.lookup a) 11 = 0 := by
  have hd : Sample.assetRun.toOption.map (fun r =>
      ((holding (r.2.1.state.lookup 1) 11, holding (r.2.1.state.lookup 4) 11),
        r.2.1.state.getCreator 11 .asset, r.2.2.state.getCreator 11 .asset)) =
      some ((5, 2), some 1, none) := by decide +kernel
  obtain ⟨⟨ev₀, ev₁, ev₂⟩, hru, hc⟩ := exists_ok_of_toOption hd
  obtain ⟨hh, hc⟩ := Prod.mk.inj hc
  obtain ⟨hm, hh⟩ := Prod.mk.inj hh
  obtain ⟨he, hn⟩ := Prod.mk.inj hc
  have hp := hru
  simp only [Sample.assetRun, bind_ok, pure_ok, Prod.mk.injEq] at hp
  obtain ⟨ev, hs, ev', h1, ev'', h2, hv, he', he''⟩ := hp
  subst hv he' he''
  have hi := (startEvaluator_started hs).withdrawn.2.issued (Sample.ledger_issued _)
  obtain ⟨ht, hz⟩ := asset_total_kept hs ev.rewardAddresses (Sample.ledger_numbered _)
    hi (reaches_evalGroups h1) (reaches_evalGroups h2) .refl
  exact ⟨ev, ev', ev'', hru, hm, hh, ht 1 he, hz (by rw [he]; simp) hn⟩

end Novarand.Ledger
