import Novarand.Ledger.Counter

/-!
# Blocks one after the other

An evaluator takes groups, and after the end of its block an evaluator of the next block starts on the
ledger with the delta of the block. What holds of the evaluators of such a history is proved by what
one group does, as steps of the ledger, and by what the next ledger carries over.
-/

namespace Novarand.Ledger

open Cow

/-- The ledger `l'` has the accounts and creatables of `l` with the changes of a delta. -/
structure LedgerForEvaluator.Next (l : LedgerForEvaluator) (delta : StateDelta)
    (l' : LedgerForEvaluator) : Prop where
  account : ∀ a, l'.accounts.getD a {} = (l.accounts.merge delta.accts).getD a {}
  creator : ∀ i, l'.creators.lookup i =
    match delta.creatables.lookup i with
    | some m => if m.created then some (m.ctype, m.creator) else none
    | none => l.creators.lookup i

namespace World

variable {w w' w'' : World}

/-- What a ledger carries over from the end of a block: the assets, the creators and the counter. -/
structure Carried (w w' : World) : Prop where
  account : ∀ a, (w'.account a).assets = (w.account a).assets ∧
    (w'.account a).assetParams = (w.account a).assetParams
  creator : w'.creator = w.creator
  counter : w'.counter = w.counter

theorem SameHoldings.carried (h : SameHoldings w w') : Carried w w' :=
  ⟨fun a => ⟨(h.account a).1, (h.account a).2.1⟩, h.creator, h.counter⟩

theorem Carried.trans (h : Carried w w') (h' : Carried w' w'') : Carried w w'' where
  account a := ⟨(h'.account a).1.trans (h.account a).1, (h'.account a).2.trans (h.account a).2⟩
  creator := h'.creator.trans h.creator
  counter := h'.counter.trans h.counter

/-- At the end of a block everything that exists is counted. -/
theorem Carried.numbered (h : Carried w w') (hw : w.Numbered) (hs : w.Settled) : w'.Numbered := by
  intro i t hi
  rw [h.creator] at hi
  rw [h.counter]
  exact .inl ((hw i t hi).elim id (hs i))

end World

/-! ## The ledger after a block -/

/-- Storage deltas leave the assets of an account alone. -/
theorem applyStorageDelta_assets {data data' : AccountData} {s : StoragePtr} {store : StorageDelta}
    (hr : applyStorageDelta data s store = .ok data') :
    data'.assets = data.assets ∧ data'.assetParams = data.assetParams := by
  unfold applyStorageDelta at hr
  split at hr
  · obtain rfl := pure_ok.mp hr
    exact ⟨rfl, rfl⟩
  · simp only [bind_ok, pure_ok] at hr
    obtain ⟨_, -, rfl⟩ := hr
    exact ⟨rfl, rfl⟩
  · obtain rfl := pure_ok.mp hr
    exact ⟨rfl, rfl⟩
  · simp only [bind_ok, pure_ok] at hr
    obtain ⟨_, -, rfl⟩ := hr
    exact ⟨rfl, rfl⟩

theorem Cow.storedAccounts_assets {p : Cow} {order : List (Σ _ : StoragePtr, StorageDelta)}
    {accts accts' : Dict Address AccountData} (hr : storedAccounts p order accts = .ok accts')
    (a : Address) :
    (accts'.getD a (p.lookup a)).assets = (accts.getD a (p.lookup a)).assets ∧
      (accts'.getD a (p.lookup a)).assetParams = (accts.getD a (p.lookup a)).assetParams := by
  induction order generalizing accts with
  | nil =>
    obtain rfl := pure_ok.mp hr
    exact ⟨rfl, rfl⟩
  | cons e order ih =>
    obtain ⟨s, _⟩ := e
    simp only [storedAccounts, bind_ok] at hr
    obtain ⟨_, hd, hs⟩ := hr
    obtain ⟨h1, h2⟩ := ih hs
    obtain ⟨hass, hp⟩ := applyStorageDelta_assets hd
    rw [h1, h2, Dict.getD, Dict.lookup_upsert]
    by_cases ha : a = s.addr
    · subst ha
      rw [if_pos rfl]
      exact ⟨hass, hp⟩
    · rw [if_neg ha]
      exact ⟨rfl, rfl⟩

namespace BlockEvaluator

variable {P : Type} {env : Environment P} {ev ev' ev₀ ev₁ : BlockEvaluator}
  {l l' : LedgerForEvaluator}

/-- The ledger after the block carries over what the state has at its end. -/
theorem carried_next {prev hdr : BlockHeader} {delta : StateDelta}
    (h : Over (.base (l.base prev)) ev.state) (hd : ev.deltas = .ok delta) (hn : l.Next delta l')
    (h1 : hdr.txnCounter = ev.state.txnCounter) :
    World.Carried ev.state.view (base (l'.base hdr)).view := by
  obtain ⟨⟨top, hs⟩, -⟩ := h
  simp only [deltas, hs, deltaAccounts, bind_ok, pure_ok] at hd
  obtain ⟨accts, ha, rfl⟩ := hd
  refine ⟨fun a => ?_, ?_, h1⟩
  · have hl : (base (l'.base hdr)).view.account a =
        accts.getD a ((base (l.base prev)).lookup a) := by
      show l'.accounts.getD a {} = accts.getD a (l.accounts.getD a {})
      rw [hn.account, Dict.getD_merge]
    have ho : ev.state.view.account a =
        top.accts.getD a ((base (l.base prev)).lookup a) := by
      show ev.state.lookup a = _
      rw [hs, lookup_layer]
    rw [hl, ho]
    exact storedAccounts_assets ha a
  · funext i t
    show (base (l'.base hdr)).getCreator i t = ev.state.getCreator i t
    rw [hs]
    have hr : l'.creators.lookup i = _ := hn.creator i
    simp only [getCreator, LedgerForEvaluator.base, hr, Cow.top]
    cases hm : top.creatables.lookup i with
    | none => rfl
    | some m =>
      cases hc : m.created <;> simp [hc]

/-! ## Histories -/

/-- One move of a history: a group is accepted, or the block ends and the next one starts. The
protocol counts transactions, and the block is validated or generated, or its header is known to be
right. -/
inductive Step (env : Environment P) : BlockEvaluator → BlockEvaluator → Prop
  | group {ev ev' : BlockEvaluator} {group : List SignedTxnWithAD}
      (hgroup : ev.transactionGroup env group = .ok ev') : Step env ev ev'
  | block {ev ev₁ ev₀ : BlockEvaluator} {delta : StateDelta} {l' : LedgerForEvaluator}
      {hdr : BlockHeader} {validate generate : Bool} {maxBytes : ℤ} {rewardAddresses : List Address}
      (hend : ev.endOfBlock env = .ok ev₁) (hcounts : ev.ctx.proto.txnCounter = true)
      (hmode : ev.validate = true ∨ ev.generate = true ∨
        ev₁.block.txnCounter = ev₁.state.txnCounter)
      (hdelta : ev₁.deltas = .ok delta) (hnext : ev.l.Next delta l')
      (hstart : startEvaluator env l' hdr validate generate maxBytes = .ok ev₀)
      (hprev : ev₀.prevHeader = ev₁.block.toBlockHeader) :
      Step env ev { ev₀ with rewardAddresses }

abbrev Reaches (env : Environment P) : BlockEvaluator → BlockEvaluator → Prop :=
  Relation.ReflTransGen (Step env)

theorem reaches_evalGroups {groups : List (List SignedTxnWithAD)}
    (h : evalGroups env groups ev = .ok ev') : Reaches env ev ev' := by
  induction groups generalizing ev with
  | nil => exact pure_ok.mp h ▸ .refl
  | cons group groups ih =>
    obtain ⟨ev₁, hg, hr⟩ := bind_ok.mp h
    exact .head (.group hg) (ih hr)

/-- An evaluator on a ledger whose ids are numbered. -/
structure Regular (ev : BlockEvaluator) : Prop where
  ready : Ready True [] (.base (ev.l.base ev.prevHeader)) ev.state
  settled : ev.state.view.Settled

theorem Started.regular (h : Started env l ev) (hn : (base (l.base ev.prevHeader)).view.Numbered) :
    Regular ev := by
  have hl := h.ledger
  subst hl
  exact ⟨(h.ready fun _ => hn).1, h.settled⟩

/-- A group is a run of steps of the ledger. -/
theorem Regular.group (h : Regular ev) {group : List SignedTxnWithAD}
    (hg : ev.transactionGroup env group = .ok ev') :
    Regular ev' ∧ World.Steps ev.ctx True [] ev.state.view ev'.state.view := by
  obtain ⟨he, hs⟩ := evolves_transactionGroup Avm.submits_any h.ready (fun _ _ => trivial) h.settled hg
  have hf := transactionGroup_frame hg
  have hl : ev'.l = ev.l := by rw [hf]
  have hp : ev'.prevHeader = ev.prevHeader := by rw [hf]
  refine ⟨⟨?_, hs⟩, he.steps⟩
  rw [hl, hp]
  exact h.ready.evolves he

/-- The next block starts from what the last one left. -/
theorem Regular.block (h : Regular ev) {delta : StateDelta} {hdr : BlockHeader}
    {validate generate : Bool} {maxBytes : ℤ} (he : ev.endOfBlock env = .ok ev₁)
    (ho : ev.ctx.proto.txnCounter = true)
    (hm : ev.validate = true ∨ ev.generate = true ∨ ev₁.block.txnCounter = ev₁.state.txnCounter)
    (hd : ev₁.deltas = .ok delta) (hn : ev.l.Next delta l')
    (h3 : startEvaluator env l' hdr validate generate maxBytes = .ok ev₀)
    (hp : ev₀.prevHeader = ev₁.block.toBlockHeader) (rewardAddresses : List Address) :
    Regular { ev₀ with rewardAddresses } ∧ World.Carried ev.state.view ev₀.state.view := by
  have hc : ev₁.block.txnCounter = ev₁.state.txnCounter := by
    rcases hm with hv | hg | hc
    · exact txnCounter_of_endOfBlock ho (.inl hv) he
    · exact txnCounter_of_endOfBlock ho (.inr hg) he
    · exact hc
  have hs : ∃ ad, ev₁.state = resetAccounts ad ev.state := by
    obtain ⟨_, _, -, -, -, -, rfl⟩ := endOfBlock_ok he
    exact ⟨_, rfl⟩
  obtain ⟨ad, hs⟩ := hs
  obtain ⟨h1, h2⟩ := resetAccounts_view h.ready.toOver ad
  rw [← hs] at h1 h2
  have hb : World.Carried ev.state.view (base (l'.base ev₀.prevHeader)).view := by
    rw [hp]
    exact (h2 ▸ (World.SameHoldings.offline _ ad).carried).trans (carried_next h1 hd hn hc)
  have ht := startEvaluator_started h3
  have hr := (ht.withRewardAddresses rewardAddresses).regular
    (hb.numbered (h.ready.numbered trivial) h.settled)
  exact ⟨hr, hb.trans ht.withdrawn.2.carried⟩

/-- What holds along a history: an invariant kept by the steps of the ledger and carried to the next
block. -/
theorem Regular.reaches {I : World → Prop}
    (hs : ∀ {ev : BlockEvaluator} {w' : World}, Regular ev → I ev.state.view →
      World.Steps ev.ctx True [] ev.state.view w' → I w')
    (hn : ∀ {w w' : World}, w.Settled → World.Carried w w' → I w → I w') (h : Regular ev)
    (hu : Reaches env ev ev') : Regular ev' ∧ (I ev.state.view → I ev'.state.view) := by
  induction hu with
  | refl => exact ⟨h, id⟩
  | tail _ h1 ih =>
    obtain ⟨hr, hI⟩ := ih
    cases h1 with
    | group hg =>
      obtain ⟨hr', hu⟩ := hr.group hg
      exact ⟨hr', fun h => hs hr (hI h) hu⟩
    | block he hc hm hd hn' h2 hp =>
      obtain ⟨hr', h3⟩ := hr.block he hc hm hd hn' h2 hp _
      exact ⟨hr', fun h => hn hr.settled h3 (hI h)⟩

end BlockEvaluator

end Novarand.Ledger
