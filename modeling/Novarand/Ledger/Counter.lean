import Novarand.Ledger.Calls

/-!
# Ids of assets and applications

The ids assigned in a block are distinct and lie between the counter of the previous block and its own,
so no id is assigned twice along a chain. A group that is rolled back takes its ids with it.
-/

namespace Novarand.Ledger

open List Sample

namespace World

variable {x : BlockContext} {num : Prop} {busy : List AppIndex} {w w' : World} {n : ℕ}

/-- The ids assigned since the counter was `n` are distinct and above `n`. -/
structure IdsSince (n : ℕ) (w : World) : Prop where
  nodup : w.assigned.Nodup
  above : ∀ i ∈ w.assigned, n < i
  le_counter : n ≤ w.counter

theorem IdsSince.step (hw : w.IdsSince n) (h : Numbers w w') : w'.IdsSince n := by
  have hl : n ≤ w'.counter := hw.le_counter.trans h.counter_le
  cases h with
  | same _ ha | counted _ ha =>
    exact ⟨ha ▸ hw.nodup, ha ▸ hw.above, hl⟩
  | assigned hs _ ha =>
    refine ⟨?_, ?_, hl⟩
    · rw [ha, nodup_append]
      refine ⟨hw.nodup, nodup_singleton _, fun i hi j hj => ?_⟩
      have := hs i hi
      rw [mem_singleton] at hj
      lia
    · rw [ha, forall_mem_append, forall_mem_singleton]
      exact ⟨hw.above, Nat.lt_succ_of_le hw.le_counter⟩

theorem IdsSince.steps (hw : w.IdsSince n) (h : Steps x num busy w w') : w'.IdsSince n :=
  h.invariant (fun _ _ hs hw => hw.step hs.numbers) hw

end World

variable {l : LedgerForEvaluator}

namespace BlockEvaluator

variable {P : Type} {env : Environment P} {ev ev₀ : BlockEvaluator}

/-- The ids of the groups of a block. -/
theorem Started.ids (h : Started env l ev₀) (groups : List (List SignedTxnWithAD)) :
    (offerGroups env groups ev₀).state.view.IdsSince ev₀.prevHeader.txnCounter ∧
      (offerGroups env groups ev₀).state.view.Settled := by
  obtain ⟨-, ha, hc⟩ : Cow.Ready False [] _ ev₀.state ∧ _ ∧ _ := h.ready False.elim
  obtain ⟨he, hs⟩ := h.evolves False.elim groups
  refine ⟨World.IdsSince.steps ⟨?_, ?_, hc.ge⟩ he.steps, hs⟩
  · rw [ha]
    exact nodup_nil
  · rw [ha]
    intro i hi
    cases hi

/-- The header of a block that is generated or validated has the counter of the state. -/
theorem txnCounter_of_endOfBlock (hn : ev₀.ctx.proto.txnCounter = true)
    (hm : ev₀.validate = true ∨ ev₀.generate = true) (h : ev₀.endOfBlock env = .ok ev) :
    ev.block.txnCounter = ev.state.txnCounter := by
  obtain ⟨ev₁, _, hg, -, hh, -, rfl⟩ := endOfBlock_ok h
  have hf := generateHeader_frame hg
  have hc : ev₁.ctx = ev₀.ctx := by rw [hf]
  have hv : ev₁.validate = ev₀.validate := by rw [hf]
  rcases hm with hm | hm
  · simp only [hv, hm, checkWhen, checkCommitments, if_true, bind_ok, failIf_ok,
      not_not] at hh
    obtain ⟨_, -, ⟨⟩, -, ⟨⟩, ho, -⟩ := hh
    rw [ho, txnCounter, if_pos (hc ▸ hn)]
  · simp only [generateHeader, if_pos hm, bind_ok, pure_ok] at hg
    obtain ⟨_, -, ⟨_, _⟩, -, rfl⟩ := hg
    rw [(counts_resetAccounts _ _).1]
    exact if_pos hn

end BlockEvaluator

open BlockEvaluator

/-- Blocks one after the other, from the header `start` on: the header of the last one, and all ids
that were assigned. Every block is evaluated on the header of the one before, under a protocol that
counts transactions; it is validated or generated, or its header is known to be right. -/
inductive Chain {P : Type} (env : Environment P) (start : BlockHeader) :
    BlockHeader → List CreatableIndex → Prop
  | start : Chain env start start []
  | block {prev hdr : BlockHeader} {ids : List CreatableIndex} {l : LedgerForEvaluator}
      {validate generate : Bool} {maxBytes : ℤ} {ev₀ ev : BlockEvaluator}
      {rewardAddresses : List Address} {groups : List (List SignedTxnWithAD)}
      (hchain : Chain env start prev ids)
      (hstart : startEvaluator env l hdr validate generate maxBytes = .ok ev₀)
      (hprev : ev₀.prevHeader = prev)
      (hend : (offerGroups env groups { ev₀ with rewardAddresses }).endOfBlock env = .ok ev)
      (hcounts : ev₀.ctx.proto.txnCounter = true)
      (hmode : validate = true ∨ generate = true ∨ ev.block.txnCounter = ev.state.txnCounter) :
      Chain env start ev.block.toBlockHeader (ids ++ ev.state.assigned)

variable {P : Type} {env : Environment P}

/-- The ids of one block. -/
theorem block_ids {hdr : BlockHeader} {validate generate : Bool} {maxBytes : ℤ}
    {ev₀ ev : BlockEvaluator} {rewardAddresses : List Address}
    {groups : List (List SignedTxnWithAD)}
    (ht : startEvaluator env l hdr validate generate maxBytes = .ok ev₀)
    (he : (offerGroups env groups { ev₀ with rewardAddresses }).endOfBlock env = .ok ev)
    (hc : ev₀.ctx.proto.txnCounter = true)
    (hm : validate = true ∨ generate = true ∨ ev.block.txnCounter = ev.state.txnCounter) :
    ev.state.assigned.Nodup ∧ ev₀.prevHeader.txnCounter ≤ ev.block.txnCounter ∧
      ∀ i ∈ ev.state.assigned, ev₀.prevHeader.txnCounter < i ∧ i ≤ ev.block.txnCounter := by
  have hr := (startEvaluator_started ht).withRewardAddresses rewardAddresses
  obtain ⟨hd, hs⟩ := hr.ids groups
  obtain ⟨hv, hg, -, -⟩ := startEvaluator_mode ht
  have hf : GroupFrame _ (offerGroups env groups { ev₀ with rewardAddresses }) :=
    offerGroups_frame groups _
  have hh : ev.block.txnCounter = ev.state.txnCounter := by
    rcases hm with hm | hm | hm
    · refine txnCounter_of_endOfBlock ?_ (.inl ?_) he
      · rw [hf]
        exact hc
      · rw [hf]
        exact hv.trans hm
    · refine txnCounter_of_endOfBlock ?_ (.inr ?_) he
      · rw [hf]
        exact hc
      · rw [hf]
        exact hg.trans hm
    · exact hm
  obtain ⟨ev₁, _, -, -, -, -, rfl⟩ := endOfBlock_ok he
  obtain ⟨ho, ha⟩ := counts_resetAccounts ev₁.block.expiredParticipationAccounts
    (offerGroups env groups { ev₀ with rewardAddresses }).state
  rw [hh]
  simp only [ha, ho]
  exact ⟨hd.nodup, hd.le_counter, fun i hi => ⟨hd.above i hi, hs i hi⟩⟩

/-- Along a chain no id of an asset or application is assigned twice, and every id lies above the
counter of the header the chain starts from and not above that of its last block; for one block these
are the counters before and after it. -/
theorem assigned_ids_distinct {start hdr : BlockHeader} {ids : List CreatableIndex}
    (h : Chain env start hdr ids) :
    ids.Nodup ∧ start.txnCounter ≤ hdr.txnCounter ∧
      ∀ i ∈ ids, start.txnCounter < i ∧ i ≤ hdr.txnCounter := by
  induction h with
  | start => exact ⟨nodup_nil, le_rfl, fun i hi => by cases hi⟩
  | block _ hs hp he hc hm ih =>
    obtain ⟨hn, hl, hd⟩ := ih
    obtain ⟨hn', hl', hi'⟩ := block_ids hs he hc hm
    rw [hp] at hl' hi'
    refine ⟨?_, hl.trans hl', fun i hi => ?_⟩
    · rw [nodup_append]
      refine ⟨hn, hn', fun i hi j hj h1 => ?_⟩
      have := (hd i hi).2
      have := (hi' j hj).1
      lia
    · rcases mem_append.mp hi with hi | hi
      · exact ⟨(hd i hi).1, (hd i hi).2.trans hl'⟩
      · exact ⟨hl.trans_lt (hi' i hi).1, (hi' i hi).2⟩

/-- A block with a new asset, a new application, and the first group again, which is rejected. -/
def Sample.creations : List (List SignedTxnWithAD) :=
  [[signed 1 { type := .assetConfig, assetParams := { total := 7 } }],
   [signed 2 { type := .applicationCall }],
   [signed 1 { type := .assetConfig, assetParams := { total := 7 } }]]

theorem assigned_ids_distinct_creations :
    ∃ hdr, Chain Sample.env prevHeader hdr [11, 12] ∧ [11, 12].Nodup ∧
      10 ≤ hdr.txnCounter ∧ ∀ i ∈ [11, 12], 10 < i ∧ i ≤ hdr.txnCounter := by
  have hr : (Sample.block [] Sample.creations).toOption.map (·.2.state.assigned) =
      some [11, 12] := by decide +kernel
  obtain ⟨⟨ev₀, ev⟩, hb, ha⟩ := exists_ok_of_toOption hr
  obtain ⟨hs, he⟩ := block_ok hb
  obtain ⟨-, -, hp, h1⟩ := startEvaluator_mode hs
  have hn : ev₀.ctx.proto.txnCounter = true := Option.some.inj h1 ▸ rfl
  have hc := Chain.block .start hs (Except.ok.inj hp).symm he hn (.inl rfl)
  rw [show ev.state.assigned = [11, 12] from ha] at hc
  exact ⟨_, hc, assigned_ids_distinct hc⟩

end Novarand.Ledger
