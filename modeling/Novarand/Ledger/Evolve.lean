import Novarand.Ledger.Applications
import Novarand.Ledger.Effects

/-!
# Transactions are runs of steps

Every function of the evaluator that succeeds changes the top layer of the state only, keeps it well
formed, and takes its view through a run of `World.Step` (`Cow.Evolves`). For the application calls
this goes by induction on the depth of inner calls, with the applications on the call chain busy.
-/

namespace Novarand.Ledger

open Apply AccountData

variable {x : BlockContext} {num : Terms} {busy busy' : List AppIndex} {p c c' c'' : Cow}
  {s : StoragePtr} {space : StateSchema} {key : Bytes} {value : TealValue} {u u' : AccountData}

namespace Cow

/-- A well-formed layer over `p`. -/
structure Over (p c : Cow) : Prop where
  layer : ∃ l, c = .layer p l
  wf : c.WF

/-- A layer over `p` in an evaluation where the applications `busy` are being called. -/
structure Ready (num : Terms) (busy : List AppIndex) (p c : Cow) : Prop extends Over p c where
  ahead : c.view.Ahead
  numbered : num.ids → c.view.Numbered
  known : num.ids → c.view.Known busy
  inv : num.inv c.view

/-- The state `c'` over `p` comes from `c` by steps. -/
structure Evolves (x : BlockContext) (num : Terms) (busy : List AppIndex) (p c c' : Cow) : Prop
    extends Over p c' where
  steps : World.Steps x num busy c.view c'.view

/-! ## Composition -/

theorem Over.refl (h : Over p c) : Evolves x num busy p c c := ⟨h, .refl⟩

theorem Evolves.trans (h : Evolves x num busy p c c') (h' : Evolves x num busy p c' c'') :
    Evolves x num busy p c c'' := ⟨h'.toOver, h.steps.trans h'.steps⟩

theorem Evolves.mono (hs : busy ⊆ busy') (h : Evolves x num busy' p c c') :
    Evolves x num busy p c c' := ⟨h.toOver, h.steps.mono hs⟩

theorem Ready.evolves [num.Kept x] (h : Ready num busy p c) (h' : Evolves x num busy' p c c') :
    Ready num busy p c' where
  toOver := h'.toOver
  ahead := h.ahead.steps h'.steps
  numbered hn := (h.numbered hn).steps h'.steps
  known hn := (h.known hn).steps h'.steps
  inv := h'.steps.invariant (fun _ _ => Terms.Kept.step) h.inv

theorem Ready.sameHoldings (h : Ready num busy p c) (h' : Over p c')
    (hs : World.SameHoldings c.view c'.view) (hi : num.inv c'.view) : Ready num busy p c' where
  toOver := h'
  ahead i hi := hs.counter ▸ h.ahead i (hs.assigned ▸ hi)
  numbered hn i t hi := by
    rw [hs.creator] at hi
    rw [hs.counter, hs.assigned]
    exact h.numbered hn i t hi
  known hn i hi := by
    rw [hs.counter, hs.assigned]
    exact h.known hn i hi
  inv := hi

theorem Over.child (h : c.WF) : Over c c.child := ⟨⟨_, rfl⟩, h.child⟩

/-- A child in which the applications `busy'` are being called. -/
theorem Ready.child (h : Ready num busy p c) (hk : num.ids → c.view.Known busy') :
    Ready num busy' c c.child where
  toOver := .child h.wf
  ahead := (view_child c).symm ▸ h.ahead
  numbered hn := (view_child c).symm ▸ h.numbered hn
  known hn := (view_child c).symm ▸ hk hn
  inv := (view_child c).symm ▸ h.inv

theorem view_commit (h : Over p c) (hc : Over c c') (hm : c'.commitToParent = .ok c'') :
    Over p c'' ∧ c''.view = c'.view := by
  obtain ⟨l, rfl⟩ := h.layer
  obtain ⟨_, rfl⟩ := hc.layer
  rw [commitToParent_eq hc.wf] at hm
  obtain rfl := Except.ok.inj hm
  exact ⟨⟨⟨_, rfl⟩, wf_mergedLayer hc.wf⟩, view_mergedLayer hc.wf⟩

/-- Committing what a child did is doing it. -/
theorem Evolves.commit (h : Over p c) (hc : Evolves x num busy c c.child c')
    (hm : c'.commitToParent = .ok c'') : Evolves x num busy p c c'' := by
  obtain ⟨ho, hv⟩ := view_commit h hc.toOver hm
  refine ⟨ho, ?_⟩
  rw [hv, ← view_child]
  exact hc.steps

/-! ## The changes of a layer -/

theorem Over.put (h : Over p c) (a : Address) (u : AccountData) : Over p (c.put a u) := by
  obtain ⟨⟨l, rfl⟩, hwf⟩ := h
  exact ⟨⟨_, rfl⟩, hwf⟩

theorem Over.view_put (h : Over p c) (a : Address) (u : AccountData) :
    (c.put a u).view = c.view.put a u := by
  obtain ⟨⟨l, rfl⟩, _⟩ := h
  exact view_put a u

theorem Over.evolves_step (h : Over p c') {w : World} (hv : c'.view = w)
    (hs : World.Step x num busy c.view w) : Evolves x num busy p c c' :=
  ⟨h, .single (hv ▸ hs)⟩

theorem Over.evolves_put (h : Over p c) {a : Address}
    (hs : World.Step x num busy c.view (c.view.put a u)) : Evolves x num busy p c (c.put a u) :=
  ⟨h.put a u, .single (h.view_put a u ▸ hs)⟩

section

variable (h : Over p c) (i : CreatableIndex) (t : CreatableType) (a : Address)
include h

theorem Over.create : Over p (c.create i t a) := by
  obtain ⟨⟨l, rfl⟩, hwf⟩ := h
  exact ⟨⟨_, rfl⟩, hwf⟩

theorem Over.view_create : (c.create i t a).view = c.view.create i t a := by
  obtain ⟨⟨l, rfl⟩, _⟩ := h
  exact view_create i t a

theorem Over.uncreate : Over p (c.uncreate i t a) := by
  obtain ⟨⟨l, rfl⟩, hwf⟩ := h
  exact ⟨⟨_, rfl⟩, hwf⟩

theorem Over.view_uncreate : (c.uncreate i t a).view = c.view.uncreate i := by
  obtain ⟨⟨l, rfl⟩, _⟩ := h
  exact view_uncreate i t a

end

/-- A mark for a changed holding is not part of the view. -/
theorem Over.markHolding (h : Over p c) (a : Address) (i : AssetIndex) :
    Over p (c.allocateAsset a i false) ∧ (c.allocateAsset a i false).view = c.view := by
  obtain ⟨⟨l, rfl⟩, hwf⟩ := h
  exact ⟨⟨⟨_, rfl⟩, hwf⟩, rfl⟩

theorem Over.unmarkHolding (h : Over p c) (a : Address) (i : AssetIndex) :
    Over p (c.deallocateAsset a i false) ∧ (c.deallocateAsset a i false).view = c.view := by
  obtain ⟨⟨l, rfl⟩, hwf⟩ := h
  exact ⟨⟨⟨_, rfl⟩, hwf⟩, rfl⟩

theorem Evolves.markHolding (h : Evolves x num busy p c c') (a : Address) (i : AssetIndex) :
    Evolves x num busy p c (c'.allocateAsset a i false) :=
  ⟨(h.toOver.markHolding a i).1, (h.toOver.markHolding a i).2 ▸ h.steps⟩

theorem Evolves.unmarkHolding (h : Evolves x num busy p c c') (a : Address) (i : AssetIndex) :
    Evolves x num busy p c (c'.deallocateAsset a i false) :=
  ⟨(h.toOver.unmarkHolding a i).1, (h.toOver.unmarkHolding a i).2 ▸ h.steps⟩

theorem Over.incTxnCount (h : Over p c) :
    Over p c.incTxnCount ∧ c.incTxnCount.view = c.view.incTxnCount := by
  obtain ⟨⟨l, rfl⟩, hwf⟩ := h
  exact ⟨⟨⟨_, rfl⟩, hwf⟩, view_incTxnCount⟩

theorem Over.addTx (h : Over p c) (txid : Txid) (lastValid : Round) (txl : Txlease) :
    Over p (c.addTx txid lastValid txl) ∧
      (c.addTx txid lastValid txl).view = c.view.incTxnCount := by
  obtain ⟨⟨l, rfl⟩, hwf⟩ := h
  unfold addTx
  split_ifs
  · exact ⟨⟨⟨_, rfl⟩, hwf⟩, rfl⟩
  · exact ⟨⟨⟨_, rfl⟩, hwf⟩, rfl⟩

/-- An operation that succeeds on the layer succeeds on its view. -/
theorem Realizes.of_ok {l : Layer} {r : Except EvalError Cow} {r' : Except EvalError World}
    (h : Realizes p l r r') (hr : r = .ok c') : Over p c' ∧ r' = .ok c'.view := by
  cases r' with
  | error e => cases hr.symm.trans h
  | ok w =>
    obtain ⟨l', hl', hwf, rfl, -, -⟩ := h
    obtain rfl := Except.ok.inj (hr.symm.trans hl')
    exact ⟨⟨⟨l', rfl⟩, hwf⟩, rfl⟩

/-- A creatable has one type. -/
theorem getCreator_type {i : CreatableIndex} {t t' : CreatableType} {a : Address}
    (h : c.getCreator i t = some a) (hn : t' ≠ t) : c.getCreator i t' = none := by
  induction c with
  | base b =>
    simp only [getCreator] at h ⊢
    split at h
    · split_ifs at h with ht
      subst ht
      exact if_neg hn.symm
    · cases h
  | layer p l ih =>
    simp only [getCreator] at h ⊢
    split at h
    · split_ifs at h with hc
      rw [Bool.and_eq_true, decide_eq_true_iff] at hc
      rw [hc.2, decide_eq_false hn.symm, Bool.and_false]
      rfl
    · exact ih h

theorem Over.setKey (h : Over p c) (hr : c.setKey x s key value = .ok c') :
    Over p c' ∧ c.view.setKey x s key value = .ok c'.view := by
  obtain ⟨⟨l, rfl⟩, hwf⟩ := h
  exact (setKey_realizes x hwf key value).of_ok hr

theorem Over.delKey (h : Over p c) (hr : c.delKey s key = .ok c') :
    Over p c' ∧ c.view.delKey s key = .ok c'.view := by
  obtain ⟨⟨l, rfl⟩, hwf⟩ := h
  exact (delKey_realizes hwf key).of_ok hr

theorem Over.allocateApp (h : Over p c) (hr : c.allocateApp s space = .ok c')
    : Over p c' ∧ c.view.allocateApp s space = .ok c'.view := by
  obtain ⟨⟨l, rfl⟩, hwf⟩ := h
  exact (allocateApp_realizes hwf space).of_ok hr

theorem Over.deallocateApp (h : Over p c) (hr : c.deallocateApp s = .ok c') :
    Over p c' ∧ c.view.deallocateApp s = .ok c'.view := by
  obtain ⟨⟨l, rfl⟩, hwf⟩ := h
  exact (deallocateApp_realizes hwf).of_ok hr

end Cow

/-! ## Storage operations on worlds, inverted -/

namespace World

variable {w w' : World}

theorem allocateApp_ok (h : w.allocateApp s space = .ok w') :
    w.store s = none ∧ w' = if s.global then (w.setStore s (some (.new space))).create s.aidx .app s.addr
      else w.setStore s (some (.new space)) := by
  unfold allocateApp at h
  by_cases hs : (w.store s).isSome
  · rw [if_pos hs] at h
    cases h
  · rw [if_neg hs] at h
    exact ⟨by simpa using hs, (pure_ok.mp h).symm⟩

theorem deallocateApp_ok (h : w.deallocateApp s = .ok w') :
    w' = if s.global then (w.setStore s none).uncreate s.aidx else w.setStore s none := by
  simp only [deallocateApp, bind_ok, pure_ok] at h
  obtain ⟨-, -, -, -, h⟩ := h
  exact h.symm

theorem setKey_step (h : w.setKey x s key value = .ok w') : Step x num busy w w' := by
  simp only [setKey, bind_ok, orThrow_ok, pure_ok] at h
  obtain ⟨-, -, _, hs, _, hl, ⟨⟩, hc, rfl⟩ := h
  exact .write hs hl fun _ => hc

theorem delKey_steps (h : w.delKey s key = .ok w') : Steps x num busy w w' := by
  simp only [delKey, bind_ok, orThrow_ok] at h
  obtain ⟨st, hs, h⟩ := h
  cases hl : st.limits with
  | error e =>
    rw [hl] at h
    obtain rfl := pure_ok.mp h
    exact .refl
  | ok limits =>
    rw [hl] at h
    obtain rfl := pure_ok.mp h
    exact .single (.write hs hl fun hm => by cases hm)

end World

open World

/-! ## Payments and keys -/

variable {params : AssetParams} {aidx : AppIndex} {c1 c2 : Cow}

namespace Cow

variable {addr creator dst sender src : Address} {u : AccountData} {tx : Transaction}
  {ad ad' : ApplyData} {amt : ℕ} {bypass : Bool} {i : AssetIndex} {appIdx : AppIndex}

theorem move_ok {amt r r' r₁ r₂ : MicroNovas} (h : c.move x src dst amt r r' = .ok (r₁, r₂, c')) :
    ∃ u v, (c.lookup src).withUpdatedRewards x.proto x.rewardsLevel = some u ∧
      amt ≤ u.microNovas ∧
      ((c.put src { u with microNovas := u.microNovas - amt }).lookup dst).withUpdatedRewards
        x.proto x.rewardsLevel = some v ∧
      v.microNovas + amt < 2 ^ 64 ∧
      c' = (c.put src { u with microNovas := u.microNovas - amt }).put dst
        { v with microNovas := v.microNovas + amt } := by
  simp only [move, getWithRewards, bind_ok, orThrow_ok, pure_pair, oSub_eq_some, oAdd_eq_some] at h
  obtain ⟨u, hu, -, -, _, ⟨ha, rfl⟩, v, hv, -, -, _, ⟨hs, rfl⟩, -, -, rfl⟩ := h
  exact ⟨u, v, hu, ha, hv, hs, rfl⟩

section

variable {amt r r' r₁ r₂ : MicroNovas} (h : Over p c)
  (hmo : c.move x src dst amt r r' = .ok (r₁, r₂, c'))
include h hmo

theorem Over.evolves_move : Evolves x num busy p c c' := by
  obtain ⟨u, v, hu, ha, hv, hs, rfl⟩ := move_ok hmo
  refine ⟨(h.put _ _).put _ _, .single ?_⟩
  have hw := h.view_put src { u with microNovas := u.microNovas - amt }
  rw [(h.put _ _).view_put, hw]
  exact .move hu ha (hw ▸ hv) hs

theorem Over.sameHoldings_move : SameHoldings c.view c'.view := by
  obtain ⟨u, v, hu, -, hv, -, rfl⟩ := move_ok hmo
  have hw := h.view_put src { u with microNovas := u.microNovas - amt }
  rw [(h.put _ _).view_put, hw]
  exact .move hu (hw ▸ hv)

end

/-- The state after the sender was charged: the counter and the ids are as before, and the rewards
of the sender are in its balance. -/
structure Charged (x : BlockContext) (num : Terms) (busy : List AppIndex) (p : Cow) (sender : Address)
    (c c' : Cow) : Prop extends Evolves x num busy p c c' where
  counter_eq : c'.view.counter = c.view.counter
  assigned_eq : c'.view.assigned = c.view.assigned
  upToDate : (c'.lookup sender).UpToDate x.rewardsLevel

theorem Charged.trans (h : Charged x num busy p sender c c1)
    (h' : Charged x num busy p sender c1 c2) : Charged x num busy p sender c c2 where
  toEvolves := h.toEvolves.trans h'.toEvolves
  counter_eq := h'.counter_eq.trans h.counter_eq
  assigned_eq := h'.assigned_eq.trans h.assigned_eq
  upToDate := h'.upToDate

theorem Charged.settled (h : Charged x num busy p sender c c') (hs : c.view.Settled) :
    c'.view.Settled := by
  intro i hi
  rw [h.assigned_eq] at hi
  exact h.counter_eq ▸ hs i hi

/-- Keys registered by an account that participates. -/
theorem registered_edited (hs : u.status ≠ .notParticipating) (hu : u.UpToDate x.rewardsLevel)
    (h : registered x tx u = .ok u') : u.Edited x.rewardsLevel u' := by
  have hb : u.rewardsBase = x.rewardsLevel := hu.resolve_left hs
  have he : ∀ v : AccountData, v.microNovas = u.microNovas → v.rewardsBase = u.rewardsBase →
      v.assets = u.assets → v.assetParams = u.assetParams → v.appLocalStates = u.appLocalStates →
      v.appParams = u.appParams → u.Edited x.rewardsLevel v :=
    fun v h1 h2 h3 h4 h5 h6 => ⟨h1, h2, .inr ⟨hs, fun _ => hb⟩, h3, h4, h5, h6⟩
  unfold registered at h
  by_cases ho : tx.votePK = 0 ∨ tx.selectionPK = 0
  · rw [if_pos ho] at h
    by_cases hn : tx.nonparticipation
    · simp only [hn, if_true, bind_ok, pure_ok] at h
      obtain ⟨-, -, rfl⟩ := h
      exact he _ rfl rfl rfl rfl rfl rfl
    · simp only [hn, Bool.false_eq_true, if_false, pure_ok] at h
      subst h
      exact he _ rfl rfl rfl rfl rfl rfl
  · simp only [if_neg ho, bind_ok, pure_ok] at h
    obtain ⟨-, -, -, -, rfl⟩ := h
    exact he _ rfl rfl rfl rfl rfl rfl

section

variable (h : Over p c)
include h

theorem Over.charged_move {amt r r' r₁ r₂ : MicroNovas}
    (hmo : c.move x src dst amt r r' = .ok (r₁, r₂, c')) : Charged x num busy p src c c' := by
  refine ⟨h.evolves_move hmo, (h.sameHoldings_move hmo).counter,
    (h.sameHoldings_move hmo).assigned, ?_⟩
  obtain ⟨u, v, hu, _, hv, _, rfl⟩ := move_ok hmo
  have hw := (h.put src { u with microNovas := u.microNovas - amt }).view_put dst
    { v with microNovas := v.microNovas + amt }
  rw [h.view_put] at hw
  show (account (view _) src).UpToDate _
  rw [hw, put_account, put_account]
  by_cases hm : src = dst
  · rw [if_pos hm]
    exact (withUpdatedRewards_ok hv).1
  · rw [if_neg hm, if_pos rfl]
    exact (withUpdatedRewards_ok hu).1

/-- An edit of the sender's account that keeps its rewards up to date. -/
theorem Over.charged_edit (hu : (c.lookup tx.sender).Edited x.rewardsLevel u)
    (hp : u.UpToDate x.rewardsLevel) (ht : num.applied tx)
    (hs : Sets x tx (c.lookup tx.sender) u) :
    Charged x num busy p tx.sender c (c.put tx.sender u) := by
  have hv := h.view_put tx.sender u
  refine ⟨h.evolves_put (.edit hu ht hs), by rw [hv]; rfl, by rw [hv]; rfl, ?_⟩
  show (account (view _) tx.sender).UpToDate _
  rw [hv, put_account, if_pos rfl]
  exact hp

theorem Over.charged_rekey (hu : (c.lookup tx.sender).UpToDate x.rewardsLevel)
    (ht : num.applied tx) : Charged x num busy p tx.sender c (rekey tx c) := by
  unfold rekey
  by_cases hz : tx.rekeyTo = 0
  · rw [if_pos hz]
    exact ⟨h.refl, rfl, rfl, hu⟩
  · rw [if_neg hz]
    refine h.charged_edit ⟨rfl, rfl, ?_, rfl, rfl, rfl, rfl⟩ hu ht (.inl ⟨hz, rfl⟩)
    by_cases hs : (c.lookup tx.sender).status = .notParticipating
    · exact .inl ⟨hs, hs⟩
    · exact .inr ⟨hs, fun h => absurd h hs⟩

theorem Over.evolves_keyreg (hp : (c.lookup tx.sender).UpToDate x.rewardsLevel)
    (ht : num.applied tx) (hy : tx.type = .keyRegistration) (hr : keyreg x tx c = .ok c') :
    Evolves x num busy p c c' := by
  simp only [keyreg, bind_ok, failIf_ok, pure_ok] at hr
  obtain ⟨-, -, ⟨⟩, hs, u, hu, rfl⟩ := hr
  exact h.evolves_put (.edit (registered_edited hs hp hu) ht (.inr ⟨hy, hs, hu⟩))

theorem Over.evolves_pay (hr : pay x tx ad c = .ok (ad', c')) : Evolves x num busy p c c' := by
  unfold pay at hr
  split_ifs at hr with ha
  · simp only [bind_ok, pure_pair] at hr
    obtain ⟨⟨_, _, _⟩, hmo, -, rfl⟩ := hr
    exact h.evolves_move hmo
  · obtain ⟨-, rfl⟩ := pure_pair.mp hr
    exact h.refl

/-- An account with nothing left can be cleared. -/
theorem Over.evolves_clear
    (hu : (c.lookup tx.sender).withUpdatedRewards x.proto x.rewardsLevel = some u)
    (hm : u.microNovas = 0) (ha : u.assets.keys = []) (h5 : u.assetParams.keys = [])
    (hs : u.appLocalStates.keys = []) (hp : u.appParams.keys = []) (ht : num.applied tx)
    (hc : tx.closeRemainderTo ≠ 0) : Evolves x num busy p c (c.put tx.sender {}) := by
  obtain ⟨h1, h2, h3, h4⟩ := withUpdatedRewards_rest hu
  have hl := (withUpdatedRewards_ok hu).2
  refine h.evolves_put (.close ?_ (h1 ▸ ha) (h2 ▸ h5) (h3 ▸ hs) (h4 ▸ hp) ht hc)
  show (c.lookup tx.sender).microNovas = 0
  lia

theorem Over.evolves_closeAccount (ht : num.applied tx)
    (hr : closeAccount x tx ad c = .ok (ad', c')) : Evolves x num busy p c c' := by
  unfold closeAccount at hr
  split_ifs at hr with hc
  · simp only [bind_ok, failIf_ok, pure_pair, not_not, getWithRewards,
      orThrow_ok] at hr
    obtain ⟨_, -, ⟨_, _, c1⟩, hmo, u, hu, ⟨⟩, hm, ⟨⟩, ha, ⟨⟩, h1, ⟨⟩, hs, ⟨⟩, hp, -, rfl⟩ := hr
    have he : Evolves x num busy p c c1 := h.evolves_move hmo
    exact he.trans (he.evolves_clear hu hm ha h1 hs hp ht hc)
  · obtain ⟨-, rfl⟩ := pure_pair.mp hr
    exact h.refl

theorem Over.evolves_payment (ht : num.applied tx) (hr : payment x tx ad c = .ok (ad', c')) :
    Evolves x num busy p c c' := by
  simp only [payment, bind_ok] at hr
  obtain ⟨⟨_, c1⟩, hp, hc⟩ := hr
  have he : Evolves x num busy p c c1 := h.evolves_pay hp
  exact he.trans (he.evolves_closeAccount ht hc)

end

/-! ## Assets -/

theorem getParams_ok {aidx : AssetIndex} (h : getParams aidx c = .ok (params, creator)) :
    c.getCreator aidx .asset = some creator ∧
      (c.lookup creator).assetParams.lookup aidx = some params := by
  simp only [getParams, bind_ok, orThrow_ok, pure_pair] at h
  obtain ⟨_, hc, _, hp, rfl, rfl⟩ := h
  exact ⟨hc, hp⟩

theorem takeOut_ok (ha : amt ≠ 0) (h : takeOut addr i amt bypass c = .ok c') :
    ∃ ho, (c.lookup addr).assets.lookup i = some ho ∧ amt ≤ ho.amount ∧
      c' = c.put addr { c.lookup addr with
        assets := (c.lookup addr).assets.upsert i { ho with amount := ho.amount - amt } } := by
  simp only [takeOut, if_neg ha, bind_ok, orThrow_ok, oSub_eq_some, pure_ok] at h
  obtain ⟨ho, hl, -, -, _, ⟨he, rfl⟩, rfl⟩ := h
  exact ⟨ho, hl, he, rfl⟩

theorem putIn_ok (ha : amt ≠ 0) (h : putIn addr i amt bypass c = .ok c') :
    ∃ ho, (c.lookup addr).assets.lookup i = some ho ∧
      c' = c.put addr { c.lookup addr with
        assets := (c.lookup addr).assets.upsert i { ho with amount := ho.amount + amt } } := by
  simp only [putIn, if_neg ha, bind_ok, orThrow_ok, oAdd_eq_some, pure_ok] at h
  obtain ⟨ho, hl, -, -, _, ⟨-, rfl⟩, rfl⟩ := h
  exact ⟨ho, hl, rfl⟩

section

variable (h : Over p c)
include h

theorem Over.evolves_createAsset (hs : c.view.Settled)
    (hr : createAsset x tx ad c.txnCounter c = .ok (ad', c')) : Evolves x num busy p c c' := by
  simp only [createAsset, bind_ok, failIf_ok, pure_pair] at hr
  obtain ⟨⟨⟩, hn, ⟨⟩, -, -, rfl⟩ := hr
  have hp := h.put tx.sender { c.lookup tx.sender with
    assetParams := (c.lookup tx.sender).assetParams.upsert (c.txnCounter + 1) tx.assetParams
    assets := (c.lookup tx.sender).assets.upsert (c.txnCounter + 1)
      { amount := tx.assetParams.total } }
  have hc := hp.create (c.txnCounter + 1) .asset tx.sender
  obtain ⟨ho, hv⟩ := hc.markHolding tx.sender (c.txnCounter + 1)
  have h1 : (c.lookup tx.sender).assetParams.lookup (c.txnCounter + 1) = none :=
    Option.not_isSome_iff_eq_none.mp hn
  rw [hp.view_create, h.view_put] at hv
  exact ho.evolves_step hv (.createAsset hs h1)

theorem Over.evolves_destroyAsset (hc : c.getCreator tx.configAsset .asset = some creator)
    (h1 : (c.lookup creator).assetParams.lookup tx.configAsset = some params)
    (hr : destroyAsset tx params creator c = .ok c') : Evolves x num busy p c c' := by
  simp only [destroyAsset, bind_ok, failIf_ok, pure_ok, not_not] at hr
  obtain ⟨⟨⟩, hh, rfl⟩ := hr
  have hu := h.uncreate tx.configAsset .asset creator
  obtain ⟨ho, hv⟩ := hu.unmarkHolding creator tx.configAsset
  have ht : c.getCreator tx.configAsset .app = none := getCreator_type hc (by decide)
  have hp := ho.view_put creator { c.lookup creator with
    assets := (c.lookup creator).assets.erase tx.configAsset
    assetParams := (c.lookup creator).assetParams.erase tx.configAsset }
  rw [hv, h.view_uncreate] at hp
  exact (ho.put _ _).evolves_step hp (.destroyAsset hc ht h1 hh)

theorem Over.evolves_configureAsset (hr : configureAsset tx c = .ok c') :
    Evolves x num busy p c c' := by
  simp only [configureAsset, bind_ok] at hr
  obtain ⟨⟨_, _⟩, hg, ⟨⟩, -, hr⟩ := hr
  obtain ⟨hc, hp⟩ := getParams_ok hg
  split_ifs at hr with hz
  · exact h.evolves_destroyAsset hc hp hr
  · obtain rfl := pure_ok.mp hr
    exact h.evolves_put (.configAsset hc hp rfl)

theorem Over.evolves_assetConfig (hs : c.view.Settled)
    (hr : assetConfig x tx ad c.txnCounter c = .ok (ad', c')) : Evolves x num busy p c c' := by
  unfold assetConfig at hr
  split_ifs at hr with hn
  · exact h.evolves_createAsset hs hr
  · simp only [bind_ok, pure_pair] at hr
    obtain ⟨_, hc, -, rfl⟩ := hr
    exact h.evolves_configureAsset hc

/-- Taking an amount out of one account and putting it into one, perhaps the same. -/
theorem Over.evolves_transfer {bypass' : Bool} (ht : takeOut src i amt bypass c = .ok c1)
    (hp : putIn dst i amt bypass' c1 = .ok c') : Evolves x num busy p c c' := by
  by_cases ha : amt = 0
  · rw [takeOut, if_pos ha] at ht
    rw [putIn, if_pos ha] at hp
    obtain rfl := pure_ok.mp ht
    obtain rfl := pure_ok.mp hp
    exact h.refl
  · obtain ⟨_, hs, hl, rfl⟩ := takeOut_ok ha ht
    obtain ⟨_, hd, rfl⟩ := putIn_ok ha hp
    refine ⟨(h.put _ _).put _ _, .single ?_⟩
    rw [(h.put _ _).view_put]
    exact .transferAsset hs hl (h.view_put _ _) hd

theorem Over.evolves_optInAsset {source : Address} {clawback : Bool}
    (hr : optInAsset x tx source clawback c = .ok c') : Evolves x num busy p c c' := by
  simp only [optInAsset] at hr
  split_ifs at hr with ho
  · simp only [bind_ok, pure_ok] at hr
    obtain ⟨⟨_, _⟩, -, ⟨⟩, -, rfl⟩ := hr
    refine Evolves.markHolding ?_ _ _
    exact h.evolves_put (.optInAsset ho.2.2.2)
  · obtain rfl := pure_ok.mp hr
    exact h.refl

theorem Over.evolves_closeOutAsset {source : Address} {clawback : Bool}
    (hr : closeOutAsset x tx source clawback ad c = .ok (ad', c')) : Evolves x num busy p c c' := by
  unfold closeOutAsset at hr
  by_cases hc : tx.assetCloseTo = 0
  · rw [if_pos hc] at hr
    obtain ⟨-, rfl⟩ := pure_pair.mp hr
    exact h.refl
  · simp only [if_neg hc, bind_ok, failIf_ok, orThrow_ok, pure_pair, not_not] at hr
    obtain ⟨⟨⟩, -, ⟨⟩, -, _, -, _, ht, c2, hp, ⟨⟩, hz, -, rfl⟩ := hr
    have he : Evolves x num busy p c c2 := h.evolves_transfer ht hp
    refine he.trans (Evolves.unmarkHolding ?_ _ _)
    exact he.evolves_put (.dropHolding hz)

theorem Over.evolves_assetTransfer (hr : assetTransfer x tx ad c = .ok (ad', c')) :
    Evolves x num busy p c c' := by
  simp only [assetTransfer, bind_ok] at hr
  obtain ⟨⟨_, _⟩, -, c1, ho, _, ht, c3, hp, hc⟩ := hr
  have h1 : Evolves x num busy p c c1 := h.evolves_optInAsset ho
  have h2 : Evolves x num busy p c1 c3 := h1.evolves_transfer ht hp
  exact (h1.trans h2).trans (h2.evolves_closeOutAsset hc)

theorem Over.evolves_assetFreeze (hr : assetFreeze tx c = .ok c') : Evolves x num busy p c c' := by
  simp only [assetFreeze, bind_ok, orThrow_ok, pure_ok] at hr
  obtain ⟨-, -, ⟨⟩, -, _, hl, rfl⟩ := hr
  exact h.evolves_put (.freezeAsset hl)

end

/-! ## Applications -/

theorem getAppParams_ok {params : AppParams}
    (h : getAppParams aidx c = .ok (some (params, creator))) : c.view.HasApp aidx creator := by
  unfold getAppParams at h
  split at h
  · cases h
  · rename_i creator' hc
    simp only [bind_ok, orThrow_ok, pure_ok, Option.some.injEq, Prod.mk.injEq] at h
    obtain ⟨_, hp, rfl, rfl⟩ := h
    exact ⟨hc, Option.isSome_iff_exists.mpr ⟨_, hp⟩⟩

section

variable (h : Over p c)
include h

theorem Over.evolves_createApplication (hs : c.view.Settled)
    (hr : createApplication x tx creator c.txnCounter c = .ok (appIdx, c')) :
    appIdx = c.txnCounter + 1 ∧ Evolves x num busy p c c' := by
  simp only [createApplication, bind_ok, pure_pair] at hr
  obtain ⟨⟨⟩, -, _, ha, rfl, rfl⟩ := hr
  obtain ⟨ho, hw⟩ := (h.put _ _).allocateApp ha
  obtain ⟨hn, hv⟩ := allocateApp_ok hw
  rw [h.view_put] at hv
  rw [h.view_put] at hn
  exact ⟨rfl, ho.evolves_step hv (.createApp hs rfl hn)⟩

theorem Over.evolves_deleteApplication (hb : num.ids → appIdx ∉ busy)
    (ha : num.ids → c.view.HasApp appIdx creator)
    (hr : deleteApplication x creator appIdx c = .ok c') : Evolves x num busy p c c' := by
  obtain ⟨ho, hw⟩ := (h.put _ _).deallocateApp hr
  have hv := deallocateApp_ok hw
  rw [h.view_put] at hv
  exact ho.evolves_step hv (.deleteApp hb fun hn => getCreator_type (ha hn).creator_eq (by decide))

theorem Over.evolves_updateApplication (ha : num.ids → c.view.HasApp appIdx creator)
    (hr : updateApplication x tx creator appIdx c = .ok c') : Evolves x num busy p c c' := by
  simp only [updateApplication, bind_ok, pure_ok] at hr
  obtain ⟨⟨⟩, -, rfl⟩ := hr
  exact h.evolves_put (.updateApp fun hn => (ha hn).params)

theorem Over.evolves_optInApplication {params : AppParams}
    (hr : optInApplication x sender appIdx params c = .ok c') : Evolves x num busy p c c' := by
  simp only [optInApplication, bind_ok, failIf_ok] at hr
  obtain ⟨⟨⟩, h1, ⟨⟩, -, ha⟩ := hr
  obtain ⟨ho, hw⟩ := (h.put _ _).allocateApp ha
  obtain ⟨hn, hv⟩ := allocateApp_ok hw
  rw [h.view_put] at hv
  rw [h.view_put] at hn
  exact ho.evolves_step hv (.optInApp (Option.not_isSome_iff_eq_none.mp h1) hn)

theorem Over.evolves_closeOutApplication (hr : closeOutApplication sender appIdx c = .ok c') :
    Evolves x num busy p c c' := by
  simp only [closeOutApplication, bind_ok] at hr
  obtain ⟨_, -, hd⟩ := hr
  obtain ⟨ho, hw⟩ := (h.put _ _).deallocateApp hd
  have hv := deallocateApp_ok hw
  rw [h.view_put] at hv
  exact ho.evolves_step hv .closeOutApp

theorem Over.evolves_write {wr : LedgerWrite} (hr : wr.run x aidx c = .ok c') :
    Evolves x num busy p c c' := by
  have hs : ∀ {s key vl}, c.setKey x s key vl = .ok c' → Evolves x num busy p c c' :=
    fun hr => ⟨(h.setKey hr).1, .single (setKey_step (h.setKey hr).2)⟩
  have hd : ∀ {s key}, c.delKey s key = .ok c' → Evolves x num busy p c c' :=
    fun hr => ⟨(h.delKey hr).1, delKey_steps (h.delKey hr).2⟩
  cases wr with
  | setLocal ad key vl => exact hs hr
  | delLocal ad key => exact hd hr
  | setGlobal key vl =>
    obtain ⟨_, -, hr⟩ := bind_ok.mp hr
    exact hs hr
  | delGlobal key =>
    obtain ⟨_, -, hr⟩ := bind_ok.mp hr
    exact hd hr

end

end Cow

end Novarand.Ledger
