import Novarand.Ledger.Evaluator
import Novarand.Ledger.Evolve

/-!
# Application calls, groups and blocks are runs of steps

The recursion of `ApplicationCall`, programs and inner transactions, from the transactions of a group up
to the groups of a block. The id of an asset or application is the counter plus one at the moment it
is assigned: the counter of an inner transaction is increased before it is applied, that of an outer
one after, so between two assignments the counter has grown.
-/

namespace Novarand.Ledger

open List Cow Apply World

open Cow (Over Ready Evolves Charged)

variable {P α β : Type} {avm : Avm P} {x : BlockContext} {num : Terms} {busy barred : List AppIndex}
  {p c c' : Cow}

variable {ep ep' : P} {tx : Transaction} {ad ad' : ApplyData} {appIdx : AppIndex}
  {eval : Evaluator P}

/-! ## Programs -/

/-- The program submits allowed transactions only. -/
def Script.Submits (x : BlockContext) (num : Terms) : Script P → Cow → Prop :=
  Always x (fun c => num.inv c.view) fun _ subtxns => ∀ tx ∈ subtxns, num.applied tx

/-- All programs do, besides those of the applications `barred`. -/
def Avm.Submits (avm : Avm P) (x : BlockContext) (num : Terms) (barred : List AppIndex) : Prop :=
  ∀ program gi aidx callers ep c, (num.ids → aidx ∉ barred) → num.inv c.view →
    (avm.evalContract program gi aidx callers ep).Submits x num c

theorem Script.submits_of_applied (h : ∀ tx, num.applied tx) (script : Script P) (c : Cow) :
    script.Submits x num c := by
  induction script generalizing c with
  | ret => trivial
  | read k ih => exact ih _ c
  | write _ _ k ih => exact fun c _ => ih c
  | submit _ _ _ k ih => exact ⟨fun tx _ => h tx, fun ep c _ => ih ep c⟩

theorem Avm.submits_any {ids : Prop} : avm.Submits x ids barred :=
  fun _ _ _ _ _ c _ _ => Script.submits_of_applied (fun _ => trivial) _ c

/-- Inner transactions are runs of steps in which the applications `busy` stay. -/
def SoundPerformer (x : BlockContext) (num : Terms) (busy : List AppIndex) (perform : Performer P) :
    Prop :=
  ∀ i tx ep c ep' ad c' p, Ready num busy p c → num.applied tx →
    (tx.type = .applicationCall → tx.applicationID ∉ busy) →
    perform i tx ep c = (ep', .ok (ad, c')) → Evolves x num busy p c c'

/-- The programs that pass are runs of steps in which also their application stays. -/
def SoundEvaluator (x : BlockContext) (num : Terms) (busy : List AppIndex)
    (eval : Evaluator P) : Prop :=
  ∀ aidx program ep c ep' evalDelta c' p, Ready num busy p c → (num.ids → aidx ∉ busy) →
    (num.ids → aidx ≤ c.view.counter ∨ aidx ∈ c.view.assigned) →
    eval aidx program ep c = (ep', .ok (some (evalDelta, c'))) →
    Evolves x num (aidx :: busy) p c c'

variable {parents : List AppIndex} {a aidx : AppIndex}

theorem checkReentrancy_ok {u : Unit} (h : checkReentrancy (a :: parents) tx = .ok u)
    (ht : tx.type = .applicationCall) : tx.applicationID ∉ a :: parents := by
  simp only [checkReentrancy, if_pos ht, bind_ok, failIf_ok] at h
  obtain ⟨⟨⟩, hs, ⟨⟩, he, -⟩ := h
  rw [mem_cons]
  rintro (hq | hm)
  · exact hs hq.symm
  · exact he hm

variable {i gi size units : ℕ}

section

variable [num.Kept x]

theorem performGroup_evolves {perform : Performer P} (hp : SoundPerformer x num busy perform)
    {txs : List Transaction} (ha : ∀ tx ∈ txs, num.applied tx)
    (ht : ∀ tx ∈ txs, tx.type = .applicationCall → tx.applicationID ∉ busy)
    (h : Ready num busy p c) (hr : performGroup avm perform i txs ep c = (ep', .ok c')) :
    Evolves x num busy p c c' := by
  induction txs generalizing i ep c with
  | nil =>
    cases hr
    exact h.refl
  | cons tx txs ih =>
    obtain ⟨ep1, ⟨ad, c1⟩, ho, hs⟩ := Ran.bind_ok.mp hr
    obtain ⟨hx, ht⟩ := forall_mem_cons.mp ht
    obtain ⟨hy, ha⟩ := forall_mem_cons.mp ha
    have he := hp i tx ep c ep1 ad c1 p h hy hx ho
    exact he.trans (ih ha ht (h.evolves he) hs)

theorem runScript_evolves {perform : Performer P} (hp : SoundPerformer x num (a :: parents) perform)
    {script : Script P} (h : Ready num (a :: parents) p c) (hs : script.Submits x num c)
    (hk : script.Checked (a :: parents) x c) {passed : Bool}
    (hr : runScript avm x perform aidx script c = (ep', .ok (passed, c'))) :
    Evolves x num (a :: parents) p c c' := by
  induction script generalizing c with
  | ret res ep =>
    cases res with
    | error e => cases hr
    | ok b =>
      cases hr
      exact h.refl
  | read k ih => exact ih _ h hs hk hr
  | write w fl k ih =>
    simp only [runScript] at hr
    cases hw : w.run x aidx c with
    | error e =>
      rw [hw] at hr
      cases hr
    | ok c1 =>
      rw [hw] at hr
      have he : Evolves x num (a :: parents) p c c1 := h.evolves_write hw
      have hd := h.evolves he
      exact he.trans (ih hd (hs _ hd.inv) (hk _ trivial) hr)
  | submit txs ie fl k ih =>
    simp only [runScript] at hr
    have ht : ∀ tx ∈ txs, tx.type = .applicationCall → tx.applicationID ∉ a :: parents :=
      fun tx hx => checkReentrancy_ok (hk.1 tx hx)
    cases hg : performGroup avm perform 0 txs ie c with
    | mk ep res =>
      cases res with
      | error e =>
        simp only [hg] at hr
        cases hr
      | ok c1 =>
        simp only [hg] at hr
        have he := performGroup_evolves hp hs.1 ht h hg
        have hd := h.evolves he
        exact he.trans (ih ep hd (hs.2 _ _ hd.inv) (hk.2 _ _ trivial) hr)

/-- A program that passes runs in a child that is committed. -/
theorem statefulEval_sound {perform : AppIndex → Performer P} (hv : avm.Submits x num barred)
    (hb : barred ⊆ busy)
    (hp : ∀ aidx, SoundPerformer x num (aidx :: busy) (perform aidx)) (gi : ℕ) (tx : Transaction) :
    SoundEvaluator x num busy fun aidx =>
      statefulEval avm x (perform aidx) busy gi tx aidx := by
  intro aidx program ep c _ _ _ p h hn hk hr
  simp only [statefulEval] at hr
  split at hr
  · cases hr
  · cases hr
  · rename_i ep1 calf hu
    have hd : Ready num (aidx :: busy) c c.child :=
      h.child fun hn => forall_mem_cons.mpr ⟨hk hn, h.known hn⟩
    have hs := hv program gi aidx busy ep c.child (fun hi hm => hn hi (hb hm)) hd.inv
    have he := runScript_evolves (hp aidx) hd hs (avm.checked ..) hu
    have hm := (Prod.mk.inj hr).2
    cases hc : commitProgram avm x gi tx aidx ep1 calf with
    | error e =>
      rw [hc] at hm
      cases hm
    | ok _ =>
      rw [hc] at hm
      obtain rfl := Option.some.inj (Except.ok.inj hm)
      simp only [commitProgram, bind_ok, pure_pair] at hc
      obtain ⟨_, -, _, hc, -, rfl⟩ := hc
      exact .commit h.toOver he hc

end

/-! ## Application calls -/

theorem evolves_calledApplication (h : Ready num busy p c) (hse : c.view.Settled)
    (ht : tx.applicationID ∉ busy)
    (hr : calledApplication x tx ad c.txnCounter c = .ok (appIdx, ad', c')) :
    Evolves x num busy p c c' ∧ (num.ids → appIdx ∉ busy) := by
  unfold calledApplication at hr
  split_ifs at hr with hz
  · simp only [bind_ok, pure_pair] at hr
    obtain ⟨⟨_, _⟩, hc, rfl, -, rfl⟩ := hr
    obtain ⟨rfl, he⟩ := h.evolves_createApplication hse hc
    exact ⟨he, fun hn => (h.known hn).not_next hse⟩
  · obtain ⟨rfl, -, rfl⟩ := pure_pair.mp hr
    exact ⟨h.refl, fun _ => ht⟩

variable {app : Option (AppParams × Address)}

theorem prepareCall_ok (h : Ready num busy p c) (hse : c.view.Settled)
    (ht : tx.applicationID ∉ busy)
    (hr : prepareCall avm x tx ad ep c.txnCounter c = .ok (appIdx, app, ad', c')) :
    Evolves x num busy p c c' ∧ (num.ids → appIdx ∉ busy) ∧
      ∀ params creator, app = some (params, creator) → c'.view.HasApp appIdx creator := by
  simp only [prepareCall, bind_ok, pure_pair] at hr
  obtain ⟨⟨_, _, _⟩, hc, _, ha, ⟨⟩, -, ⟨⟩, -, rfl, rfl, -, rfl⟩ := hr
  obtain ⟨he, hb⟩ := evolves_calledApplication h hse ht hc
  refine ⟨he, hb, ?_⟩
  rintro params creator rfl
  exact getAppParams_ok ha

variable {creator sender : Address}

theorem evolves_complete (h : Over p c) (hb : num.ids → appIdx ∉ busy)
    (ha : num.ids → c.view.HasApp appIdx creator) (hr : complete x tx creator appIdx c = .ok c') :
    Evolves x num busy p c c' := by
  unfold complete at hr
  split at hr
  · cases hr
    exact h.refl
  · cases hr
    exact h.refl
  · exact h.evolves_closeOutApplication hr
  · exact h.evolves_deleteApplication hb ha hr
  · exact h.evolves_updateApplication ha hr
  · cases hr

variable {params : AppParams}

theorem evolves_optInFirst (h : Over p c) (hr : optInFirst x tx appIdx params c = .ok c') :
    Evolves x num busy p c c' := by
  unfold optInFirst at hr
  split_ifs at hr
  · exact h.evolves_optInApplication hr
  · obtain rfl := pure_ok.mp hr
    exact h.refl

theorem map_ok_iff {ε α β : Type*} {r : Except ε α} {f : α → β} {b : β} :
    r.map f = .ok b ↔ ∃ a, r = .ok a ∧ f a = b := by
  cases r <;> simp [Except.map]

section

variable [num.Kept x] (hev : SoundEvaluator x num busy eval) (h : Ready num busy p c)
include hev h

theorem evolves_approve (hb : num.ids → appIdx ∉ busy) (ha : c.view.HasApp appIdx creator)
    (hr : approve x eval tx appIdx params creator ad ep c = (ep', .ok (ad', c'))) :
    Evolves x num busy p c c' := by
  have hm : appIdx ∈ appIdx :: busy := mem_cons_self
  unfold approve at hr
  cases ho : optInFirst x tx appIdx params c with
  | error e =>
    rw [ho] at hr
    cases hr
  | ok c1 =>
    rw [ho] at hr
    obtain ⟨ep1, ps, hp, hr⟩ := Ran.bind_ok.mp hr
    cases ps with
    | none => cases hr
    | some res =>
      obtain ⟨ed, c2⟩ := res
      obtain ⟨_, hc, hc3⟩ := map_ok_iff.mp (Prod.mk.inj hr).2
      obtain ⟨-, rfl⟩ := Prod.mk.inj hc3
      -- the application stays while its own program runs
      have h1 : Evolves x num (appIdx :: busy) p c c1 := evolves_optInFirst h.toOver ho
      have ha1 : num.ids → c1.view.HasApp appIdx creator :=
        fun hn => ha.steps (h.numbered hn) hm hn h1.steps
      have hd := h.evolves h1
      have h2 := hev appIdx _ ep c1 ep1 ed c2 p hd hb (fun hn => (ha1 hn).known (hd.numbered hn)) hp
      have ha2 : num.ids → c2.view.HasApp appIdx creator :=
        fun hn => (ha1 hn).steps (hd.numbered hn) hm hn h2.steps
      exact ((h1.trans h2).mono (subset_cons_self _ _)).trans (evolves_complete h2.toOver hb ha2 hc)

omit [num.Kept x] in
theorem evolves_clearState (hb : num.ids → appIdx ∉ busy)
    (ha : ∀ params creator, app = some (params, creator) → c.view.HasApp appIdx creator)
    (hr : clearState eval tx appIdx (app.map (·.1)) ad ep c = (ep', .ok (ad', c'))) :
    Evolves x num busy p c c' := by
  -- whatever the program did, the local state is closed out
  have hc : ∀ {c1 : Cow} {ad1 : ApplyData}, Over p c1 →
      (closeOutApplication tx.sender appIdx c1).map (ad1, ·) = .ok (ad', c') →
      Evolves x num busy p c1 c' := by
    intro c1 ad1 ho hr
    obtain ⟨_, hc, hc2⟩ := map_ok_iff.mp hr
    obtain ⟨-, rfl⟩ := Prod.mk.inj hc2
    exact ho.evolves_closeOutApplication hc
  unfold clearState at hr
  by_cases h1 : ((c.lookup tx.sender).appLocalStates.lookup appIdx).isNone
  · rw [if_pos h1] at hr
    cases hr
  · rw [if_neg h1] at hr
    cases app with
    | none => exact hc h.toOver (Prod.mk.inj hr).2
    | some pc =>
      obtain ⟨params, creator⟩ := pc
      simp only [Option.map_some] at hr
      split at hr
      · rename_i ep1 evalDelta c1 hp
        have hv := (hev appIdx _ ep c ep1 evalDelta c1 p h hb
          (fun hn => (ha params creator rfl).known (h.numbered hn)) hp).mono (subset_cons_self _ _)
        exact hv.trans (hc hv.toOver (Prod.mk.inj hr).2)
      · exact hc h.toOver (Prod.mk.inj hr).2
      · rename_i ep1 e hp
        by_cases he : e = .logicEval
        · rw [if_pos he] at hr
          exact hc h.toOver (Prod.mk.inj hr).2
        · rw [if_neg he] at hr
          cases hr

theorem evolves_applicationCall (hse : c.view.Settled) {sync : ApplyData → P → P}
    (ht : tx.applicationID ∉ busy)
    (hr : applicationCall avm x eval sync tx ad ep c.txnCounter c = (ep', .ok (ad', c'))) :
    Evolves x num busy p c c' := by
  unfold applicationCall at hr
  cases hp : prepareCall avm x tx ad ep c.txnCounter c with
  | error e =>
    rw [hp] at hr
    cases hr
  | ok res =>
    obtain ⟨_, app, _, _⟩ := res
    obtain ⟨he, hb, ha⟩ := prepareCall_ok h hse ht hp
    simp only [hp] at hr
    by_cases hc : tx.onCompletion = .clearState
    · rw [if_pos hc] at hr
      exact he.trans (evolves_clearState hev (h.evolves he) hb ha hr)
    · rw [if_neg hc] at hr
      cases app with
      | none => cases hr
      | some pc =>
        obtain ⟨pr, cr⟩ := pc
        exact he.trans (evolves_approve hev (h.evolves he) hb (ha pr cr rfl) hr)

end

/-! ## Inner transactions -/

theorem startInner_ok [num.Kept x] (h : Ready num busy p c) (ht : num.applied tx)
    (hr : startInner x tx c = .ok (ad, c')) :
    Evolves x num busy p c c' ∧ c'.view.Settled ∧ (c'.lookup tx.sender).UpToDate x.rewardsLevel := by
  simp only [startInner, bind_ok, pure_pair] at hr
  obtain ⟨⟨_, _, c1⟩, hm, -, rfl⟩ := hr
  have h1 : Charged x num busy p tx.sender c c1 := h.charged_move hm
  have h2 : Charged x num busy p tx.sender c1 (rekey tx c1) := h1.charged_rekey h1.upToDate ht
  have h12 := h1.trans h2
  obtain ⟨ho, hv⟩ := h2.incTxnCount
  refine ⟨h12.toEvolves.trans (ho.evolves_step hv .count), ?_, ?_⟩
  · rw [hv]
    exact (h.evolves h12.toEvolves).ahead.settled_incTxnCount
  · show (account (view _) tx.sender).UpToDate _
    rw [hv]
    exact h12.upToDate

theorem evolves_applyInner {call : Transaction → ApplyData → P → Cow → Ran P (ApplyData × Cow)}
    (h : Ready num busy p c) (ht : num.applied tx) (hse : c.view.Settled)
    (hu : (c.lookup tx.sender).UpToDate x.rewardsLevel)
    (hc : tx.type = .applicationCall → call tx ad ep c = (ep', .ok (ad', c')) →
      Evolves x num busy p c c') (hr : applyInner x call tx ad ep c = (ep', .ok (ad', c'))) :
    Evolves x num busy p c c' := by
  have hm : ∀ {r : Except EvalError Cow}, r.map (ad, ·) = .ok (ad', c') → r = .ok c' := by
    intro r hr
    obtain ⟨_, hc1, he⟩ := map_ok_iff.mp hr
    obtain ⟨-, rfl⟩ := Prod.mk.inj he
    exact hc1
  unfold applyInner at hr
  split at hr
  · exact h.evolves_payment ht (Prod.mk.inj hr).2
  · rename_i hy
    exact h.evolves_keyreg hu ht hy (hm (Prod.mk.inj hr).2)
  · exact h.evolves_assetConfig hse (Prod.mk.inj hr).2
  · exact h.evolves_assetTransfer (Prod.mk.inj hr).2
  · exact h.evolves_assetFreeze (hm (Prod.mk.inj hr).2)
  · rename_i hy
    exact hc hy hr
  · cases hr

theorem performWith_sound [num.Kept x]
    {call : ℕ → Transaction → ApplyData → P → Cow → Ran P (ApplyData × Cow)}
    (hc : ∀ gi tx ad ep c ep' ad' c' p, Ready num busy p c → c.view.Settled →
      tx.applicationID ∉ busy → call gi tx ad ep c = (ep', .ok (ad', c')) →
      Evolves x num busy p c c') : SoundPerformer x num busy (performWith x call) := by
  intro gi tx ep c ep' ad' c' p h ha ht hr
  unfold performWith at hr
  cases hs : startInner x tx c with
  | error e =>
    rw [hs] at hr
    cases hr
  | ok res =>
    obtain ⟨ad, c1⟩ := res
    simp only [hs] at hr
    obtain ⟨he, hse, hu⟩ := startInner_ok h ha hs
    have hd := h.evolves he
    exact he.trans (evolves_applyInner hd ha hse hu
      (fun hy hr => hc gi tx ad ep c1 ep' ad' c' p hd hse (ht hy) hr) hr)

/-- By induction on the depth: the inner calls of an application are sound for the longer chain. -/
theorem perform_sound [num.Kept x] (hv : avm.Submits x num barred) (depth : ℕ)
    (callers : List AppIndex) (hb : barred ⊆ callers) :
    SoundPerformer x num callers (perform avm x depth callers) := by
  induction depth generalizing callers with
  | zero =>
    refine performWith_sound ?_
    intro gi tx ad ep c ep' ad' c' p h hse ht hr
    cases hr
  | succ depth ih =>
    refine performWith_sound ?_
    intro gi tx ad ep c ep' ad' c' p h hse ht hr
    exact evolves_applicationCall (statefulEval_sound hv hb
      (fun ai => ih (ai :: callers) (subset_cons_of_subset _ hb)) gi tx) h hse ht hr

theorem perform_sound_any (avm : Avm P) {num : Prop} (depth : ℕ) (callers : List AppIndex) :
    SoundPerformer x num callers (perform avm x depth callers) :=
  perform_sound Avm.submits_any depth callers (nil_subset _)

theorem evolves_outerCall [num.Kept x] (hv : avm.Submits x num []) (h : Ready num [] p c)
    (hse : c.view.Settled)
    (hr : outerCall avm x gi tx ad ep c.txnCounter c = (ep', .ok (ad', c'))) :
    Evolves x num [] p c c' :=
  evolves_applicationCall
    (statefulEval_sound hv (nil_subset _)
      (fun aidx => perform_sound hv maxAppCallDepth [aidx] (nil_subset _)) gi tx) h hse
    not_mem_nil hr

/-! ## Transactions -/

variable {n n' : Round} {group txads : List SignedTxnWithAD} (addrs : List Address)
  (b : RoundCowBase)

namespace BlockEvaluator

variable {env : Environment P} {ev ev' ev'' : BlockEvaluator} {gi : ℕ} {l : LedgerForEvaluator}

theorem payRewards_charged (h : Over p c) {reward : MicroNovas} {addrs : List Address}
    (hu : addrs ≠ [] ∨ (c.lookup sender).UpToDate x.rewardsLevel)
    (hr : payRewards x sender reward addrs ad c = .ok (ad', c')) :
    Charged x num busy p sender c c' := by
  induction addrs generalizing c ad with
  | nil =>
    obtain ⟨-, rfl⟩ := Prod.mk.inj (pure_ok.mp hr)
    exact ⟨h.refl, rfl, rfl, hu.resolve_left (not_not.mpr rfl)⟩
  | cons _ addrs ih =>
    simp only [payRewards, bind_ok] at hr
    obtain ⟨⟨_, _, c1⟩, hm, hs⟩ := hr
    have ho : Charged x num busy p sender c c1 := h.charged_move hm
    exact ho.trans (ih ho.toOver (.inr ho.upToDate) hs)

theorem payFee_charged (h : Over p c) (hr : ev.payFee tx c = .ok (ad, c')) :
    Charged ev.ctx num busy p tx.sender c c' := by
  simp only [payFee] at hr
  split_ifs at hr with hv
  · have he : ev.rewardAddresses ≠ [] := fun hn => hv (by simp [hn])
    exact payRewards_charged h (.inl he) hr
  · simp only [bind_ok, pure_pair] at hr
    obtain ⟨⟨_, _, _⟩, hm, -, rfl⟩ := hr
    exact h.charged_move hm

section

variable [num.Kept ev.ctx] (hv : env.avm.Submits ev.ctx num []) (h : Ready num [] p c)
  (hse : c.view.Settled)
include hv h hse

theorem evolves_applyType (ht : num.applied tx) (hu : (c.lookup tx.sender).UpToDate ev.ctx.rewardsLevel)
    (hr : ev.applyType env gi tx c.txnCounter ad ep n c = .ok (ad', ep', n', c')) :
    Evolves ev.ctx num [] p c c' := by
  unfold applyType at hr
  split at hr
  · simp only [bind_ok, pure_pair] at hr
    obtain ⟨⟨ad1, c1⟩, hp, -, -, -, rfl⟩ := hr
    exact h.evolves_payment ht hp
  · rename_i hy
    simp only [bind_ok, pure_pair] at hr
    obtain ⟨c1, hk, -, -, -, rfl⟩ := hr
    exact h.evolves_keyreg hu ht hy hk
  · simp only [bind_ok, pure_pair] at hr
    obtain ⟨⟨ad1, c1⟩, hc, -, -, -, rfl⟩ := hr
    exact h.evolves_assetConfig hse hc
  · simp only [bind_ok, pure_pair] at hr
    obtain ⟨⟨ad1, c1⟩, hx, -, -, -, rfl⟩ := hr
    exact h.evolves_assetTransfer hx
  · simp only [bind_ok, pure_pair] at hr
    obtain ⟨c1, hf, -, -, -, rfl⟩ := hr
    exact h.evolves_assetFreeze hf
  · split at hr
    · rename_i ep1 ad1 c1 hl
      obtain ⟨-, -, -, rfl⟩ := pure_pair.mp hr
      exact evolves_outerCall hv h hse hl
    · cases hr
  · obtain ⟨-, -, -, rfl⟩ := pure_pair.mp hr
    exact h.refl
  · split_ifs at hr
    · simp only [bind_ok, pure_pair] at hr
      obtain ⟨_, -, -, -, -, rfl⟩ := hr
      exact h.refl
    · obtain ⟨-, -, -, rfl⟩ := pure_pair.mp hr
      exact h.refl
  · cases hr

theorem evolves_applyTransaction (ha : num.applied tx)
    (hr : ev.applyTransaction env gi tx c.txnCounter ep n c = .ok (ad, ep', n', c')) :
    Evolves ev.ctx num [] p c c' := by
  simp only [applyTransaction, bind_ok, pure_pair] at hr
  obtain ⟨⟨_, c1⟩, hf, ⟨_, _, _, _⟩, ht, -, -, -, rfl⟩ := hr
  have h1 : Charged ev.ctx num [] p tx.sender c c1 := payFee_charged h.toOver hf
  have h2 := h1.trans (h1.charged_rekey h1.upToDate ha)
  -- charging the sender assigns no id, so the counter is still that of the transaction
  have hc : c.txnCounter = (rekey tx c1).txnCounter := h2.counter_eq.symm
  rw [hc] at ht
  exact h2.toEvolves.trans
    (evolves_applyType hv (h.evolves h2.toEvolves) (h2.settled hse) ha h2.upToDate ht)

theorem evolves_transaction {txn : SignedTxn} {txib : SignedTxnInBlock} (ht : num.applied txn.txn)
    (hr : ev.transaction env gi txn ad ep n c = .ok (txib, ep', n', c')) :
    Evolves ev.ctx num [] p c c' ∧ c'.view.Settled := by
  simp only [transaction, bind_ok, pure_pair] at hr
  obtain ⟨⟨⟩, -, ⟨_, _, _, _⟩, ha, ⟨⟩, -, _, -, ⟨⟩, -, -, -, -, rfl⟩ := hr
  have he := evolves_applyTransaction hv h hse ht ha
  obtain ⟨ho, hv⟩ := he.addTx (env.txid txn.txn) txn.txn.lastValid
    { sender := txn.txn.sender, lease := txn.txn.lease }
  refine ⟨he.trans (ho.evolves_step hv .count), ?_⟩
  rw [hv]
  exact (h.evolves he).ahead.settled_incTxnCount

end

/-! ## Groups -/

/-- All transactions of the group are allowed. -/
def Applied (num : Terms) (group : List SignedTxnWithAD) : Prop :=
  ∀ txad ∈ group, num.applied txad.signedTxn.txn

section

variable [num.Kept ev.ctx] (hv : env.avm.Submits ev.ctx num [])
include hv

theorem evolves_groupLoop {group : Digest} {g g' : GroupState P} (h : Ready num [] p g.cow)
    (ha : Applied num txads) (hse : g.cow.view.Settled)
    (hr : ev.groupLoop env size group gi txads g = .ok g') :
    Evolves ev.ctx num [] p g.cow g'.cow ∧ g'.cow.view.Settled := by
  induction txads generalizing gi g with
  | nil =>
    obtain rfl := pure_ok.mp hr
    exact ⟨h.refl, hse⟩
  | cons _ txads ih =>
    simp only [groupLoop, bind_ok] at hr
    obtain ⟨⟨_, _, n, cow⟩, ht, ⟨⟩, -, _, -, hs⟩ := hr
    obtain ⟨h1, ha⟩ := forall_mem_cons.mp ha
    obtain ⟨ho, hs'⟩ := evolves_transaction hv h hse h1 ht
    obtain ⟨he, hs''⟩ := ih (h.evolves ho) ha hs' hs
    exact ⟨ho.trans he, hs''⟩

theorem evolves_transactionGroup (h : Ready num [] p ev.state) (ha : Applied num group)
    (hse : ev.state.view.Settled) (hr : ev.transactionGroup env group = .ok ev') :
    Evolves ev.ctx num [] p ev.state ev'.state ∧ ev'.state.view.Settled := by
  cases group with
  | nil =>
    obtain rfl := pure_ok.mp hr
    exact ⟨h.refl, hse⟩
  | cons _ _ =>
    simp only [transactionGroup, bind_ok, pure_ok] at hr
    obtain ⟨⟨⟩, -, g, hl, ⟨⟩, -, state, hc, rfl⟩ := hr
    have hs0 : ev.state.child.view.Settled := (view_child ev.state).symm ▸ hse
    obtain ⟨he, hs'⟩ := evolves_groupLoop hv (h.child h.known) ha hs0 hl
    refine ⟨.commit h.toOver he hc, ?_⟩
    exact (view_commit h.toOver he.toOver hc).2.symm ▸ hs'

end

/-- A group changes the state, the payset with its bytes, and the round of the next certificate. -/
def GroupFrame (ev ev' : BlockEvaluator) : Prop :=
  ev' = { ev with
    block := { ev.block with payset := ev'.block.payset }
    blockTxBytes := ev'.blockTxBytes
    state := ev'.state
    certNext := ev'.certNext }

theorem GroupFrame.trans (h : GroupFrame ev ev') (h' : GroupFrame ev' ev'') :
    GroupFrame ev ev'' := by
  rw [h] at h'
  exact h'

theorem transactionGroup_frame (hr : ev.transactionGroup env group = .ok ev') :
    GroupFrame ev ev' := by
  cases group with
  | nil =>
    obtain rfl := pure_ok.mp hr
    rfl
  | cons _ _ =>
    simp only [transactionGroup, bind_ok, pure_ok] at hr
    obtain ⟨⟨⟩, -, g, -, ⟨⟩, -, _, -, rfl⟩ := hr
    rfl

theorem offerGroups_frame (groups : List (List SignedTxnWithAD)) (ev : BlockEvaluator) :
    GroupFrame ev (offerGroups env groups ev) := by
  induction groups generalizing ev with
  | nil => rfl
  | cons gr groups ih =>
    simp only [offerGroups]
    cases hg : ev.transactionGroup env gr with
    | error e => exact ih ev
    | ok ev₁ => exact (transactionGroup_frame hg).trans (ih ev₁)

theorem evolves_offerGroups [num.Kept ev.ctx] (hv : env.avm.Submits ev.ctx num [])
    (h : Ready num [] p ev.state) (hse : ev.state.view.Settled)
    {groups : List (List SignedTxnWithAD)} (ha : ∀ group ∈ groups, Applied num group) :
    Evolves ev.ctx num [] p ev.state (offerGroups env groups ev).state ∧
      (offerGroups env groups ev).state.view.Settled := by
  induction groups generalizing ev with
  | nil => exact ⟨h.refl, hse⟩
  | cons gr groups ih =>
    rename_i hk
    simp only [offerGroups]
    obtain ⟨h1, ha⟩ := forall_mem_cons.mp ha
    cases hg : ev.transactionGroup env gr with
    | error e => exact ih hv h hse ha
    | ok ev₁ =>
      obtain ⟨ho, hs1⟩ := evolves_transactionGroup hv h h1 hse hg
      have hc : ev₁.ctx = ev.ctx := by rw [transactionGroup_frame hg]
      have hd := h.evolves ho
      rw [← hc] at hk hv ho ⊢
      obtain ⟨hs, hs2⟩ := ih hv hd hs1 ha
      exact ⟨ho.trans hs, hs2⟩

/-! ## The start of a block -/

/-- The rewards are withdrawn after at most one transfer into the pool. -/
theorem withdraw_ok (h : Over p c) {genesisHash : Digest} {prevHeader : BlockHeader}
    (hr : withdraw env x genesisHash prevHeader units c = .ok c') :
    ∃ c1 poolOld left, Evolves x num busy p c c1 ∧ SameHoldings c.view c1.view ∧
      (c1.lookup prevHeader.rewardsPool).withUpdatedRewards x.proto x.rewardsLevel = some poolOld ∧
      prevHeader.rewardsLevel ≤ x.rewardsLevel ∧
      left + units * (x.rewardsLevel - prevHeader.rewardsLevel) = poolOld.microNovas ∧
      c' = c1.put prevHeader.rewardsPool { poolOld with microNovas := left } := by
  simp only [withdraw, bind_ok, failIf_ok, getWithRewards, orThrow_ok, pure_ok] at hr
  obtain ⟨⟨⟩, _, po0, hp0, ⟨poolOld, c1⟩, hw, _, h1, rfl⟩ := hr
  simp only [withdrawRewards, bind_ok, orThrow_ok, oSub_eq_some, oMul_eq_some, pure_ok] at h1
  obtain ⟨_, ⟨he, rfl⟩, _, ⟨-, rfl⟩, left, ⟨hp, rfl⟩, _, -, rfl⟩ := h1
  have hl : poolOld.microNovas - units * (x.rewardsLevel - prevHeader.rewardsLevel) +
      units * (x.rewardsLevel - prevHeader.rewardsLevel) = poolOld.microNovas :=
    Nat.sub_add_cancel hp
  unfold workaroundOverspentRewards at hw
  split_ifs at hw with ht
  · simp only [bind_ok, getWithRewards, orThrow_ok, pure_pair] at hw
    obtain ⟨⟨_, _, c2⟩, hm, po', h2, rfl, rfl⟩ := hw
    exact ⟨c2, po', _, h.evolves_move hm, h.sameHoldings_move hm, h2, he, hl, rfl⟩
  · obtain ⟨rfl, rfl⟩ := pure_pair.mp hw
    exact ⟨c, po0, _, h.refl, .refl _, hp0, he, hl, rfl⟩

/-- What a started evaluator has of the ledger and the previous block. -/
structure Started (env : Environment P) (l : LedgerForEvaluator) (ev : BlockEvaluator) : Prop where
  ledger : ev.l = l
  prevTotals : ev.prevTotals = l.latestTotals.2
  level : ev.ctx.rewardsLevel = ev.block.rewardsLevel
  state : ∃ units, ev.prevTotals.totalRewardUnits = some units ∧
    withdraw env ev.ctx l.genesisHash ev.prevHeader units
      (.layer (.base (l.base ev.prevHeader)) {}) = .ok ev.state

section

variable {hdr : BlockHeader} {validate generate : Bool} {maxBytes : ℤ}
  (hr : startEvaluator env l hdr validate generate maxBytes = .ok ev)
include hr

theorem startEvaluator_started : Started env l ev := by
  simp only [startEvaluator, bind_ok, orThrow_ok, pure_ok] at hr
  obtain ⟨_, _, ⟨⟩, -, _, _, _, -, ⟨⟩, -, _, -, un, hu, _, -, ⟨⟩, -, _, hs, rfl⟩ := hr
  exact ⟨rfl, rfl, rfl, un, hu, hs⟩

theorem startEvaluator_mode :
    ev.validate = validate ∧ ev.generate = generate ∧
      l.blockHdr (hdr.round - 1) = .ok ev.prevHeader ∧
      env.consensus hdr.currentProtocol = some ev.ctx.proto := by
  simp only [startEvaluator, bind_ok, orThrow_ok, pure_ok] at hr
  obtain ⟨proto, hp, ⟨⟩, -, prevHeader, hv, _, -, ⟨⟩, -, _, -, _, _,
    blockHdr, -, ⟨⟩, -, _, _, rfl⟩ := hr
  exact ⟨rfl, rfl, hv, hp⟩

/-- The start of a generated block is a block of the rewards model, outside the two rounds in which
the testnet's bank pays into the pool. -/
theorem startEvaluator_startRewards (hg : generate = true)
    (ht : ¬((hdr.round = 1499995 ∨ hdr.round = 2926564) ∧ l.genesisHash = env.testnetGenesisHash)) :
    ∃ units prevProto, l.latestTotals.2.totalRewardUnits = some units ∧
      env.consensus ev.prevHeader.currentProtocol = some prevProto ∧
      startRewards prevProto ev.ctx.proto ev.prevHeader.toRewardsState hdr.round units
        (l.accounts.getD ev.prevHeader.rewardsPool {}) =
          .ok (ev.block.toRewardsState, ev.state.lookup ev.prevHeader.rewardsPool) := by
  subst hg
  simp only [startEvaluator, bind_ok, orThrow_ok, pure_ok, startHeader, if_true] at hr
  obtain ⟨proto, _, ⟨⟩, -, prevHeader, -, prevProto, hpp, ⟨⟩, -, pd, hpd, units, hu,
    _, ⟨next, hn, rfl⟩, ⟨⟩, -, c', hw, rfl⟩ := hr
  refine ⟨units, prevProto, hu, hpp, ?_⟩
  simp only [withdraw, bind_ok, failIf_ok, getWithRewards, orThrow_ok, pure_ok,
    workaroundOverspentRewards, if_neg ht] at hw
  obtain ⟨⟨⟩, -, poolOld, hp, ⟨po, c1⟩, he, poolNew, h1, rfl⟩ := hw
  obtain ⟨rfl, rfl⟩ := Prod.mk.inj he
  have hpo : (l.accounts.getD prevHeader.rewardsPool {}).withUpdatedRewards proto
      next.rewardsLevel = some poolOld := hp
  simp only [startRewards, hpd, orThrow_some, ok_bind, hn, hpo, h1]
  have hl : ((layer (.base (l.base prevHeader)) {}).put prevHeader.rewardsPool poolNew).lookup
      prevHeader.rewardsPool = poolNew := by
    simp [Cow.put, Cow.modify, Cow.lookup, Dict.lookup_upsert]
  rw [hl]
  rfl

end

/-- The addresses that get the fees can be set after the start. -/
theorem Started.withRewardAddresses (h : Started env l ev) (rewardAddresses : List Address) :
    Started env l { ev with rewardAddresses } :=
  ⟨h.ledger, h.prevTotals, h.level, h.state⟩

theorem view_start : (layer (.base b) {}).view = (base b).view :=
  view_child _

/-- The state a block starts from. -/
theorem ready_start {num : Prop} (hu : num → (base b).view.Numbered) :
    Ready num [] (.base b) (.layer (.base b) {}) := by
  refine ⟨.child trivial, ?_, ?_, fun _ i hi => (by cases hi), trivial⟩
  · intro i hi
    cases hi
  · exact fun hn => view_start b ▸ hu hn

section

variable (h : Started env l ev)
include h

/-- The withdrawal changes balances only. -/
theorem Started.withdrawn :
    Over (.base (l.base ev.prevHeader)) ev.state ∧
      SameHoldings (base (l.base ev.prevHeader)).view ev.state.view := by
  obtain ⟨_, -, hw⟩ := h.state
  have ht : Over (.base (l.base ev.prevHeader)) (.layer (.base (l.base ev.prevHeader)) {}) :=
    .child trivial
  obtain ⟨c1, poolOld, left, he, hm, hp, -, -, hs⟩ :
      ∃ c1 poolOld left, Evolves ev.ctx False [] _ _ c1 ∧ _ := withdraw_ok ht hw
  rw [view_start] at hm
  rw [hs, he.toOver.view_put]
  exact ⟨he.toOver.put _ _, hm.trans (.claim hp left)⟩

theorem Started.ready {num : Prop} (hn : num → (base (l.base ev.prevHeader)).view.Numbered) :
    Ready num [] (.base (l.base ev.prevHeader)) ev.state ∧ ev.state.view.assigned = [] ∧
      ev.state.view.counter = ev.prevHeader.txnCounter := by
  obtain ⟨ho, hs⟩ := h.withdrawn
  refine ⟨(ready_start _ hn).sameHoldings ho ?_ trivial, hs.assigned, hs.counter⟩
  rw [view_start]
  exact hs

theorem Started.settled : ev.state.view.Settled := by
  have hd : Ready False [] _ ev.state ∧ _ ∧ _ := h.ready False.elim
  intro i hi
  rw [hd.2.1] at hi
  cases hi

/-- The groups of a block. -/
theorem Started.evolves {num : Prop} (hn : num → (base (l.base ev.prevHeader)).view.Numbered)
    (groups : List (List SignedTxnWithAD)) :
    Evolves ev.ctx num [] (.base (l.base ev.prevHeader)) ev.state
        (offerGroups env groups ev).state ∧
      (offerGroups env groups ev).state.view.Settled :=
  evolves_offerGroups Avm.submits_any (h.ready hn).1 h.settled fun _ _ _ _ => trivial

end

/-! ## The end of a block -/

/-- Generating the header changes the header only. -/
theorem generateHeader_frame (hr : ev.generateHeader env = .ok ev') :
    ev' = { ev with block := ev'.block } := by
  unfold generateHeader at hr
  by_cases hg : ev.generate
  · simp only [if_pos hg, bind_ok, pure_ok] at hr
    obtain ⟨_, -, ⟨_, _⟩, -, rfl⟩ := hr
    rfl
  · rw [if_neg hg] at hr
    obtain rfl := pure_ok.mp hr
    rfl

theorem resetAccounts_view (h : Over p c) (addrs : List Address) :
    Over p (resetAccounts addrs c) ∧ (resetAccounts addrs c).view = c.view.offline addrs := by
  induction addrs generalizing c with
  | nil => exact ⟨h, by simp [World.offline, resetAccounts]⟩
  | cons ad addrs ih =>
    obtain ⟨ho, hv⟩ := ih (h.put ad (c.lookup ad).clearOnlineState)
    refine ⟨ho, hv.trans ?_⟩
    rw [h.view_put]
    refine World.ext (fun a => ?_) (fun _ _ => rfl) (fun _ => rfl) rfl rfl
    simp only [World.offline, World.put_account, mem_cons]
    by_cases ha : a = ad
    · subst ha
      simp only [if_true, true_or]
      exact ite_self _
    · simp only [ha, if_false, false_or]

theorem counts_resetAccounts (c : Cow) : (resetAccounts addrs c).txnCounter = c.txnCounter ∧
    (resetAccounts addrs c).assigned = c.assigned := by
  induction addrs generalizing c with
  | nil => exact ⟨rfl, rfl⟩
  | cons ad addrs ih =>
    obtain ⟨h1, h2⟩ := ih (c.put ad (c.lookup ad).clearOnlineState)
    cases c <;> exact ⟨h1, h2⟩

/-- Accounts that pass the check of the expired accounts are online, with keys of past rounds. -/
theorem checkExpired_ok {seen : List Address} (hr : ev.checkExpired addrs seen = .ok ()) :
    ∀ a ∈ addrs, (ev.state.lookup a).status = .online ∧
      (ev.state.lookup a).voteLastValid < ev.block.round := by
  induction addrs generalizing seen with
  | nil => exact forall_mem_nil _
  | cons _ addrs ih =>
    simp only [checkExpired, bind_ok, failIf_ok, not_not, not_le] at hr
    obtain ⟨⟨⟩, -, ⟨⟩, ho, ⟨⟩, hp, hs⟩ := hr
    exact forall_mem_cons.mpr ⟨⟨ho, hp⟩, ih hs⟩

theorem validateExpired_ok (hv : ev.validate = true) (hr : ev.validateExpired = .ok ()) :
    ∀ a ∈ ev.block.expiredParticipationAccounts, (ev.state.lookup a).status = .online ∧
      (ev.state.lookup a).voteLastValid < ev.block.round := by
  rw [validateExpired, if_pos hv] at hr
  obtain ⟨⟨⟩, -, hc⟩ := bind_ok.mp hr
  exact checkExpired_ok _ hc

/-- The end of a block, step by step: the header is generated to `ev₁`, the expired accounts are taken
offline, the totals are computed. -/
theorem endOfBlock_ok (hr : ev.endOfBlock env = .ok ev') :
    ∃ ev₁ totals, ev.generateHeader env = .ok ev₁ ∧ ev₁.validateExpired = .ok () ∧
      checkWhen ev₁.validate (checkCommitments env { ev₁ with
        state := resetAccounts ev₁.block.expiredParticipationAccounts ev.state }) = .ok () ∧
      (resetAccounts ev₁.block.expiredParticipationAccounts ev.state).calculateTotals ev.ctx
        ev.prevTotals = .ok totals ∧
      ev' = { ev₁ with
        state := resetAccounts ev₁.block.expiredParticipationAccounts ev.state
        totals } := by
  simp only [endOfBlock, resetExpired, bind_ok, pure_ok] at hr
  obtain ⟨ev₁, hg, ⟨⟩, he, _, ⟨⟨⟩, -, rfl⟩, ⟨⟩, hh, totals, ht, rfl⟩ := hr
  have hf := generateHeader_frame hg
  have hs : ev₁.state = ev.state := by rw [hf]
  have hc : ev₁.ctx = ev.ctx := by rw [hf]
  have hp : ev₁.prevTotals = ev.prevTotals := by rw [hf]
  simp only [hs] at hh ht ⊢
  exact ⟨ev₁, totals, hg, he, hh, hc ▸ hp ▸ ht, rfl⟩

end BlockEvaluator

end Novarand.Ledger
