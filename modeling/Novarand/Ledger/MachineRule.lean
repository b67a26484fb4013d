import Novarand.Ledger.Calls
import Novarand.Ledger.Machine

/-!
# What the programs of a group keep

A rule for the counters that all programs of a group share. It asks what a single instruction does to
them (`Machine.Rule`), and gives what a group leaves, through programs, application calls and inner
transactions at any depth. A failed evaluation leaves counters as well: those of a clear state
program that failed are used on, while after any other failure the group is given up.
-/

namespace Novarand.Ledger

open List Apply

open Cow (Over Ready Evolves)

/-! ## How parameters change -/

variable {subtxns txs : List Transaction} {a : AppIndex}

namespace EvalParams

/-- Nothing changed but what is recorded about the transactions of the group. -/
structure Same (ep ep' : EvalParams) : Prop where
  proto : ep'.proto = ep.proto
  txns : ep'.txnGroup.map (·.txn) = ep.txnGroup.map (·.txn)
  budget : ep'.pooledApplicationBudget = ep.pooledApplicationBudget
  inners : ep'.pooledAllowedInners = ep.pooledAllowedInners
  credit : ep'.feeCredit = ep.feeCredit
  meter : ep'.meter = ep.meter

/-- The group is the same one, further on. -/
structure Grows (ep ep' : EvalParams) : Prop where
  proto : ep'.proto = ep.proto
  txns : ep'.txnGroup.map (·.txn) = ep.txnGroup.map (·.txn)
  spent : ep.meter.spent ≤ ep'.meter.spent

variable {ep ep' ep'' inner : EvalParams}

theorem Same.refl (ep : EvalParams) : ep.Same ep := ⟨rfl, rfl, rfl, rfl, rfl, rfl⟩

theorem Same.trans (h : ep.Same ep') (h' : ep'.Same ep'') : ep.Same ep'' where
  proto := h'.proto.trans h.proto
  txns := h'.txns.trans h.txns
  budget := h'.budget.trans h.budget
  inners := h'.inners.trans h.inners
  credit := h'.credit.trans h.credit
  meter := h'.meter.trans h.meter

theorem Same.grows (h : ep.Same ep') : ep.Grows ep' :=
  ⟨h.proto, h.txns, h.meter ▸ le_rfl⟩

theorem Grows.refl (ep : EvalParams) : ep.Grows ep := (Same.refl ep).grows

theorem Grows.trans (h : ep.Grows ep') (h' : ep'.Grows ep'') : ep.Grows ep'' where
  proto := h'.proto.trans h.proto
  txns := h'.txns.trans h.txns
  spent := h.spent.trans h'.spent

theorem txn_congr (h : ep'.txnGroup.map (·.txn) = ep.txnGroup.map (·.txn)) (gi : ℕ) :
    ep'.txn gi = ep.txn gi := by
  have he : ∀ ep : EvalParams, ep.txn gi = ((ep.txnGroup.map (·.txn))[gi]?).getD {} := by
    intro ep
    unfold txn entry
    rw [getElem?_map]
    cases ep.txnGroup[gi]? <;> rfl
  rw [he, he, h]

theorem isolated_congr (hp : ep'.proto = ep.proto)
    (ht : ep'.txnGroup.map (·.txn) = ep.txnGroup.map (·.txn)) (gi : ℕ) :
    ep'.Isolated gi ↔ ep.Isolated gi := by
  unfold Isolated
  rw [hp, txn_congr ht]

theorem Grows.isolated (h : ep.Grows ep') (gi : ℕ) : ep'.Isolated gi ↔ ep.Isolated gi :=
  isolated_congr h.proto h.txns gi

theorem Grows.txn (h : ep.Grows ep') (gi : ℕ) : ep'.txn gi = ep.txn gi := txn_congr h.txns gi

theorem same_modifyEntry (gi : ℕ) {f : GroupTxn → GroupTxn} (hf : ∀ t, (f t).txn = t.txn) :
    ep.Same (ep.modifyEntry gi f) := by
  refine ⟨rfl, ?_, rfl, rfl, rfl, rfl⟩
  apply ext_getElem?
  intro i
  simp only [modifyEntry, getElem?_map, getElem?_modify]
  cases ep.txnGroup[i]? with
  | none => split_ifs <;> rfl
  | some t => split_ifs <;> simp [hf]

theorem same_modifyDelta (gi : ℕ) (f : CallDelta → CallDelta) : ep.Same (ep.modifyDelta gi f) :=
  same_modifyEntry gi fun _ => rfl

theorem same_noteCreated (ad : ApplyData) : ep.Same (ep.noteCreated ad) := by
  unfold noteCreated
  split_ifs
  · exact .refl ep
  · exact ⟨rfl, rfl, rfl, rfl, rfl, rfl⟩

theorem grows_charge (cost : ℕ) : ep.Grows (ep.charge cost) :=
  ⟨rfl, rfl, Nat.le_add_right _ _⟩

theorem grows_resume (h : (ep.inner subtxns).Grows inner) : ep.Grows (ep.resume inner) :=
  ⟨rfl, rfl, h.spent⟩

end EvalParams

open EvalParams

variable {l : LedgerForLogic} {ctr i j : ℕ} {u : Unit}

namespace Machine

variable {m : Machine} {fuel₀ fuel : ℕ} {num : Prop} {ep ep' : EvalParams} {cx cx' : Context m.State}
  {x : BlockContext} {gi : ℕ} {α β : Type}

theorem same_recordAD (gi : ℕ) (ad : ApplyData) : ep.Same (m.recordAD ep gi ad) :=
  (same_modifyEntry gi (by exact fun _ => rfl)).trans (same_noteCreated ad)

theorem same_setAD (gi : ℕ) (ad : ApplyData) : ep.Same (setAD ep gi ad) :=
  same_modifyEntry gi (by exact fun _ => rfl)

/-- Nothing can be submitted when nothing was begun. -/
theorem opTxSubmit_nil (h : cx.subtxns = []) (ep : EvalParams) (l : LedgerForLogic) :
    ∃ e, m.opTxSubmit cx ep l = (ep, .error e) := by
  unfold opTxSubmit
  split_ifs <;> exact ⟨_, rfl⟩

section

variable (cx : Context m.State) (ep : EvalParams)

/-- A submission that is checked changes the credit only. -/
theorem opTxSubmit_credit (l : LedgerForLogic) :
    ∃ credit sat, (m.opTxSubmit cx ep l).1 = { ep with
      feeCredit := credit
      meter := { ep.meter with saturated := sat } } := by
  have hp : ∃ credit sat, (ep.payGroup cx.subtxns).1 = { ep with
      feeCredit := credit
      meter := { ep.meter with saturated := sat } } := by
    dsimp only [payGroup]
    split_ifs
    · exact ⟨ep.feeCredit, ep.meter.saturated, rfl⟩
    · exact ⟨_, ep.meter.saturated, rfl⟩
    · exact ⟨_, _, rfl⟩
  unfold opTxSubmit
  split_ifs
  · exact ⟨ep.feeCredit, ep.meter.saturated, rfl⟩
  · exact ⟨ep.feeCredit, ep.meter.saturated, rfl⟩
  · cases hd : ep.payGroup cx.subtxns with
    | mk _ res =>
      rw [hd] at hp
      cases res <;> exact hp

theorem grows_opTxSubmit (l : LedgerForLogic) : ep.Grows (m.opTxSubmit cx ep l).1 := by
  obtain ⟨_, _, h⟩ := opTxSubmit_credit cx ep l
  rw [h]
  exact ⟨rfl, rfl, le_rfl⟩

theorem length_groupSubtxns : (m.groupSubtxns cx ep).length = cx.subtxns.length := by
  unfold groupSubtxns
  split_ifs
  · exact length_map _
  · rfl

end

/-! ## The rule -/

/-- An invariant of the parameters: `Good` between programs, `Bad` after a failure, and `In` before an
instruction of a program, which may still execute that many. `num` stands for a ledger whose ids come
from its counter. -/
structure Rule (m : Machine) (fuel₀ : ℕ) (num : Prop) where
  Good : EvalParams → Prop
  Bad : EvalParams → Prop
  In : ℕ → Context m.State → EvalParams → Prop
  isolates : ∀ {ep}, Good ep → ep.proto.isolateClearState = true
  bad : ∀ {ep}, Good ep → Bad ep
  same : ∀ {ep ep'}, Good ep → ep.Same ep' → Good ep'
  enter : ∀ {ep gi aidx callers version state}, Good ep → (num → (aidx :: callers).Nodup) →
    callers.length ≤ maxAppCallDepth →
    ¬ (ep.Isolated gi ∧
      ∃ budget ∈ ep.pooledApplicationBudget, budget < ep.proto.maxAppProgramCost) →
    In fuel₀ { gi, appID := aidx, callers, version, state } (ep.enter (aidx :: callers))
  exit : ∀ {fuel cx ep}, In fuel cx ep → Good ep
  exhaust : ∀ {cx ep}, In 0 cx ep → Good ep.exhaust
  apart : ∀ {fuel cx ep}, In fuel cx ep → ep.Isolated cx.gi → cx.subtxns = []
  pay : ∀ {fuel cx ep cost}, In (fuel + 1) cx ep → 0 < cost →
    0 ≤ (cx.pay cost).remainingBudget (ep.charge cost) → In fuel (cx.pay cost) (ep.charge cost)
  step : ∀ {fuel cx cx' ep ep'}, In fuel cx ep → cx'.gi = cx.gi →
    cx'.cost = cx.cost → (cx'.subtxns = cx.subtxns ∨ ¬ ep.Isolated cx.gi) → ep.Same ep' →
    In fuel cx' ep'
  refuse : ∀ {fuel cx ep l ep' e}, In fuel cx ep → m.opTxSubmit cx ep l = (ep', .error e) → Bad ep'
  submit : ∀ {fuel cx ep l ep' u}, In fuel cx ep → m.opTxSubmit cx ep l = (ep', .ok u) →
    Good (ep'.inner (m.groupSubtxns cx ep'))
  resume : ∀ {fuel cx ep l ep' u s inner}, In fuel cx ep → m.opTxSubmit cx ep l = (ep', .ok u) →
    (ep'.inner (m.groupSubtxns cx ep')).Grows inner → Good inner →
    In fuel { cx with state := s, subtxns := [] } (ep'.resume inner)
  abandon : ∀ {fuel cx ep l ep' u inner}, In fuel cx ep → m.opTxSubmit cx ep l = (ep', .ok u) →
    (ep'.inner (m.groupSubtxns cx ep')).Grows inner → Bad inner → Bad (ep'.resume inner)

variable {r : Ran EvalParams α} {tx : Transaction}

namespace Rule

variable (R : m.Rule fuel₀ num)

/-- What an evaluation that started with `ep` leaves. -/
structure After (isolated : Prop) (ep : EvalParams) (r : Ran EvalParams α) : Prop where
  grows : ep.Grows r.1
  good : (isolated ∨ ∃ a, r.2 = .ok a) → R.Good r.1
  bad : R.Bad r.1

variable {R} {isolated : Prop}

theorem After.of_good (hr : ep.Grows ep') (hg : R.Good ep') (res : Except EvalError α) :
    R.After isolated ep (ep', res) := ⟨hr, fun _ => hg, R.bad hg⟩

theorem After.of_grows (hg : ep.Grows ep') (h : R.After isolated ep' r) :
    R.After isolated ep r := ⟨hg.trans h.grows, h.good, h.bad⟩

theorem After.bind {f : EvalParams → α → Ran EvalParams β} (h : R.After isolated ep r)
    (hf : ∀ ep' a, r = (ep', .ok a) → ep.Grows ep' → R.Good ep' → R.After isolated ep (f ep' a)) :
    R.After isolated ep (r.bind f) := by
  obtain ⟨ep', res⟩ := r
  cases res with
  | error e =>
    refine ⟨h.grows, ?_, h.bad⟩
    rintro (hi | ⟨_, ⟨⟩⟩)
    exact h.good (.inl hi)
  | ok a => exact hf ep' a rfl h.grows (h.good (.inr ⟨a, rfl⟩))

/-- The ledger of an evaluation where the applications `busy` are being called. -/
def Tracked (num : Prop) (busy : List AppIndex) (c : Cow) : Prop :=
  num → busy.Nodup ∧ ∃ p, Ready num busy p c

/-- The inner transactions of the applications `busy` keep the invariant. -/
def Keeps (R : m.Rule fuel₀ num) (x : BlockContext) (busy : List AppIndex)
    (perform : Performer EvalParams) : Prop :=
  SoundPerformer x num busy perform ∧
  ∀ i tx ep c, Tracked num busy c →
    (tx.IsCall → tx.applicationID ∉ busy ∧ busy.length ≤ maxAppCallDepth) →
    ep.txn i = tx → R.Good ep → R.After False ep (perform i tx ep c)

/-! ## Programs -/

variable {busy parents : List AppIndex} {perform : Performer EvalParams} {c : Cow}

theorem performGroup_after (hpe : R.Keeps x busy perform)
    (hl : ∀ tx ∈ txs, tx.IsCall → tx.applicationID ∉ busy ∧ busy.length ≤ maxAppCallDepth)
    (ht : ∀ j tx, txs[j]? = some tx → ep.txn (i + j) = tx) (hc : Tracked num busy c)
    (hg : R.Good ep) :
    R.After False ep (performGroup (m.avm fuel₀) perform i txs ep c) := by
  induction txs generalizing i ep c with
  | nil => exact .of_good (.refl ep) hg _
  | cons tx txs ih =>
    obtain ⟨ha, hl⟩ := forall_mem_cons.mp hl
    refine (hpe.2 i tx ep c hc ha (ht 0 tx rfl) hg).bind ?_
    rintro ep1 ⟨ad, c1⟩ ho h1 hd1
    have hr : ep1.Same ((setAD ep1 i ad).noteCreated ad) := (same_setAD i ad).trans (same_noteCreated ad)
    have hg1 := h1.trans hr.grows
    refine .of_grows hg1 (ih hl ?_ ?_ (R.same hd1 hr))
    · intro j tx' hj
      rw [hg1.txn, Nat.add_right_comm]
      exact ht (j + 1) tx' hj
    · intro hn
      obtain ⟨hu, p, hd⟩ := hc hn
      exact ⟨hu, p, hd.evolves (hpe.1 i tx ep c ep1 ad c1 p hd trivial (fun hy => (ha hy).1) ho)⟩

theorem checkReentrancy_call (h : checkReentrancy (a :: parents) tx = .ok u) (h1 : tx.IsCall) :
    tx.applicationID ∉ a :: parents ∧ (a :: parents).length ≤ maxAppCallDepth := by
  refine ⟨checkReentrancy_ok h h1, ?_⟩
  have ht : tx.type = .applicationCall := h1
  simp only [checkReentrancy, if_pos ht, bind_ok, failIf_ok] at h
  obtain ⟨⟨⟩, -, ⟨⟩, -, hl⟩ := h
  exact Nat.lt_of_not_le hl

theorem txn_inner (txs : List Transaction) (hj : txs[j]? = some tx) : (ep.inner txs).txn j = tx := by
  simp [txn, entry, EvalParams.inner, hj]

section Execute

variable {k : Context m.State → EvalParams → Script EvalParams}

/-- The rest of a program keeps the invariant, from any point it is continued at. -/
def Continues (R : m.Rule fuel₀ num) (x : BlockContext) (perform : Performer EvalParams)
    (parents : List AppIndex) (fuel : ℕ) (gi : ℕ) (aidx : AppIndex)
    (k : Context m.State → EvalParams → Script EvalParams) : Prop :=
  ∀ cx ep c, R.In fuel cx ep → cx.gi = gi → cx.appID = aidx → cx.callers = parents →
    Tracked num (aidx :: parents) c →
    R.After (ep.Isolated gi) ep (runScript (m.avm fuel₀) x perform aidx (k cx ep) c)

section

variable (hk : R.Continues x perform cx.callers fuel cx.gi cx.appID k)
  (hc : Tracked num (cx.appID :: cx.callers) c)
include hk hc

theorem Continues.after (hin : R.In fuel cx' ep') (hi : cx'.gi = cx.gi)
    (ha : cx'.appID = cx.appID) (hs : cx'.callers = cx.callers) (hg : ep.Grows ep') :
    R.After (ep.Isolated cx.gi) ep (runScript (m.avm fuel₀) x perform cx.appID (k cx' ep') c) := by
  have h := hk cx' ep' c hin hi ha hs hc
  rw [hg.isolated] at h
  exact h.of_grows hg

theorem Continues.write (hin : R.In fuel cx ep) (hs : ep.Same ep') (s : m.State) (w : LedgerWrite) :
    R.After (ep.Isolated cx.gi) ep
      (runScript (m.avm fuel₀) x perform cx.appID
        (.write w (fun _ => ep') (k { cx with state := s } ep')) c) := by
  have hi' : R.In fuel { cx with state := s } ep' := R.step hin rfl rfl (.inl rfl) hs
  simp only [runScript]
  cases hw : w.run x cx.appID c with
  | error e => exact .of_good hs.grows (R.exit hi') _
  | ok c1 =>
    refine hk.after ?_ hi' rfl rfl rfl hs.grows
    intro hn
    obtain ⟨hu, p, hr⟩ := hc hn
    have he : Evolves x num (cx.appID :: cx.callers) p c c1 := hr.evolves_write hw
    exact ⟨hu, p, hr.evolves he⟩

end

section

variable (hk : R.Continues x perform cx.callers fuel cx.gi cx.appID k)
  (hpe : R.Keeps x (cx.appID :: cx.callers) perform)
  (hc : Tracked num (cx.appID :: cx.callers) c) (hin : R.In fuel cx ep)
include hk hpe hc hin

/-- `itxn_submit`, whose inner transactions run with parameters of their own. -/
theorem Continues.submit (hs : m.opTxSubmit cx ep l = (ep', .ok u)) (s : m.State) :
    R.After (ep.Isolated cx.gi) ep
      (runScript (m.avm fuel₀) x perform cx.appID
        (.submit (m.groupSubtxns cx ep') (ep'.inner (m.groupSubtxns cx ep'))
          (fun _ inner => ep'.resume inner)
          fun inner => k { cx with state := s, subtxns := [] } (ep'.finishSubmit cx.gi inner)) c) := by
  have hg : ep.Grows ep' := by
    have h := grows_opTxSubmit cx ep l
    rwa [hs] at h
  -- a clear state program has begun nothing that it could submit
  have h1 : ¬ ep.Isolated cx.gi := by
    intro h1
    obtain ⟨e, he⟩ := opTxSubmit_nil (R.apart hin h1) ep l
    rw [hs] at he
    cases he
  have hd := R.submit hin hs
  have hf : ∀ (inner : EvalParams) (e : EvalError),
      (ep'.inner (m.groupSubtxns cx ep')).Grows inner → R.Bad inner →
      R.After (ep.Isolated cx.gi) ep ((ep'.resume inner, .error e) : Ran EvalParams (Bool × Cow)) := by
    intro inner e hi hb
    refine ⟨hg.trans (grows_resume hi), ?_, R.abandon hin hs hi hb⟩
    rintro (h | ⟨_, ⟨⟩⟩)
    exact absurd h h1
  simp only [runScript]
  have hl : ∀ tx ∈ m.groupSubtxns cx ep', tx.IsCall → tx.applicationID ∉ cx.appID :: cx.callers ∧
      (cx.appID :: cx.callers).length ≤ maxAppCallDepth :=
    fun tx ht h2 => checkReentrancy_call (submitted_checked hs ht).2 h2
  have ha := performGroup_after (i := 0) hpe hl
    (fun j tx hj => by rw [Nat.zero_add]; exact txn_inner _ hj) hc hd
  cases hp : performGroup (m.avm fuel₀) perform 0 (m.groupSubtxns cx ep')
      (ep'.inner (m.groupSubtxns cx ep')) c with
  | mk inner res =>
    rw [hp] at ha
    cases res with
    | error e => exact hf inner e ha.grows ha.bad
    | ok c1 =>
      have hm : (ep'.resume inner).Same (ep'.finishSubmit cx.gi inner) :=
        same_modifyDelta _ _
      refine hk.after ?_
        (R.step (R.resume hin hs ha.grows (ha.good (.inr ⟨c1, rfl⟩)))
          rfl rfl (.inl rfl) hm) rfl rfl rfl
        (hg.trans ((grows_resume ha.grows).trans hm.grows))
      intro hn
      obtain ⟨hu, p, hr⟩ := hc hn
      exact ⟨hu, p, hr.evolves (performGroup_evolves hpe.1 (fun _ _ => trivial)
        (fun tx ht hy => (hl tx ht hy).1) hr hp)⟩

/-- An instruction that is paid. -/
theorem Continues.execute (effect : Effect m.State) :
    R.After (ep.Isolated cx.gi) ep
      (runScript (m.avm fuel₀) x perform cx.appID (m.execute k cx ep effect) c) := by
  have ht : ∀ {α : Type} {r : Except EvalError α} {f : α → Script EvalParams},
      (∀ a, r = .ok a → R.After (ep.Isolated cx.gi) ep
        (runScript (m.avm fuel₀) x perform cx.appID (f a) c)) →
      R.After (ep.Isolated cx.gi) ep
        (runScript (m.avm fuel₀) x perform cx.appID (attempt ep r f) c) := by
    intro α r f hf
    cases r with
    | error e => exact .of_good (.refl ep) (R.exit hin) _
    | ok a => exact hf a rfl
  have hg : ∀ s : m.State, R.In fuel { cx with state := s } ep :=
    fun s => R.step hin rfl rfl (.inl rfl) (.refl ep)
  -- only a program that is not isolated builds transactions
  have hb : ∀ (s : m.State) subtxns, ¬ ep.Isolated cx.gi →
      R.After (ep.Isolated cx.gi) ep
        (runScript (m.avm fuel₀) x perform cx.appID (k { cx with state := s, subtxns } ep) c) :=
    fun s _ hi => hk.after hc (R.step hin rfl rfl (.inr hi) (.refl ep)) rfl rfl rfl (.refl ep)
  have h1 : cx.subtxns ≠ [] → ¬ ep.Isolated cx.gi := fun hne hi => hne (R.apart hin hi)
  cases effect with
  | next s => exact hk.after hc (hg s) rfl rfl rfl (.refl ep)
  | read f => exact ht fun s _ => hk.after hc (hg s) rfl rfl rfl (.refl ep)
  | localPut ac key vl s =>
    refine ht fun a ho => hk.write hc hin ?_ s a.1
    simp only [opAppLocalPut, bind_ok, pure_ok] at ho
    obtain ⟨_, -, _, -, rfl⟩ := ho
    dsimp only
    split_ifs
    · exact .refl ep
    · exact same_modifyDelta _ _
  | localDel ac key s =>
    refine ht fun a ho => hk.write hc hin ?_ s a.1
    simp only [opAppLocalDel, bind_ok, pure_ok] at ho
    obtain ⟨_, -, rfl⟩ := ho
    dsimp only
    split
    · exact same_modifyDelta _ _
    · exact .refl ep
  | globalPut key vl s =>
    refine ht fun a ho => hk.write hc hin ?_ s a.1
    simp only [opAppGlobalPut, bind_ok, pure_ok] at ho
    obtain ⟨_, -, rfl⟩ := ho
    dsimp only
    split_ifs
    · exact .refl ep
    · exact same_modifyDelta _ _
  | globalDel key s =>
    refine hk.write hc hin ?_ s _
    split
    · exact same_modifyDelta _ _
    · exact .refl ep
  | log bt s =>
    refine ht fun a ho => ?_
    simp only [opLog, bind_ok, pure_ok] at ho
    obtain ⟨_, -, _, -, rfl⟩ := ho
    have hm : ep.Same (ep.modifyDelta cx.gi (·.addLog bt)) :=
      same_modifyDelta _ _
    exact hk.after hc (R.step hin rfl rfl (.inl rfl) hm) rfl rfl rfl hm.grows
  | txBegin s =>
    refine ht fun subtxns ho => ?_
    simp only [opTxBegin, bind_ok, failIf_ok] at ho
    obtain ⟨⟨⟩, -, ⟨⟩, hi, -⟩ := ho
    exact hb s subtxns hi
  | txNext s =>
    refine ht fun subtxns ho => ?_
    simp only [opTxNext, bind_ok, failIf_ok] at ho
    obtain ⟨⟨⟩, hne, -⟩ := ho
    exact hb s subtxns (h1 hne)
  | txField _ s =>
    refine ht fun subtxns ho => ?_
    have hne : cx.subtxns ≠ [] := by
      intro hn
      simp only [opTxField, hn] at ho
      cases ho
    exact hb s subtxns (h1 hne)
  | txSubmit s =>
    simp only [Machine.execute, runScript]
    split
    · rename_i ep1 e hs
      have hr := grows_opTxSubmit cx ep (c.logicLedger x)
      rw [hs] at hr
      refine ⟨hr, ?_, R.refuse hin hs⟩
      rintro (hi | ⟨_, ⟨⟩⟩)
      obtain ⟨_, he⟩ := opTxSubmit_nil (R.apart hin hi) ep (c.logicLedger x)
      rw [hs] at he
      cases he
      exact R.exit hin
    · rename_i ep1 u hs
      exact hk.submit hpe hc hin hs s

end

end Execute

section

variable {parents : List AppIndex} {aidx : AppIndex} (hpe : R.Keeps x (aidx :: parents) perform)
include hpe

/-- A program that is under way, by induction on the instructions it may still execute. -/
theorem script_after (fuel : ℕ) : R.Continues x perform parents fuel gi aidx (m.script fuel) := by
  induction fuel with
  | zero =>
    rintro cx ep c hin rfl rfl rfl hc
    have hg : ep.Grows ep.exhaust := ⟨rfl, rfl, le_rfl⟩
    exact .of_good hg (R.exhaust hin) _
  | succ fuel ih =>
    rintro cx ep c hin rfl rfl rfl hc
    simp only [script]
    split
    · rename_i passed hf
      cases passed <;> exact .of_good (.refl ep) (R.exit hin) _
    · rename_i cost hp effect hf
      split_ifs with hb
      · exact .of_good (.refl ep) (R.exit hin) _
      · have hg : ep.Grows (ep.charge cost) := grows_charge cost
        have hi' := R.pay hin hp (not_lt.mp hb)
        have hk : R.Continues x perform (cx.pay cost).callers fuel (cx.pay cost).gi
            (cx.pay cost).appID (m.script fuel) := ih
        have h := hk.execute hpe hc hi' effect
        exact .of_grows hg h

theorem evalContract_after (hg : R.Good ep) (hl : parents.length ≤ maxAppCallDepth)
    (hc : Tracked num (aidx :: parents) c) (program : Bytes) (gi : ℕ) :
    R.After (ep.Isolated gi) ep (runScript (m.avm fuel₀) x perform aidx
      (m.evalContract fuel₀ program gi aidx parents ep) c) := by
  unfold evalContract
  split_ifs with hz hb
  · exact .of_good (.refl ep) hg _
  · exact .of_good (.refl ep) hg _
  · split
    · exact .of_good (.refl ep) hg _
    · rename_i version state ht
      have he : ep.Grows (ep.enter (aidx :: parents)) := ⟨rfl, rfl, le_rfl⟩
      have hs : (ep.enter (aidx :: parents)).Same
          ((ep.enter (aidx :: parents)).modifyDelta gi .clearKeys) := same_modifyDelta _ _
      have hr := he.trans hs.grows
      have hin : R.In fuel₀ { gi, appID := aidx, callers := parents, version, state }
          (ep.enter (aidx :: parents)) := R.enter hg (fun hn => (hc hn).1) hl hb
      have hi' := R.step hin rfl rfl (.inl rfl) hs
      have h := script_after hpe fuel₀ _ _ c hi' rfl rfl rfl hc
      rw [hr.isolated] at h
      exact h.of_grows hr

end

/-! ## Application calls -/

/-- The programs of calls, at the index `gi`, keep the invariant. -/
def Evaluates (R : m.Rule fuel₀ num) (callers : List AppIndex) (gi : ℕ)
    (eval : Evaluator EvalParams) : Prop :=
  ∀ aidx program ep c, R.Good ep → (num → (aidx :: callers).Nodup) →
    (num → ∃ p, Ready num callers p c ∧ (aidx ≤ c.view.counter ∨ aidx ∈ c.view.assigned)) →
    R.After (ep.Isolated gi) ep (eval aidx program ep c)

variable {callers : List AppIndex}

theorem statefulEval_after {perform : AppIndex → Performer EvalParams}
    (hpe : ∀ aidx, R.Keeps x (aidx :: callers) (perform aidx))
    (hl : callers.length ≤ maxAppCallDepth) (gi : ℕ) (tx : Transaction) :
    R.Evaluates callers gi fun aidx =>
      statefulEval (m.avm fuel₀) x (perform aidx) callers gi tx aidx := by
  intro aidx pr ep c hg he hc
  have hh : Tracked num (aidx :: callers) c.child := by
    intro hn
    obtain ⟨p, hd, h1⟩ := hc hn
    exact ⟨he hn, c, hd.child fun hn => forall_mem_cons.mpr ⟨h1, hd.known hn⟩⟩
  have h : R.After (ep.Isolated gi) ep (runScript (m.avm fuel₀) x (perform aidx) aidx
      ((m.avm fuel₀).evalContract pr gi aidx callers ep) c.child) :=
    evalContract_after (hpe aidx) hg hl hh pr gi
  simp only [statefulEval]
  split
  · rename_i ep1 e hr
    rw [hr] at h
    refine ⟨h.grows, ?_, h.bad⟩
    rintro (hi | ⟨_, ⟨⟩⟩)
    exact h.good (.inl hi)
  · rename_i ep1 c1 hr
    rw [hr] at h
    exact .of_good h.grows (h.good (.inr ⟨_, rfl⟩)) _
  · rename_i ep1 calf hr
    rw [hr] at h
    exact .of_good h.grows (h.good (.inr ⟨_, rfl⟩)) _

variable {eval : Evaluator EvalParams} {tx : Transaction} {appIdx : AppIndex} {ad : ApplyData}

/-- A clear state program that fails leaves good parameters, and the evaluation goes on with them. -/
theorem clearState_after (he : R.Evaluates callers gi eval) (hg : R.Good ep)
    (ht : ep.txn gi = tx) (hl : tx.onCompletion = .clearState)
    (hne : num → (appIdx :: callers).Nodup) {app : Option (AppParams × Address)}
    (hc : num → ∃ p, Ready num callers p c ∧
      ∀ params creator, app = some (params, creator) → c.view.HasApp appIdx creator) :
    R.After False ep (clearState eval tx appIdx (app.map (·.1)) ad ep c) := by
  have hi : ep.Isolated gi := ⟨R.isolates hg, ht ▸ hl⟩
  unfold clearState
  split_ifs
  · exact .of_good (.refl ep) hg _
  · cases app with
    | none => exact .of_good (.refl ep) hg _
    | some pc =>
      obtain ⟨params, creator⟩ := pc
      have h := he appIdx params.clearStateProgram ep c hg hne (by
        intro hn
        obtain ⟨p, hd, ha⟩ := hc hn
        exact ⟨p, hd, (ha params creator rfl).known (hd.numbered hn)⟩)
      have hg' := h.good (.inl hi)
      simp only [Option.map_some]
      split
      · rename_i ep1 evalDelta c1 hr
        rw [hr] at h hg'
        exact .of_good h.grows hg' _
      · rename_i ep1 hr
        rw [hr] at h hg'
        exact .of_good h.grows hg' _
      · rename_i ep1 e hr
        rw [hr] at h hg'
        split_ifs <;> exact .of_good h.grows hg' _

theorem approve_after (hl : R.Evaluates callers gi eval) (hg : R.Good ep)
    (hne : num → (appIdx :: callers).Nodup) {params : AppParams}
    {creator : Address} (hc : num → ∃ p, Ready num callers p c ∧ c.view.HasApp appIdx creator) :
    R.After False ep (approve x eval tx appIdx params creator ad ep c) := by
  unfold approve
  cases ho : optInFirst x tx appIdx params c with
  | error e => exact .of_good (.refl ep) hg _
  | ok c1 =>
    have h := hl appIdx params.approvalProgram ep c1 hg hne (by
      intro hn
      obtain ⟨p, hr, ha⟩ := hc hn
      have he : Evolves x num (appIdx :: callers) p c c1 := evolves_optInFirst hr.toOver ho
      have ha1 := ha.steps (hr.numbered hn) mem_cons_self hn he.steps
      have hr1 := hr.evolves he
      exact ⟨p, hr1, ha1.known (hr1.numbered hn)⟩)
    have h' : R.After False ep (eval appIdx params.approvalProgram ep c1) :=
      ⟨h.grows, fun hok => h.good (.inr (hok.resolve_left not_false)), h.bad⟩
    refine h'.bind ?_
    intro _ ps _ h1 hg1
    cases ps <;> exact .of_good h1 hg1 _

theorem applicationCall_after (he : R.Evaluates callers gi eval)
    {sync : ApplyData → EvalParams → EvalParams} (hy : ∀ ad (ep : EvalParams), ep.Same (sync ad ep))
    (hg : R.Good ep) (ht : ep.txn gi = tx)
    (hx : tx.applicationID ∉ callers) (h2 : num → ctr = c.txnCounter)
    (hc : num → callers.Nodup ∧ ∃ p, Ready num callers p c ∧ c.view.Settled) :
    R.After False ep (applicationCall (m.avm fuel₀) x eval sync tx ad ep ctr c) := by
  unfold applicationCall
  cases h1 : prepareCall (m.avm fuel₀) x tx ad ep ctr c with
  | error e => exact .of_good (.refl ep) hg _
  | ok res =>
    obtain ⟨ai, app, ad1, c1⟩ := res
    have hp : num → (ai :: callers).Nodup ∧ ∃ p, Ready num callers p c1 ∧
        ∀ pr creator, app = some (pr, creator) → c1.view.HasApp ai creator := by
      intro hn
      obtain ⟨hu, p, hr, hs⟩ := hc hn
      rw [h2 hn] at h1
      obtain ⟨hv, hb, ha⟩ := prepareCall_ok hr hs hx h1
      exact ⟨nodup_cons.mpr ⟨hb hn, hu⟩, p, hr.evolves hv, ha⟩
    have hm := hy ad1 ep
    have hg' := R.same hg hm
    split_ifs with hl
    · exact .of_grows hm.grows (clearState_after he hg'
        ((hm.grows.txn gi).trans ht) hl (fun hn => (hp hn).1)
        fun hn => (hp hn).2)
    · cases app with
      | none => exact .of_good (.refl ep) hg _
      | some pc =>
        obtain ⟨pr, creator⟩ := pc
        refine .of_grows hm.grows (approve_after he hg' (fun hn => (hp hn).1) fun hn => ?_)
        obtain ⟨-, p, hr, ha⟩ := hp hn
        exact ⟨p, hr, ha pr creator rfl⟩

/-! ## Inner transactions -/

theorem performWith_after
    {call : ℕ → Transaction → ApplyData → EvalParams → Cow → Ran EvalParams (ApplyData × Cow)}
    (ha : ∀ gi tx ad ep c, tx.applicationID ∉ busy → busy.length ≤ maxAppCallDepth →
      ep.txn gi = tx → R.Good ep →
      (num → busy.Nodup ∧ ∃ p, Ready num busy p c ∧ c.view.Settled) →
      R.After False ep (call gi tx ad ep c))
    (h1 : SoundPerformer x num busy (performWith x call)) :
    R.Keeps x busy (performWith x call) := by
  refine ⟨h1, ?_⟩
  intro i tx ep c hc h2 ht hg
  unfold performWith
  cases h3 : startInner x tx c with
  | error e => exact .of_good (.refl ep) hg _
  | ok res =>
    obtain ⟨ad, c1⟩ := res
    simp only
    unfold applyInner
    split
    case h_6 hy =>
      obtain ⟨hb, hl⟩ := h2 hy
      refine ha i tx ad ep c1 hb hl ht hg ?_
      intro hn
      obtain ⟨hu, p, hr⟩ := hc hn
      obtain ⟨he, hs, -⟩ := startInner_ok hr trivial h3
      exact ⟨hu, p, hr.evolves he, hs⟩
    all_goals exact .of_good (.refl ep) hg _

/-- By induction on the depth: inner calls keep the invariant for the longer chain. -/
theorem perform_after (R : m.Rule fuel₀ num) (depth : ℕ) (callers : List AppIndex) :
    R.Keeps x callers (Ledger.perform (m.avm fuel₀) x depth callers) := by
  induction depth generalizing callers with
  | zero =>
    refine performWith_after ?_ (perform_sound_any (m.avm fuel₀) 0 callers)
    intro gi tx ad ep c _ _ _ hg _
    exact .of_good (.refl ep) hg _
  | succ depth ih =>
    refine performWith_after ?_ (perform_sound_any _ (depth + 1) callers)
    intro gi tx ad ep c hb hl ht hg hc
    exact applicationCall_after (statefulEval_after (fun ai => ih (ai :: callers)) hl gi tx)
      (fun ad _ => same_setAD gi ad) hg ht hb (fun _ => rfl) hc

theorem outerCall_after (R : m.Rule fuel₀ num) (hg : R.Good ep)
    (ht : ep.txn gi = tx) (h1 : num → ctr = c.txnCounter)
    (hc : num → ∃ p, Ready num [] p c ∧ c.view.Settled) :
    R.After False ep (outerCall (m.avm fuel₀) x gi tx ad ep ctr c) :=
  applicationCall_after
    (statefulEval_after (fun aidx => perform_after R maxAppCallDepth [aidx]) (Nat.zero_le _) gi tx)
    (fun _ => .refl) hg ht not_mem_nil h1 fun hn => ⟨nodup_nil, hc hn⟩

end Rule

end Machine

end Novarand.Ledger
