import Novarand.Ledger.GroupParams

/-!
# Who authorizes inner transactions

`itxn_submit` checks that the application is the authorizer of the sender of each inner transaction,
before it performs the first of them. A transaction of the group may rekey or close the account of a
later sender, and that is not checked again (`rekeyed_sender_applied`).

Nothing else can take a sender away: a call nested in the group runs programs of other applications,
whose submissions are checked against their own addresses. So if no transaction of the group takes the
account of a later sender, all are applied under the authority of the application.
-/

namespace Novarand.Ledger

open List Function World

open Cow (Ready Evolves)

/-! ## Submissions -/

/-- A group of inner transactions that is performed: the parameters and the state it starts with. -/
structure Submission (P : Type) where
  subtxns : List Transaction
  inner : P
  cow : Cow

section Submissions

variable {P : Type} (avm : Avm P) (x : BlockContext) (perform : Performer P)

/-- The submissions of a program, in the order they are made. -/
def submissions (aidx : AppIndex) : Script P → Cow → List (Submission P)
  | .ret _ _, _ => []
  | .read k, c => submissions aidx (k (c.logicLedger x)) c
  | .write w _ k, c =>
    match w.run x aidx c with
    | .error _ => []
    | .ok c => submissions aidx k c
  | .submit subtxns inner _ k, c =>
    { subtxns, inner, cow := c } ::
      match performGroup avm perform 0 subtxns inner c with
      | (_, .error _) => []
      | (ep, .ok c) => submissions aidx (k ep) c

/-- The transactions of a submission that come to be applied, each with the state just before. -/
def applications : ℕ → List Transaction → P → Cow → List (Transaction × Cow)
  | _, [], _, _ => []
  | i, tx :: txs, ep, c =>
    (tx, c) ::
      match perform i tx ep c with
      | (_, .error _) => []
      | (ep, .ok (ad, c)) => applications (i + 1) txs (avm.recordInner ep i ad) c

variable {avm x perform} {callers : List AppIndex} {a aidx : AppIndex} {p c : Cow}

/-- A submission starts in a state of the evaluation, and calls no application of the chain. -/
theorem mem_submissions {script : Script P} {q : Cow → List Transaction → Prop}
    (hp : SoundPerformer x True (a :: callers) perform) (h : Ready True (a :: callers) p c)
    (hq : script.Always x (fun _ => True) q c) (hk : script.Checked (a :: callers) x c)
    {s : Submission P} (hs : s ∈ submissions avm x perform aidx script c) :
    Ready True (a :: callers) p s.cow ∧ q s.cow s.subtxns ∧
      ∀ tx ∈ s.subtxns, tx.type = .applicationCall → tx.applicationID ∉ a :: callers := by
  induction script generalizing c with
  | ret => cases hs
  | read k ih => exact ih _ h hq hk hs
  | write w _ k ih =>
    simp only [submissions] at hs
    cases hw : w.run x aidx c with
    | error e =>
      rw [hw] at hs
      cases hs
    | ok c1 =>
      rw [hw] at hs
      have he : Evolves x True (a :: callers) p c c1 := h.evolves_write hw
      exact ih (h.evolves he) (hq _ trivial) (hk _ trivial) hs
  | submit txs ie _ k ih =>
    simp only [submissions] at hs
    have ht : ∀ tx ∈ txs, tx.type = .applicationCall → tx.applicationID ∉ a :: callers :=
      fun tx hx => checkReentrancy_ok (hk.1 tx hx)
    rcases mem_cons.mp hs with rfl | hs
    · exact ⟨h, hq.1, ht⟩
    · cases hg : performGroup avm perform 0 txs ie c with
      | mk ep res =>
        cases res with
        | error e =>
          simp only [hg] at hs
          cases hs
        | ok c1 =>
          simp only [hg] at hs
          have he := performGroup_evolves hp (fun _ _ => trivial) ht h hg
          exact ih ep (h.evolves he) (hq.2 _ _ trivial) (hk.2 _ _ trivial) hs

end Submissions

/-! ## The authorizer of a sender -/

/-- The transaction takes the account `s` away from `owner`: it rekeys the account to another address,
or closes it. -/
def Transaction.Takes (s owner : Address) (tx : Transaction) : Prop :=
  tx.sender = s ∧ (tx.rekeyTo ≠ 0 ∧ tx.rekeyTo ≠ owner ∨ tx.closeRemainderTo ≠ 0 ∧ s ≠ owner)

instance (s owner : Address) : DecidablePred (Transaction.Takes s owner) :=
  fun _ => inferInstanceAs (Decidable (_ ∧ _))

def World.authorizer (w : World) (s : Address) : Address :=
  if (w.account s).authAddr = 0 then s else (w.account s).authAddr

/-- Evaluations in which nothing takes the account `s` from `owner`. -/
def held (s owner : Address) : Terms where
  ids := True
  applied tx := ¬ tx.Takes s owner
  inv w := w.authorizer s = owner

theorem Apply.registered_authAddr {x : BlockContext} {tx : Transaction} {u v : AccountData}
    (h : registered x tx u = .ok v) : v.authAddr = u.authAddr := by
  unfold registered at h
  by_cases hz : tx.votePK = 0 ∨ tx.selectionPK = 0
  · by_cases hn : tx.nonparticipation
    · simp only [if_pos hz, if_pos hn, bind_ok, pure_ok] at h
      obtain ⟨⟨⟩, -, rfl⟩ := h
      rfl
    · simp only [if_pos hz, if_neg hn, pure_ok] at h
      rw [← h]
  · simp only [if_neg hz, bind_ok, pure_ok] at h
    obtain ⟨⟨⟩, -, ⟨⟩, -, rfl⟩ := h
    rfl

instance (s owner : Address) (x : BlockContext) : (held s owner).Kept x where
  step {busy w w'} hs hi := by
    -- the transactions of other accounts leave the authorizer of `s` alone
    have ho : ∀ {a : Address} {u : AccountData}, a ≠ s → (w.put a u).authorizer s = owner := by
      intro a u ha
      unfold World.authorizer
      rw [put_account, if_neg ha.symm]
      exact hi
    rcases hs.credentials with ⟨tx, u, ht, hu, rfl⟩ | ⟨tx, ht, hc, rfl⟩ | h
    · by_cases ha : tx.sender = s
      · show World.authorizer _ _ = _
        unfold World.authorizer
        rw [put_account, if_pos ha.symm]
        rcases hu with ⟨h0, rfl⟩ | ⟨-, -, hr⟩
        · have hw : tx.rekeyTo = owner := by
            by_contra hw
            exact ht ⟨ha, .inl ⟨h0, hw⟩⟩
          grind
        · rw [Apply.registered_authAddr hr, ha]
          exact hi
      · exact ho ha
    · by_cases ha : tx.sender = s
      · have hw : s = owner := by
          by_contra hw
          exact ht ⟨ha, .inr ⟨hc, hw⟩⟩
        show World.authorizer _ _ = _
        unfold World.authorizer
        rw [put_account, if_pos ha.symm]
        exact hw
      · exact ho ha
    · have hu : (w'.account s).authAddr = (w.account s).authAddr := congrArg Prod.fst (h s)
      show World.authorizer _ _ = _
      unfold World.authorizer
      rw [hu]
      exact hi

/-- The transactions of a group, one after the other. -/
theorem applications_authorized {P : Type} {avm : Avm P} {x : BlockContext} {perform : Performer P}
    {busy : List AppIndex} {owner : Address} {i : ℕ} {txs : List Transaction} {ep : P} {p c : Cow}
    (hp : SoundPerformer x True busy perform)
    (hp' : ∀ s, SoundPerformer x (held s owner) busy perform)
    (h : Ready True busy p c) (hb : ∀ tx ∈ txs, tx.type = .applicationCall → tx.applicationID ∉ busy)
    (ht : txs.Pairwise fun e tx => ¬ e.Takes tx.sender owner)
    (ha : ∀ tx ∈ txs, c.view.authorizer tx.sender = owner) :
    ∀ a ∈ applications avm perform i txs ep c, a.2.view.authorizer a.1.sender = owner := by
  induction txs generalizing i ep c with
  | nil =>
    intro a hm
    cases hm
  | cons tx txs ih =>
    intro a hm
    rcases mem_cons.mp hm with rfl | hm
    · exact ha _ mem_cons_self
    · split at hm
      · cases hm
      · rename_i ep1 ad c1 hr
        obtain ⟨hb1, hb⟩ := forall_mem_cons.mp hb
        obtain ⟨ht1, ht⟩ := pairwise_cons.mp ht
        have he := hp i tx ep c ep1 ad c1 p h trivial hb1 hr
        refine ih (h.evolves he) hb ht (fun tx2 h2 => ?_) a hm
        -- the first transaction and the calls nested in it leave the account of a later sender
        have hd : Ready (held tx2.sender owner) busy p c :=
          ⟨h.toOver, h.ahead, h.numbered, h.known, ha tx2 (mem_cons_of_mem _ h2)⟩
        exact (hd.evolves (hp' _ i tx ep c ep1 ad c1 p hd (ht1 tx2 h2) hb1 hr)).inv

/-! ## The programs of a machine -/

namespace Machine

variable {m : Machine} {x : BlockContext} {fuel gi : ℕ} {cx : Context m.State}
  {ep ep' : EvalParams} {c : Cow} {aidx : AppIndex}

/-- At a submission, the application authorizes all senders. -/
theorem authorized_of_opTxSubmit {u : Unit} (hs : m.opTxSubmit cx ep (c.logicLedger x) = (ep', .ok u)) :
    ∀ tx ∈ m.groupSubtxns cx ep', c.view.authorizer tx.sender = m.appAddress cx.appID := by
  intro tx ht
  obtain ⟨ha, -⟩ := submitted_checked hs ht
  simp only [authorizedSender, failIf_ok, not_not] at ha
  exact ha.symm

/-- The programs of other applications leave the accounts that `aidx` authorizes for. -/
theorem submits_held (hm : Injective m.appAddress) (s : Address) :
    (m.avm fuel).Submits x (held s (m.appAddress aidx)) [aidx] := by
  intro program gi aidx' callers ep c hb hi
  refine evalContract_always (fun cx ep ep' u c ha _ hi hs tx ht hk => ?_) hi fuel program gi
  have ho := authorized_of_opTxSubmit hs tx ht
  rw [hk.1, ha] at ho
  exact hb trivial (mem_singleton.mpr (hm (ho.symm.trans hi)))

/-- An application call runs a program for `aidx`. If no transaction of a submission takes the account of
a later sender from the application, they are all applied under its authority, in the state just
before each. -/
theorem inner_authorized (m : Machine) (hm : Injective m.appAddress) (fuel : ℕ) (x : BlockContext)
    (depth : ℕ) (callers : List AppIndex) (program : Bytes) (gi : ℕ) (aidx : AppIndex)
    (ep : EvalParams) (p c : Cow) (h : Ready True (aidx :: callers) p c) :
    ∀ s ∈ submissions (m.avm fuel) x (Ledger.perform (m.avm fuel) x depth (aidx :: callers))
        aidx (m.evalContract fuel program gi aidx callers ep) c,
      (s.subtxns.Pairwise fun e tx => ¬ e.Takes tx.sender (m.appAddress aidx)) →
      ∀ a ∈ applications (m.avm fuel) (Ledger.perform (m.avm fuel) x depth (aidx :: callers)) 0
          s.subtxns s.inner s.cow,
        (a.2.logicLedger x).authorizer a.1.sender = m.appAddress aidx := by
  intro s hs ht
  have hp : SoundPerformer x True _ (Ledger.perform (m.avm fuel) x depth (aidx :: callers)) :=
    perform_sound_any _ depth _
  have hq : (m.evalContract fuel program gi aidx callers ep).Always x (fun _ => True)
      (fun c txs => ∀ tx ∈ txs, c.view.authorizer tx.sender = m.appAddress aidx) c := by
    refine evalContract_always (fun cx ep ep' u c ha _ _ hs => ?_) trivial fuel program gi
    rw [← ha]
    exact authorized_of_opTxSubmit hs
  obtain ⟨hd, ha, hb⟩ := mem_submissions hp h hq ((m.avm fuel).checked ..) hs
  exact applications_authorized hp
    (fun s => perform_sound (submits_held hm s) depth _ (cons_subset_cons _ (nil_subset _))) hd hb ht ha

end Machine

namespace Sample

/-- The application pays a coin twice, and with the first payment gives its account to 1. -/
def rekeying : Bytes := [2, 4, 6, 3, 4, 5]

variable (ev : BlockEvaluator)

/-- The submissions of the program, run as a call of the application 11. -/
def submitted (program : Bytes) : List (Submission EvalParams) :=
  submissions (machine.avm 9) ev.ctx (perform (machine.avm 9) ev.ctx maxAppCallDepth [11]) 11
    (machine.evalContract 9 program 0 11 []
      (EvalParams.new ((creates program).map (·.signedTxn)) ev.ctx.proto {})) ev.state.child

def applied (s : Submission EvalParams) : List (Transaction × Cow) :=
  applications (machine.avm 9) (perform (machine.avm 9) ev.ctx maxAppCallDepth [11]) 0 s.subtxns
    s.inner s.cow

/-- The authorizers of the senders, just before each transaction. -/
def authorizers (s : Submission EvalParams) : List Address :=
  (applied ev s).map fun a => (a.2.logicLedger ev.ctx).authorizer a.1.sender

theorem appAddress_injective : Injective machine.appAddress := by
  intro (a : ℕ) (b : ℕ) (h : (if a = 11 then 4 else a + 100) = if b = 11 then 4 else b + 100)
  grind

end Sample

open Sample

open BlockEvaluator

/-- The group is accepted; its second inner transaction is applied when 1 owns the account of the
application. -/
theorem rekeyed_sender_applied :
    ∃ ev₀ ev, startEvaluator (machineEnv 9) ledger header true true 0 = .ok ev₀ ∧
      ev₀.transactionGroup (machineEnv 9) (creates rekeying) = .ok ev ∧
      (submitted ev₀ rekeying).map (authorizers ev₀) = [[4, 1]] ∧
      machine.appAddress 11 = 4 ∧
      (ev.state.lookup 4).authAddr = 1 ∧ (ev.state.lookup 4).microNovas = 998000 := by
  have hd : (startEvaluator (machineEnv 9) ledger header true true
      0).toOption.map (fun ev₀ =>
        ((submitted ev₀ rekeying).map (authorizers ev₀),
          (ev₀.transactionGroup (machineEnv 9) (creates rekeying)).toOption.map
            fun ev => ((ev.state.lookup 4).authAddr, (ev.state.lookup 4).microNovas))) =
      some ([[4, 1]], some (1, 998000)) := by decide +kernel
  obtain ⟨ev₀, hs, hr⟩ := exists_ok_of_toOption hd
  obtain ⟨ha, hg⟩ := Prod.mk.inj hr
  obtain ⟨ev, hc, hf⟩ := exists_ok_of_toOption hg
  obtain ⟨hk, hp⟩ := Prod.mk.inj hf
  exact ⟨ev₀, ev, hs, hc, ha, rfl, hk, hp⟩

/-- A call that creates an application, and a payment after it. -/
theorem inner_authorized_nested :
    ∃ ev₀ ev s, startEvaluator (machineEnv 9) ledger header true true 0 = .ok ev₀ ∧
      ev₀.transactionGroup (machineEnv 9) (creates []) = .ok ev ∧
      s ∈ submitted ev [2, 7, 3, 4, 5] ∧ (applied ev s).length = 2 ∧
      ∀ a ∈ applied ev s,
        (a.2.logicLedger ev.ctx).authorizer a.1.sender = machine.appAddress 11 := by
  have hd : (startEvaluator (machineEnv 9) ledger header true true 0).toOption.map (fun ev₀ =>
      (ev₀.transactionGroup (machineEnv 9) (creates [])).toOption.map fun ev =>
        (ev.state.txnCounter, (submitted ev [2, 7, 3, 4, 5]).map fun s => ((applied ev s).length,
          decide (s.subtxns.Pairwise fun e tx => ¬ e.Takes tx.sender (machine.appAddress 11))))) =
      some (some (11, [(2, true)])) := by decide +kernel
  obtain ⟨ev₀, hs, hr⟩ := exists_ok_of_toOption hd
  obtain ⟨ev, hg, hr⟩ := exists_ok_of_toOption hr
  obtain ⟨hn, hr⟩ := Prod.mk.inj hr
  obtain ⟨s, h1, hr⟩ := map_eq_singleton_iff.mp hr
  obtain ⟨hl, ht⟩ := Prod.mk.inj hr
  have hm : s ∈ submitted ev [2, 7, 3, 4, 5] := by
    rw [h1]
    exact mem_cons_self
  -- the application that the first group has created is known
  have hb := startEvaluator_started hs
  have hd : Ready True [] _ ev₀.state ∧ _ ∧ _ := hb.ready fun _ _ _ h => absurd rfl h
  have he := (evolves_transactionGroup Avm.submits_any hd.1 (fun _ _ => trivial) hb.settled hg).1
  have hk : World.Known [11] ev.state.view := by
    intro i hi
    rw [mem_singleton.mp hi]
    exact .inl hn.ge
  refine ⟨ev₀, ev, s, hs, hg, hm, hl, ?_⟩
  exact Machine.inner_authorized machine appAddress_injective 9 ev.ctx maxAppCallDepth [] _ 0 11 _ _ _
    ((hd.1.evolves he).child fun _ => hk) s hm (of_decide_eq_true ht)

end Novarand.Ledger
