import Novarand.Ledger.GroupParams

/-!
# The fee credit of a group

What the transactions of a group pay above the minimum is a credit, which inner transactions may use up
and add to at any depth. It is one counter, computed for the group and changed by every `itxn_submit`,
before the inner transactions run.
-/

namespace Novarand.Ledger

open List

inductive VerifyError
  | feeRequirementOverflow
  | feesTooSmall (feesPaid minFeeCount minTxnFee : ℕ)
  deriving DecidableEq

/-- The transactions that have to pay a fee. -/
def minFeeCount (txns : List Transaction) : ℕ := txns.countP (·.type ≠ .compactCert)

/-- The fees of a group in `TxnGroupBatchVerify`. -/
def checkGroupFees (proto : ConsensusParams) (txns : List Transaction) : Except VerifyError Unit :=
  match oMul proto.minTxnFee (minFeeCount txns) with
  | none => throw .feeRequirementOverflow
  | some feeNeeded =>
    failIf (feesPaid txns < feeNeeded)
      (.feesTooSmall (feesPaid txns) (minFeeCount txns) proto.minTxnFee)

theorem feesPaid_eq (txns : List Transaction) : feesPaid txns = min (totalFees txns) (2 ^ 64 - 1) := by
  have hf : ∀ pd, txns.foldl (fun pd tx => addSaturate pd tx.fee) (min pd (2 ^ 64 - 1)) =
      min (pd + totalFees txns) (2 ^ 64 - 1) := by
    induction txns with
    | nil =>
      intro pd
      rfl
    | cons tx txns ih =>
      intro pd
      have ho : addSaturate (min pd (2 ^ 64 - 1)) tx.fee = min (pd + tx.fee) (2 ^ 64 - 1) := by
        unfold addSaturate
        omega
      have ht : totalFees (tx :: txns) = tx.fee + totalFees txns := by simp [totalFees]
      rw [foldl_cons, ho, ih, ht, Nat.add_assoc]
  simpa [feesPaid] using hf 0

theorem totalFees_append (txns txns' : List Transaction) :
    totalFees (txns ++ txns') = totalFees txns + totalFees txns' := by simp [totalFees]

section

variable {proto : ConsensusParams} {txns : List Transaction} {u : Unit}
  (h : checkGroupFees proto txns = .ok u)
include h

theorem checkGroupFees_ok :
    proto.minTxnFee * minFeeCount txns < 2 ^ 64 ∧ proto.minTxnFee * minFeeCount txns ≤ feesPaid txns := by
  unfold checkGroupFees at h
  cases hm : oMul proto.minTxnFee (minFeeCount txns) with
  | none =>
    rw [hm] at h
    cases h
  | some _ =>
    rw [hm] at h
    obtain ⟨hl, rfl⟩ := oMul_eq_some.mp hm
    exact ⟨hl, not_lt.mp (failIf_ok.mp h)⟩

/-- The credit of a group that was verified does not wrap. -/
theorem feeCredit_eq :
    feeCredit txns proto.minTxnFee + proto.minTxnFee * minFeeCount txns = feesPaid txns := by
  obtain ⟨_, _⟩ := checkGroupFees_ok h
  have hp : feesPaid txns < 2 ^ 64 := by
    rw [feesPaid_eq]
    omega
  have hc : feeCredit txns proto.minTxnFee =
      (feesPaid txns + (2 ^ 64 - proto.minTxnFee * minFeeCount txns % 2 ^ 64)) % 2 ^ 64 := rfl
  omega

end

namespace EvalParams

/-- The credit, when the group itself has paid `paid` for `count` transactions: no more than the excess,
and just the excess as long as nothing has saturated. -/
structure Credited (count paid : ℕ) (ep : EvalParams) : Prop where
  isolates : ep.proto.isolateClearState = true
  fits : ep.proto.minTxnFee * ep.proto.maxTxGroupSize < 2 ^ 64
  covered : ep.feeCredit + ep.proto.minTxnFee * (count + ep.meter.submitted.length) ≤
    paid + totalFees ep.meter.submitted
  exact : ep.meter.saturated = false →
    ep.feeCredit + ep.proto.minTxnFee * (count + ep.meter.submitted.length) =
      paid + totalFees ep.meter.submitted
  credits : ep.meter.saturated = false → ∀ c ∈ ep.meter.credits,
    c.1 + ep.proto.minTxnFee * (count + c.2.length) = paid + totalFees c.2

variable {count paid : ℕ} {ep ep' inner : EvalParams}

theorem Credited.same (h : ep.Credited count paid) (hs : ep.Same ep') : ep'.Credited count paid where
  isolates := hs.proto ▸ h.isolates
  fits := hs.proto ▸ h.fits
  covered := by
    rw [hs.credit, hs.proto, hs.meter]
    exact h.covered
  exact := by
    rw [hs.credit, hs.proto, hs.meter]
    exact h.exact
  credits := by
    rw [hs.proto, hs.meter]
    exact h.credits

/-- The counters of the caller after a submission are those of its inner transactions. -/
theorem Credited.resume (hi : inner.Credited count paid) (hp : inner.proto = ep.proto) :
    (ep.resume inner).Credited count paid where
  isolates := hp ▸ hi.isolates
  fits := hp ▸ hi.fits
  covered := hp ▸ hi.covered
  exact := hp ▸ hi.exact
  credits := hp ▸ hi.credits

theorem Credited.new {txgroup : List SignedTxn} {proto : ConsensusParams} {specials : SpecialAddresses}
    (hi : proto.isolateClearState = true)
    (hf : proto.minTxnFee * proto.maxTxGroupSize < 2 ^ 64)
    (hv : checkGroupFees proto (txgroup.map (·.txn)) = .ok ()) :
    (new txgroup proto specials).Credited (minFeeCount (txgroup.map (·.txn)))
      (totalFees (txgroup.map (·.txn))) := by
  have hr := feeCredit_eq hv
  have hp := feesPaid_eq (txgroup.map (·.txn))
  refine ⟨hi, hf, ?_, ?_, ?_⟩
  · exact hr.le.trans (by omega)
  · intro hs
    have hl : ¬ 2 ^ 64 ≤ totalFees (txgroup.map (·.txn)) := of_decide_eq_false hs
    show Ledger.feeCredit _ _ + proto.minTxnFee * _ = totalFees _
    exact hr.trans (by omega)
  · intro _ c hc
    cases hc

/-- A group of inner transactions uses up the credit, or adds to it. -/
theorem payGroup_ok {subtxns : List Transaction} (h : ep.payGroup subtxns = (ep', .ok ()))
    (ht : ep.proto.minTxnFee * subtxns.length < 2 ^ 64) :
    ep' = { ep with feeCredit := ep'.feeCredit, meter := { ep.meter with
      saturated := ep'.meter.saturated } } ∧
    ep'.feeCredit + ep.proto.minTxnFee * subtxns.length ≤ ep.feeCredit + totalFees subtxns ∧
    (ep'.meter.saturated = false → ep.meter.saturated = false ∧
      ep'.feeCredit + ep.proto.minTxnFee * subtxns.length = ep.feeCredit + totalFees subtxns) := by
  have hf : mulSaturate ep.proto.minTxnFee subtxns.length = ep.proto.minTxnFee * subtxns.length := by
    unfold mulSaturate
    omega
  have hp := feesPaid_eq subtxns
  dsimp only [payGroup] at h
  rw [hf] at h
  split_ifs at h with hh hc
  · cases h
  · obtain ⟨rfl, -⟩ := Prod.mk.inj h
    have he : ep.feeCredit - (ep.proto.minTxnFee * subtxns.length - feesPaid subtxns) +
        ep.proto.minTxnFee * subtxns.length = ep.feeCredit + totalFees subtxns := by omega
    exact ⟨rfl, he.le, fun hs => ⟨hs, he⟩⟩
  · obtain ⟨rfl, -⟩ := Prod.mk.inj h
    refine ⟨rfl, ?_, ?_⟩
    · simp only [addSaturate]
      omega
    · simp only [addSaturate, Bool.or_eq_false_iff, decide_eq_false_iff_not, not_or]
      rintro ⟨ho, _, _⟩
      exact ⟨ho, by omega⟩

end EvalParams

namespace Machine

open EvalParams

variable {m : Machine} {count paid fuel : ℕ} {ep ep' : EvalParams} {cx : Context m.State}
  {l : LedgerForLogic}

theorem totalFees_groupSubtxns (cx : Context m.State) (ep : EvalParams) :
    totalFees (m.groupSubtxns cx ep) = totalFees cx.subtxns := by
  unfold groupSubtxns totalFees
  split_ifs
  · rw [map_map]
    rfl
  · rfl

theorem credited_submit (h : ep.Credited count paid) {u : Unit}
    (hu : m.opTxSubmit cx ep l = (ep', .ok u)) :
    (ep'.inner (m.groupSubtxns cx ep')).Credited count paid := by
  obtain ⟨-, hl, -, hp, -⟩ := opTxSubmit_ok hu
  have hf : ep.proto.minTxnFee * cx.subtxns.length < 2 ^ 64 :=
    (Nat.mul_le_mul_left _ hl).trans_lt h.fits
  obtain ⟨he, _, hq⟩ := payGroup_ok hp hf
  have hn := length_groupSubtxns cx ep'
  have ht := totalFees_groupSubtxns cx ep'
  have hr : ep'.proto = ep.proto := by rw [he]
  have hb : ep'.meter.submitted = ep.meter.submitted := by rw [he]
  have h1 : ep'.meter.credits = ep.meter.credits := by rw [he]
  generalize m.groupSubtxns cx ep' = subtxns at hn ht ⊢
  have hc : ep.proto.minTxnFee * (count + (ep.meter.submitted ++ subtxns).length) =
      ep.proto.minTxnFee * (count + ep.meter.submitted.length) +
        ep.proto.minTxnFee * cx.subtxns.length := by
    rw [length_append, hn]
    ring
  have hx : ep'.meter.saturated = false →
      ep'.feeCredit + ep.proto.minTxnFee * (count + (ep.meter.submitted ++ subtxns).length) =
        paid + totalFees (ep.meter.submitted ++ subtxns) := by
    intro hs
    obtain ⟨ho, _⟩ := hq hs
    have := h.exact ho
    rw [totalFees_append]
    omega
  refine ⟨?_, ?_, ?_, ?_, ?_⟩
  · exact hr ▸ h.isolates
  · exact hr ▸ h.fits
  · simp only [EvalParams.inner, hr, hb]
    have := h.covered
    rw [totalFees_append]
    omega
  · simp only [EvalParams.inner, hr, hb]
    exact hx
  · simp only [EvalParams.inner, hr, hb, h1]
    exact fun hs => forall_mem_append.mpr ⟨h.credits (hq hs).1, forall_mem_singleton.mpr (hx hs)⟩

/-- The credit of a group that has paid `paid` for `count` transactions. -/
def creditedRule (m : Machine) (count paid fuel₀ : ℕ) : m.Rule fuel₀ False where
  Good := Credited count paid
  Bad _ := True
  In _ cx ep := ep.Credited count paid ∧ (ep.Isolated cx.gi → cx.subtxns = [])
  isolates h := h.isolates
  bad _ := trivial
  same h hs := h.same hs
  enter h _ _ _ := ⟨{ h with }, fun _ => rfl⟩
  exit h := h.1
  exhaust h := { h.1 with }
  apart h := h.2
  pay h _ _ := ⟨{ h.1 with }, h.2⟩
  step {fuel cx cx' ep ep'} h hgi _ hsub hs := by
    refine ⟨h.1.same hs, ?_⟩
    rw [hgi, hs.grows.isolated]
    intro hiso
    rw [hsub.resolve_right (not_not.mpr hiso)]
    exact h.2 hiso
  refuse _ _ := trivial
  submit h hsub := credited_submit h.1 hsub
  resume _ _ hgrows hgood := ⟨hgood.resume hgrows.proto, fun _ => rfl⟩
  abandon _ _ _ _ := trivial

end Machine

namespace BlockEvaluator

open EvalParams

/-- The fees of an accepted group: with the inner transactions it submits, at any depth, it pays at
least the minimum fee for each transaction but compact certificates. As long as no addition
saturates, the credit at each submission, and at the end, is what was paid above that. -/
theorem group_fees_covered {m : Machine} {fuel : ℕ} {env : Environment EvalParams}
    (henv : env.avm = m.avm fuel) {ev ev' : BlockEvaluator} {txgroup : List SignedTxnWithAD}
    (hiso : ev.ctx.proto.isolateClearState = true)
    (hfits : ev.ctx.proto.minTxnFee * ev.ctx.proto.maxTxGroupSize < 2 ^ 64)
    (hverified : checkGroupFees ev.ctx.proto (txgroup.map (·.signedTxn.txn)) = .ok ())
    (haccepted : ev.transactionGroup env txgroup = .ok ev') :
    let txns := txgroup.map (·.signedTxn.txn)
    let ep := ev.groupParams env txgroup
    ev.ctx.proto.minTxnFee * minFeeCount (txns ++ ep.meter.submitted) ≤
      totalFees (txns ++ ep.meter.submitted) ∧
    (ep.meter.saturated = false →
      ep.feeCredit + ev.ctx.proto.minTxnFee * (minFeeCount txns + ep.meter.submitted.length) =
        totalFees (txns ++ ep.meter.submitted) ∧
      ∀ c ∈ ep.meter.credits,
        c.1 + ev.ctx.proto.minTxnFee * (minFeeCount txns + c.2.length) =
          totalFees (txns ++ c.2)) := by
  intro txns ep
  have ht : (txgroup.map (·.signedTxn)).map (·.txn) = txns := map_map ..
  have hg : (new (txgroup.map (·.signedTxn)) ev.ctx.proto
      { feeSink := ev.ctx.feeSink, rewardsPool := ev.ctx.rewardsPool }).Credited (minFeeCount txns)
        (totalFees txns) := by
    rw [← ht]
    exact .new hiso hfits (ht ▸ hverified)
  have ha := groupParams_left
    (R := m.creditedRule (minFeeCount txns) (totalFees txns) fuel) henv txgroup False.elim hg
  have hp : ep.proto = ev.ctx.proto := by
    rw [ha.grows.proto]
    simp only [startGroup, henv]
    rfl
  have hr : ep.Credited (minFeeCount txns) (totalFees txns) :=
    ha.good (.inr (groupLoop_of_accepted haccepted))
  have hn : minFeeCount (txns ++ ep.meter.submitted) ≤
      minFeeCount txns + ep.meter.submitted.length := by
    unfold minFeeCount
    rw [countP_append]
    exact Nat.add_le_add_left countP_le_length _
  have hv := hr.covered
  have he := hr.exact
  have hd := hr.credits
  rw [hp] at hv he hd
  refine ⟨?_, fun hs => ⟨?_, fun c hc => ?_⟩⟩
  · rw [totalFees_append]
    exact (Nat.mul_le_mul_left _ hn).trans ((Nat.le_add_left _ _).trans hv)
  · rw [totalFees_append]
    exact he hs
  · rw [totalFees_append]
    exact hd hs c hc

end BlockEvaluator

/-- The application of the group pays a coin, with a fee from the credit. -/
def Sample.generous : List SignedTxnWithAD :=
  (creates [2, 4, 5]).map fun txad =>
    { txad with signedTxn := { txad.signedTxn with txn := { txad.signedTxn.txn with fee := 2000 } } }

open Sample

open BlockEvaluator

/-- The group pays twice the minimum, and its program submits a payment that pays nothing. -/
theorem group_fees_covered_payment :
    ∃ ev₀ ev, startEvaluator (machineEnv 9) ledger header true true 0 = .ok ev₀ ∧
      ev₀.transactionGroup (machineEnv 9) generous = .ok ev ∧
      (ev₀.groupParams (machineEnv 9) generous).meter.submitted.map (·.fee) = [0] ∧
      (ev₀.groupParams (machineEnv 9) generous).feeCredit = 0 ∧
      ev₀.ctx.proto.minTxnFee * minFeeCount (generous.map (·.signedTxn.txn) ++
          (ev₀.groupParams (machineEnv 9) generous).meter.submitted) ≤
        totalFees (generous.map (·.signedTxn.txn) ++
          (ev₀.groupParams (machineEnv 9) generous).meter.submitted) := by
  have hd : (startEvaluator (machineEnv 9) ledger header true true
      0).toOption.map (fun ev₀ =>
        let ep := ev₀.groupParams (machineEnv 9) generous
        ((ev₀.transactionGroup (machineEnv 9) generous).toOption.isSome,
          ep.meter.submitted.map (·.fee), ep.feeCredit)) = some (true, [0], 0) := by decide +kernel
  obtain ⟨ev₀, hs, hr⟩ := exists_ok_of_toOption hd
  simp only [Prod.mk.injEq] at hr
  obtain ⟨ha, hf, hc⟩ := hr
  obtain ⟨-, -, -, hp⟩ := startEvaluator_mode hs
  have hp : ev₀.ctx.proto = {} := (Option.some.inj hp).symm
  cases hg : ev₀.transactionGroup (machineEnv 9) generous with
  | error e =>
    rw [hg] at ha
    cases ha
  | ok ev =>
    refine ⟨ev₀, ev, hs, hg, hf, hc, ?_⟩
    exact (group_fees_covered (m := machine) rfl (by rw [hp]) (by rw [hp]; decide)
      (by rw [hp]; decide) hg).1

end Novarand.Ledger
